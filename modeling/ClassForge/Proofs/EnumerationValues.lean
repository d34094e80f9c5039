import ClassForge.Proofs.Sizes

set_option autoImplicit false

namespace ClassForge

namespace Machine

inductive Value where
  | int (value : Int)
  | text (value : String)
  | ref (address : Nat)
  deriving DecidableEq, Repr

-- Objects remember the name and the ordinal that their constructor was given.
inductive Cell where
  | object (owner : String) (given : Option (String × Int))
  | array (element : String) (elements : List (Option Value))
  deriving DecidableEq, Repr

end Machine

open Machine (Value Cell)

structure Machine where
  stack : List Value := []
  heap : List Cell := []
  -- What was stored in static fields, by owner, name and descriptor; the latest comes first.
  stores : List ((String × String × String) × Value) := []
  deriving DecidableEq, Repr

namespace Machine

def static? (m : Machine) (field : String × String × String) : Option Value :=
  m.stores.lookup field

def allocate (m : Machine) (cell : Cell) : Machine :=
  { m with stack := .ref m.heap.length :: m.stack, heap := m.heap ++ [cell] }

def create (m : Machine) (element : String) : Option Machine :=
  match m.stack with
  | .int count :: rest =>
    if 0 ≤ count then some ({ m with stack := rest }.allocate (.array element (.replicate count.toNat none))) else none
  | _ => none

def construct (m : Machine) (owner : String) : Option Machine :=
  match m.stack with
  | .int ordinal :: .text name :: .ref address :: rest =>
    if m.heap[address]? = some (.object owner none) then
      some { m with stack := rest, heap := m.heap.set address (.object owner (some (name, ordinal))) }
    else none
  | _ => none

def setElement (m : Machine) : Option Machine :=
  match m.stack with
  | value :: .int index :: .ref address :: rest =>
    match m.heap[address]? with
    | some (.array element elements) =>
      if 0 ≤ index ∧ index.toNat < elements.length then
        some { m with stack := rest, heap := m.heap.set address (.array element (elements.set index.toNat value)) }
      else none
    | _ => none
  | _ => none

def access (m : Machine) (opcode : Opcode) (field : String × String × String) : Option Machine :=
  if opcode = .putstatic then
    match m.stack with
    | value :: rest => some { m with stack := rest, stores := (field, value) :: m.stores }
    | [] => none
  else if opcode = .getstatic then (m.static? field).map fun value => { m with stack := value :: m.stack }
  else none

def step (m : Machine) : Operation → Option Machine
  | .pushInt value => some { m with stack := .int value :: m.stack }
  | .pushText text => some { m with stack := .text text :: m.stack }
  | .dup => m.stack.head?.map fun top => { m with stack := top :: m.stack }
  | .create owner => some (m.allocate (.object owner none))
  | .createArray element => m.create element
  | .storeElement => m.setElement
  | .special owner name descriptor =>
    if name = constructorName ∧ descriptor = Assembly.Enumeration.constructorType.text then m.construct owner else none
  | .access opcode owner name descriptor => m.access opcode (owner, name, descriptor)
  | .load _ _ | .leave => none

def run (m : Machine) : List Operation → Option Machine
  | [] => none
  | .leave :: _ => some m
  | operation :: rest => (m.step operation).bind (run · rest)

end Machine

namespace Assembly.Enumeration

variable {t : Target} {values : List String} {m : Machine} {rest : List Operation} {n : Nat} {value : String}

def fieldOf (t : Target) (value : String) : String × String × String :=
  (t.self, value, t.selfType.text)

def arrayField (t : Target) : String × String × String :=
  (t.self, valuesField, t.selfType.arrayOf.text)

def objectOf (t : Target) (value : String × Nat) : Cell :=
  .object t.self (some (value.1, value.2))

def storeOf (t : Target) (value : String × Nat) : (String × String × String) × Value :=
  (fieldOf t value.1, .ref value.2)

theorem run_constructing (value : String) :
    m.run (constructing t value m.heap.length ++ rest) =
      { m with
        heap := m.heap ++ [objectOf t (value, m.heap.length)]
        stores := storeOf t (value, m.heap.length) :: m.stores : Machine }.run rest := by
  simp [constructing, Machine.run, Machine.step, Machine.allocate, Machine.construct, Machine.access, objectOf, storeOf,
    fieldOf]

theorem run_constructingAll (size : m.heap.length = n) :
    m.run ((values.zipIdx n).flatMap (fun (value, ordinal) => constructing t value ordinal) ++ rest) =
      { m with
        heap := m.heap ++ (values.zipIdx n).map (objectOf t)
        stores := ((values.zipIdx n).map (storeOf t)).reverse ++ m.stores : Machine }.run rest := by
  induction values generalizing m n with
  | nil => simp
  | cons value values ih =>
    subst size
    rw [List.zipIdx_cons, List.flatMap_cons, List.append_assoc, run_constructing, ih (by simp)]
    simp

def holding (t : Target) (objects : List Cell) (elements : List (Option Value))
    (stores : List ((String × String × String) × Value)) : Machine :=
  { stack := [.ref objects.length], heap := objects ++ [.array t.self elements], stores }

section Collecting

variable {objects : List Cell} {done empty : List (Option Value)} {stores : List ((String × String × String) × Value)}

theorem run_collecting {held : Value} (known : stores.lookup (fieldOf t value) = some held) :
    (holding t objects (done ++ none :: empty) stores).run (collecting t value done.length ++ rest) =
      (holding t objects (done ++ some held :: empty) stores).run rest := by
  simp only [fieldOf] at known
  simp [holding, collecting, Machine.run, Machine.step, Machine.access, Machine.setElement, Machine.static?, known,
    Opcode.getstatic, Opcode.putstatic]

theorem run_collectingAll (known : ∀ value ∈ values, ∃ held, stores.lookup (fieldOf t value) = some held) :
    (holding t objects (done ++ .replicate values.length none) stores).run
        ((values.zipIdx done.length).flatMap (fun (value, ordinal) => collecting t value ordinal) ++ rest) =
      (holding t objects (done ++ values.map fun value => stores.lookup (fieldOf t value)) stores).run rest := by
  induction values generalizing done with
  | nil => rfl
  | cons value values ih =>
    obtain ⟨⟨held, first⟩, known⟩ := List.forall_mem_cons.1 known
    have next := @ih (done ++ [some held]) known
    rw [List.length_append] at next
    rw [List.zipIdx_cons, List.flatMap_cons, List.append_assoc, List.length_cons, List.replicate_succ,
      run_collecting first]
    simpa [first] using next

end Collecting

theorem lookup_stores (member : value ∈ values) :
    ∃ i, values[i]? = some value ∧
      (values.zipIdx.map (storeOf t)).reverse.lookup (fieldOf t value) = some (.ref i) := by
  obtain ⟨i, here⟩ := List.mem_iff_getElem?.1 member
  have stored : (storeOf t (value, i)) ∈ (values.zipIdx.map (storeOf t)).reverse :=
    List.mem_reverse.2 (List.mem_map_of_mem (List.mk_mem_zipIdx_iff_getElem?.2 here))
  obtain ⟨held, found⟩ := Option.isSome_iff_exists.1 (List.lookup_isSome_iff.2 ⟨_, stored, BEq.rfl⟩)
  obtain ⟨before, after, split, -⟩ := List.lookup_eq_some_iff.1 found
  have among : (fieldOf t value, held) ∈ (values.zipIdx.map (storeOf t)).reverse := by
    rw [split]
    exact List.mem_append_right _ List.mem_cons_self
  obtain ⟨⟨other, j⟩, listed, same⟩ := List.mem_map.1 (List.mem_reverse.1 among)
  simp only [storeOf, fieldOf, Prod.mk.injEq, true_and, and_true] at same
  obtain ⟨rfl, rfl⟩ := same
  exact ⟨j, List.mk_mem_zipIdx_iff_getElem?.1 listed, found⟩

-- What the static initializer leaves behind: the stores one after the other, the objects and the array.
structure Initialized (t : Target) (values : List String) (m : Machine) : Prop where
  stores : m.stores.reverse = values.zipIdx.map (storeOf t) ++ [(arrayField t, .ref values.length)]
  objects : ∀ i value, values[i]? = some value → m.heap[i]? = some (objectOf t (value, i))
  array : m.heap[values.length]? = some (.array t.self (values.map fun value => m.static? (fieldOf t value)))
  held : ∀ value ∈ values, ∃ i, values[i]? = some value ∧ m.static? (fieldOf t value) = some (.ref i)

theorem fieldOf_ne_arrayField (value : String) : fieldOf t value ≠ arrayField t := by
  intro same
  have text : t.selfType.text = t.selfType.arrayOf.text := congrArg (·.2.2) same
  have length := congrArg String.length text
  simp [Descriptor.arrayOf] at length

theorem run_initializing : ∃ m, Machine.run {} (initializing t values) = some m ∧ Initialized t values m := by
  generalize objectsMade : values.zipIdx.map (objectOf t) = objects
  generalize storesMade : (values.zipIdx.map (storeOf t)).reverse = stores
  have size : objects.length = values.length := by simp [← objectsMade]
  have held : ∀ value ∈ values, ∃ i, values[i]? = some value ∧ stores.lookup (fieldOf t value) = some (.ref i) :=
    fun value member => storesMade ▸ lookup_stores member
  have array (rest : List Operation) :
      ({ heap := objects, stores } : Machine).run (.pushInt values.length :: .createArray t.self :: rest) =
        (holding t objects ([] ++ .replicate values.length none) stores).run rest := by
    simp [Machine.run, Machine.step, Machine.create, Machine.allocate, holding]
  have unchanged (value : String) (v : Value) :
      ((arrayField t, v) :: stores).lookup (fieldOf t value) = stores.lookup (fieldOf t value) := by
    simp [List.lookup_cons, beq_false_of_ne (fieldOf_ne_arrayField value)]
  refine ⟨{
    heap := objects ++ [.array t.self (values.map fun value => stores.lookup (fieldOf t value))]
    stores := (arrayField t, .ref objects.length) :: stores }, ?_, ?_, ?_, ?_, ?_⟩
  · have made := @run_constructingAll t values {} (.pushInt values.length :: .createArray t.self ::
      (values.zipIdx.flatMap (fun (value, ordinal) => collecting t value ordinal) ++
        [.access .putstatic t.self valuesField t.selfType.arrayOf.text, .leave])) 0 rfl
    simp only [List.nil_append, List.append_nil, objectsMade, storesMade] at made
    simp only [initializing, List.append_assoc, List.cons_append, List.nil_append]
    rw [made, array]
    refine (run_collectingAll fun value member => ?_).trans ?_
    · obtain ⟨i, -, found⟩ := held value member
      exact ⟨_, found⟩
    · simp [holding, Machine.run, Machine.step, Machine.access, arrayField]
  · rw [List.reverse_cons, ← storesMade, List.reverse_reverse, size]
  · intro i value here
    have inside : i < objects.length := size ▸ (List.getElem?_eq_some_iff.1 here).1
    rw [List.getElem?_append_left inside, ← objectsMade]
    simp [here]
  · simp [← size, Machine.static?, unchanged]
  · simpa only [Machine.static?, unchanged] using held

variable {file : ClassFile}

theorem fits_initializing (few : (initializing t values).length ≤ 65535) :
    ∀ operation ∈ initializing t values, operation.Fits := by
  have count : values.length ≤ 65535 := by
    simp only [initializing, List.length_append, List.length_flatMap, constructing, collecting, List.length_cons,
      List.length_nil, List.map_const', List.sum_replicate, List.length_zipIdx, smul_eq_mul] at few
    omega
  have small {value : String} {i : Nat} (listed : (value, i) ∈ values.zipIdx) : Operation.Fits (.pushInt i) := by
    have := List.snd_lt_of_mem_zipIdx listed
    simp only [Operation.Fits]
    omega
  have last : Operation.Fits (.pushInt values.length) := by
    simp only [Operation.Fits]
    omega
  intro operation member
  simp only [initializing, List.mem_append, List.mem_flatMap] at member
  rcases member with ((⟨pair, listed, member⟩ | member) | ⟨pair, listed, member⟩) | member
  · fin_cases member <;> first | trivial | exact small listed
  · fin_cases member
    · exact last
    · trivial
  · fin_cases member <;> first | trivial | exact small listed
  · fin_cases member <;> trivial

theorem staticInit_initializes (shape : t.decl.shape = .enumeration values)
    (assembled : t.program.assemble t.options t.decl = .ok file) :
    file.fields.map file.fieldKey =
      values.map (fun value => (some value, some t.selfType.text)) ++ [(some "$VALUES", some t.selfType.arrayOf.text)] ∧
    ∃ staticInit ∈ file.methods, file.pool.utf8? staticInit.name = some "<clinit>" ∧
      ∃ code operations m, staticInit.code = some code ∧ code.Reads file.pool operations ∧
        Machine.run {} operations = some m ∧ Initialized t values m := by
  obtain ⟨-, -, -, holds⟩ := Program.assemble_holds assembled
  generalize fieldsMade : file.fields = fields at holds ⊢
  generalize methodsMade : file.methods = methods at holds ⊢
  cases holds with
  | plainClass shape' | interface shape' | record shape' => cases shape.symm.trans shape'
  | enumeration shape' named held listed found made initial =>
    cases shape.symm.trans shape'
    obtain ⟨code, built, -, entry⟩ := initial
    obtain ⟨before, mid, valid, run, grown⟩ := built.made
    obtain ⟨-, -, -, -, peak, spelled⟩ := staticInitCode_spells shape valid run
    obtain ⟨m, ran, initialized⟩ := @run_initializing t values
    refine ⟨?_, _, by simp, entry.named, code, _, m, entry.code,
      spelled.reads _ grown (fits_initializing spelled.few), ran, initialized⟩
    rw [List.map_append, keys_of_values named, List.map_singleton, ClassFile.fieldKey, held.named, held.typed]
    rfl

theorem staticInit_initializes_two : ∃ (t : Target) (file : ClassFile),
    t.decl.shape = .enumeration ["A", "B"] ∧ t.program.assemble t.options t.decl = .ok file ∧
    ∃ staticInit ∈ file.methods, ∃ code operations m, staticInit.code = some code ∧
      code.Reads file.pool operations ∧ Machine.run {} operations = some m ∧ Initialized t ["A", "B"] m := by
  let t : Target := ⟨[], ⟨⟨"E", "E", "E", none, {}, [], [], [], ⟨"E.ktj"⟩, 1⟩, .enumeration ["A", "B"]⟩, {}⟩
  have done : (t.program.assemble t.options t.decl).isOk = true := by decide +kernel
  cases made : t.program.assemble t.options t.decl with
  | error error => simp [made, Except.isOk, Except.toBool] at done
  | ok file =>
    obtain ⟨-, staticInit, member, -, runs⟩ := @staticInit_initializes t _ file rfl made
    exact ⟨t, file, rfl, made, staticInit, member, runs⟩

end Assembly.Enumeration

end ClassForge
