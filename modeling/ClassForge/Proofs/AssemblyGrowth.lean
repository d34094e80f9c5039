import ClassForge.Proofs.MemberGrowth
import ClassForge.Proofs.Operations

set_option autoImplicit false

namespace ClassForge

variable {index : UInt16} {kind : Kind} {item : Item} {operation : Operation} {opcode : Opcode}

namespace Gen

variable {α β : Type} {site : Site}

structure Closes (site : Site) (x : Gen Unit) : Prop where
  grows : Grows site [] x
  ends : ∀ w u later, x w = .ok u later → later.code.alive = false

theorem closes_ret (same : kind.returnOpcode = site.returns.kind.returnOpcode) : Closes site (emit (.ret kind)) :=
  ⟨grows_ret same, fun _ _ _ => ret_dead⟩

theorem closes_bind {x : Gen α} {f : α → Gen Unit} (first : Grows site [] x)
    (second : ∀ a, Closes site (f a)) : Closes site (x >>= f) where
  grows := moves_bind first fun a => (second a).grows
  ends w u later h := by
    obtain ⟨a, mid, -, h⟩ := bind_returns.1 h
    exact (second a).ends mid u later h

theorem closes_then {step : Pooled UInt16} {use : UInt16 → Emit Unit} {next : Unit → Gen Unit}
    (first : Grows site [] (do emit (use (← pooled step)))) (second : ∀ u, Closes site (next u)) :
    Closes site (pooled step >>= fun index => emit (use index) >>= next) := by
  have whole := closes_bind first second
  rwa [bind_assoc] at whole

theorem method_generated {step : Gen Unit} {maxLocals : Nat} {pool later : ConstantPool}
    {code : CodeAttribute} (closes : Closes site step) (valid : pool.Valid)
    (h : Gen.method maxLocals step pool = .ok code later) :
    later.Valid ∧ pool.Extends later ∧ code.maxLocals = UInt16.ofNat maxLocals ∧
      Generated site later code := by
  simp only [Gen.method, Gen.run, Lower.run_returns, unlocated_returns, bind_returns] at h
  obtain ⟨final, ⟨_, w, run, finish⟩, rfl⟩ := h
  have grown := closes.grows { pool } () w run valid (by simp)
  obtain ⟨-, -, locals, -⟩ := finish_run finish
  obtain ⟨valid', grown', generated⟩ :=
    finish_generated grown.toGrowth (closes.ends { pool } () w run) finish
  exact ⟨valid', grown', locals, generated⟩

end Gen

theorem Item.reads_layout {pool : ConstantPool} {place : Label → Nat} {items : List Item} {operations : List Operation}
    (does : List.Forall₂ (Item.Does pool) items operations) (fits : ∀ operation ∈ operations, operation.Fits)
    (pc : Nat) :
    (Item.layout (fun pc item => [item.instruction place pc]) pc items).map (·.operation? pool) =
      operations.map some := by
  induction does generalizing pc with
  | nil => rfl
  | cons first _ ih =>
    obtain ⟨fit, fits⟩ := List.forall_mem_cons.1 fits
    rw [Item.layout, List.map_append, List.map_cons, ih fits, List.map_cons, first pool (.refl _) fit]
    rfl

def CodeAttribute.Reads (pool : ConstantPool) (operations : List Operation) (code : CodeAttribute) : Prop :=
  ∃ instructions, Instruction.decode code.code = .ok instructions ∧
    instructions.map (·.operation? pool) = operations.map some

-- Code without jumps: as long as the numbers fit, it is read as the operations, now and in every later pool.
structure CodeAttribute.Spelled (pool : ConstantPool) (operations : List Operation) (peak : Nat)
    (code : CodeAttribute) : Prop where
  reads : ∀ later, pool.Extends later → (∀ operation ∈ operations, operation.Fits) → code.Reads later operations
  few : operations.length ≤ 65535
  deepest : code.maxStack = UInt16.ofNat peak

-- The code so far has no jumps and is read as the operations, with the stack as deep as it says.
structure Workspace.Spells (site : Site) (start : ConstantPool) (operations : List Operation) (depth peak : Nat)
    (w : Workspace) : Prop where
  valid : w.pool.Valid
  grown : start.Extends w.pool
  alive : w.code.alive = true
  stack : w.code.depth = depth
  highest : w.code.maxDepth = peak
  deep : depth ≤ peak
  items : ∃ items, w.code.Laid items ∧ (∀ item ∈ items, Emits site w.pool item) ∧
    List.Forall₂ (Item.Does w.pool) items operations

namespace Workspace.Spells

open Gen (emit)
open CodeBuffer (Written)

variable {α : Type} {site : Site} {start : ConstantPool} {operations : List Operation} {depth peak : Nat}
  {w later : Workspace} {u : Unit}

theorem empty (valid : start.Valid) : Spells site start [] 0 0 { pool := start } where
  valid := valid
  grown := .refl start
  alive := rfl
  stack := rfl
  highest := rfl
  deep := Nat.le_refl 0
  items := ⟨[], CodeBuffer.laid_empty, by simp, .nil⟩

variable (spells : Spells site start operations depth peak w)
include spells

theorem added {pool : ConstantPool} (valid : pool.Valid)
    (grown : w.pool.Extends pool) : Spells site start operations depth peak { w with pool } where
  valid := valid
  grown := spells.grown.trans grown
  alive := spells.alive
  stack := spells.stack
  highest := spells.highest
  deep := spells.deep
  items := by
    obtain ⟨items, laid, emits, does⟩ := spells.items
    exact ⟨items, laid, fun item member => (emits item member).mono grown, does.imp fun _ _ does => does.mono grown⟩

theorem rebased : Spells site w.pool operations depth peak w :=
  { spells with grown := .refl _ }

theorem since {before : ConstantPool} (grown : before.Extends start) : Spells site before operations depth peak w :=
  { spells with grown := grown.trans spells.grown }

theorem writes {pops pushes : Nat} {code : CodeBuffer}
    (written : Written item pops pushes w.code code) (formed : item.WellFormed) (free : item.targets = [])
    (emits : Emits site w.pool item) (does : item.Does w.pool operation) :
    (∃ items, code.Laid items ∧ (∀ item ∈ items, Emits site w.pool item) ∧
      List.Forall₂ (Item.Does w.pool) items (operations ++ [operation])) ∧
    code.depth = depth - pops + pushes ∧ code.maxDepth = max peak (depth - pops + pushes) ∧
    code.alive = !item.endsPath := by
  have writes := written.writes spells.alive
  obtain ⟨items, laid, known, reads⟩ := spells.items
  have deep : w.code.depth ≤ w.code.maxDepth := by
    rw [spells.stack, spells.highest]
    exact spells.deep
  refine ⟨⟨items ++ [item], writes.laid formed (by simp [free]) laid, ?_, ?_⟩, ?_, ?_, writes.ends⟩
  · exact List.forall_mem_append.2 ⟨known, by simpa using emits⟩
  · exact List.rel_append reads (.cons does .nil)
  · rw [writes.depth, spells.stack]
  · rw [writes.peaks deep, writes.depth, spells.stack, spells.highest]

theorem emitted {step : Emit α} {pops pushes next : Nat} {a : α}
    (written : ∀ code, step w.code = .ok a code → Written item pops pushes w.code code) (formed : item.WellFormed)
    (free : item.targets = []) (goesOn : item.endsPath = false) (emits : Emits site w.pool item)
    (does : item.Does w.pool operation) (moves : depth - pops + pushes = next) (h : emit step w = .ok a later) :
    Spells site start (operations ++ [operation]) next (max peak next) later := by
  obtain ⟨code, run, rfl⟩ := Gen.emit_returns.1 h
  obtain ⟨items, deep, high, alive⟩ := spells.writes (written code run) formed free emits does
  rw [moves] at deep high
  rw [goesOn] at alive
  exact ⟨spells.valid, spells.grown, alive, deep, high, Nat.le_max_right _ _, items⟩

theorem load {slot : Nat} (h : emit (.load kind slot) w = .ok u later) :
    Spells site start (operations ++ [.load kind slot]) (depth + kind.width) (max peak (depth + kind.width)) later := by
  obtain ⟨opcode, operands, same, -, goesOn⟩ := Emit.localAccess_load kind slot
  obtain ⟨_, _, same', free, formed⟩ := Item.load_plain kind slot
  refine spells.emitted (fun _ => Emit.load_returns) (same' ▸ formed) (by rw [same]; rfl) (same ▸ goesOn) ?_
    (Item.does_load kind slot) (by simp) h
  rw [same']
  exact .plain free

theorem access {width next : Nat} {owner name descriptor : String}
    (isAccess : opcode ∈ [Opcode.getstatic, .putstatic, .getfield, .putfield])
    (emits : Emits site w.pool (.plain opcode (Bytes.u2 index)))
    (ref : w.pool.RefersTo .fieldRef index owner name descriptor)
    (moves : depth - (Emit.fieldEffect opcode width).1 + (Emit.fieldEffect opcode width).2 = next)
    (h : emit (.field opcode index width) w = .ok u later) :
    Spells site start (operations ++ [.access opcode owner name descriptor]) next (max peak next) later := by
  have goesOn : (Item.plain opcode (Bytes.u2 index)).endsPath = false := by fin_cases isAccess <;> rfl
  have formed : (Item.plain opcode (Bytes.u2 index)).WellFormed := by
    fin_cases isAccess <;> exact Item.wellFormed_of_length rfl
  exact spells.emitted (fun _ => Emit.field_returns goesOn) formed rfl goesOn emits
    (Item.does_access isAccess ref.2) moves h

theorem special {args : Nat} {owner name descriptor : String}
    (emits : Emits site w.pool (.invoke .invokespecial index args))
    (ref : w.pool.RefersTo .methodRef index owner name descriptor)
    (h : emit (.invoke .invokespecial index args 0) w = .ok u later) :
    Spells site start (operations ++ [.special owner name descriptor]) (depth - (args + 1))
      (max peak (depth - (args + 1))) later :=
  spells.emitted (fun _ => Emit.invoke_returns rfl) (Item.wellFormed_of_length rfl) rfl rfl emits
    (Item.does_special ref.2) rfl h

theorem bare {pops pushes next : Nat} (known : opcode.bare? = some operation)
    (free : opcode.isBare = true) (goesOn : (Item.plain opcode []).endsPath = false)
    (effect : opcode.stackEffect? = some (pops, pushes)) (moves : depth - pops + pushes = next)
    (h : emit (.op opcode) w = .ok u later) :
    Spells site start (operations ++ [operation]) next (max peak next) later := by
  refine spells.emitted (fun _ => Emit.op_written effect) (Opcode.wellFormed_of_isBare free) rfl goesOn (.plain ?_)
    (Item.does_bare known) moves h
  simp only [Opcode.isBare, Bool.and_eq_true] at free
  exact free.1

theorem word {pops pushes next : Nat} (length : Instruction.operandLength? 0 opcode [] = some 2)
    (goesOn : (Item.plain opcode (Bytes.u2 index)).endsPath = false)
    (effect : opcode.stackEffect? = some (pops, pushes)) (emits : Emits site w.pool (.plain opcode (Bytes.u2 index)))
    (does : (Item.plain opcode (Bytes.u2 index)).Does w.pool operation) (moves : depth - pops + pushes = next)
    (h : emit (.opWord opcode index) w = .ok u later) :
    Spells site start (operations ++ [operation]) next (max peak next) later :=
  spells.emitted (fun _ => Emit.fixed_written effect goesOn) (Item.wellFormed_of_length length) rfl goesOn emits does
    moves h

theorem constant (does : (Item.constant index 1).Does w.pool operation) (h : emit (.constant index 1) w = .ok u later) :
    Spells site start (operations ++ [operation]) (depth + 1) (max peak (depth + 1)) later := by
  obtain ⟨opcode, operands, same, -, free, formed⟩ := Item.constant_plain index 1
  have goesOn : (Item.constant index 1).endsPath = false := by
    unfold Item.constant
    split_ifs <;> rfl
  refine spells.emitted (fun _ => Emit.constant_returns) (same ▸ formed) (by rw [same]; rfl) goesOn ?_ does (by simp) h
  rw [same]
  exact .plain free

theorem pushInt {value : Int} (h : Gen.pushInt value w = .ok u later) :
    Spells site start (operations ++ [.pushInt value]) (depth + 1) (max peak (depth + 1)) later := by
  simp only [Gen.pushInt, bind_returns, ite_returns, pure_returns, Gen.pooled_returns] at h
  obtain ⟨found, mid, run, h⟩ := h
  obtain ⟨code, small, rfl⟩ := Gen.emit_returns.1 run
  rcases Emit.smallInt_returns small with ⟨rfl, rfl, -⟩ | ⟨rfl, fits, written⟩
  · obtain ⟨-, index, _, ⟨pool, added, rfl⟩, h⟩ := h.resolve_left (by simp)
    obtain ⟨valid, grown, known⟩ := Pooled.add_returns spells.valid added
    exact (spells.added valid grown).constant (Item.does_integer known) h
  · obtain ⟨-, -, rfl⟩ := h.resolve_right (by simp)
    obtain ⟨opcode, operands, same, family, formed⟩ := Item.smallInt_plain value
    have plain : (Item.plain opcode operands).endsPath = false ∧ opcode.isFree = true := by
      fin_cases family <;> exact ⟨rfl, rfl⟩
    rw [same] at written
    exact spells.emitted (fun _ again => by cases small.symm.trans again; exact written) formed rfl plain.1
      (.plain plain.2) (same ▸ Item.does_smallInt fits) (by simp) run

theorem closes {maxLocals : Nat} {code : CodeAttribute} {mid : Workspace} (isVoid : site.returns = .void)
    (ret : emit (.ret .void) w = .ok u mid) (finish : Gen.finish maxLocals mid = .ok code later) :
    later.pool.Valid ∧ start.Extends later.pool ∧ code.maxLocals = UInt16.ofNat maxLocals ∧
      Generated site later.pool code ∧ code.Spelled later.pool (operations ++ [.leave]) peak := by
  obtain ⟨b, run, rfl⟩ := Gen.emit_returns.1 ret
  have emits : Emits site w.pool (.plain Opcode.vreturn []) := by
    have := @Emits.ret site w.pool
    rwa [isVoid] at this
  obtain ⟨⟨items, laid, known, does⟩, -, high, dead⟩ := spells.writes
    (Emit.op_written (rfl : Opcode.vreturn.stackEffect? = some (0, 0)) run) (Item.wellFormed_of_length rfl) rfl emits
    (Item.does_bare (rfl : Opcode.vreturn.bare? = some .leave))
  obtain ⟨bytes, deepest, locals, plain, name, added⟩ := Gen.finish_run finish
  obtain ⟨valid, grown, -⟩ := Pooled.utf8_returns spells.valid added
  obtain ⟨decoded, -, bound, -⟩ := CodeBuffer.finish_returns laid.toHolds bytes
  refine ⟨valid, spells.grown.trans grown, locals,
    ⟨b, items, laid, fun item member => (known item member).mono grown, dead, bytes, plain⟩, ?_, ?_, ?_⟩
  · intro final extended fits
    exact ⟨_, decoded, Item.reads_layout (does.imp fun _ _ does => does.mono (grown.trans extended)) fits 0⟩
  · have := Item.le_endFrom 0 items
    rw [← does.length_eq]
    rw [laid.toHolds.pc_eq] at bound
    omega
  · rw [deepest]
    exact congrArg UInt16.ofNat (high.trans (Nat.max_eq_left (by have := spells.deep; omega)))

end Workspace.Spells

variable {self init : UInt16} {w : Workspace} {slot : Nat} {u : Unit} {pairs : List (String × Nat)}

namespace Assembly

def Target.site (t : Target) (isInitializer : Bool) (returns : Descriptor) : Site :=
  { scope := t.scope, isStatic := true, isInitializer, returns }

namespace Enumeration

open Gen

variable {t : Target} {values : List String} {pool later : ConstantPool} {code : CodeAttribute}

theorem valuesCode_generated (shape : t.decl.shape = .enumeration values) (valid : pool.Valid)
    (h : valuesCode t pool = .ok code later) :
    later.Valid ∧ pool.Extends later ∧ code.maxLocals = 0 ∧ Generated (t.site false t.selfType.arrayOf) later code := by
  refine method_generated ?_ valid h
  refine closes_then (grows_field (by simp) fun _ _ ref => .value (by simp) nofun shape (.inr ⟨rfl, rfl⟩) ref)
    fun _ => ?_
  refine closes_then (grows_invoke _ (by simp) (fun _ _ _ valid h => Pooled.methodRef_returns valid h)
    fun _ _ ref => .foreign (by simp) (.inr ⟨_, rfl⟩) (by simp [constructorName]) ref) fun _ => ?_
  refine closes_then (grows_class rfl rfl fun _ => rfl) fun _ => closes_ret ?_
  simp [Target.site]

theorem valueOfCode_generated (valid : pool.Valid) (h : valueOfCode t pool = .ok code later) :
    later.Valid ∧ pool.Extends later ∧ code.maxLocals = 1 ∧ Generated (t.site false t.selfType) later code := by
  refine method_generated (closes_bind grows_classRef fun self => ?_) valid h
  refine closes_bind (grows_emitConstant self 1) fun _ => closes_bind (grows_load _ _) fun _ => ?_
  refine closes_then (grows_invoke _ (by simp) (fun _ _ _ valid h => Pooled.methodRef_returns valid h)
    fun _ _ ref => .foreign (by simp) (.inl (by simp)) (by simp [constructorName]) ref) fun _ => ?_
  refine closes_bind (grows_fixed rfl rfl rfl) fun _ => closes_ret ?_
  simp [Target.site, Target.selfType]

theorem constructorCode_generated (valid : pool.Valid) (h : constructorCode pool = .ok code later) :
    later.Valid ∧ pool.Extends later ∧ code.maxLocals = 3 ∧ Generated (t.site false .void) later code := by
  refine method_generated ?_ valid h
  refine closes_bind (grows_load _ _) fun _ => closes_bind (grows_load _ _) fun _ =>
    closes_bind (grows_load _ _) fun _ => ?_
  exact closes_then (grows_invoke _ (by simp) (fun _ _ _ valid h => Pooled.methodRef_returns valid h)
    fun _ _ ref => .foreign (by simp) (.inl (by simp)) (fun _ => rfl) ref) fun _ => closes_ret (by simp [Target.site])

def constructing (t : Target) (value : String) (ordinal : Nat) : List Operation :=
  [.create t.self, .dup, .pushText value, .pushInt ordinal,
    .special t.self constructorName constructorType.text,
    .access .putstatic t.self value t.selfType.text]

def collecting (t : Target) (value : String) (ordinal : Nat) : List Operation :=
  [.dup, .pushInt ordinal, .access .getstatic t.self value t.selfType.text, .storeElement]

def initializing (t : Target) (values : List String) : List Operation :=
  values.zipIdx.flatMap (fun (value, ordinal) => constructing t value ordinal) ++
    [.pushInt values.length, .createArray t.self] ++
    values.zipIdx.flatMap (fun (value, ordinal) => collecting t value ordinal) ++
    [.access .putstatic t.self valuesField t.selfType.arrayOf.text, .leave]

structure Knows (t : Target) (own init : UInt16) (pool : ConstantPool) : Prop where
  named : pool.className? own = some t.self
  makes : pool.RefersTo .methodRef init t.self constructorName constructorType.text

theorem Knows.mono (knows : Knows t self init pool) (grown : pool.Extends later) :
    Knows t self init later :=
  ⟨grown.className? knows.named, grown.refersTo knows.makes⟩

open Workspace (Spells)

section StaticInit

variable {start : ConstantPool} {operations : List Operation} {peak : Nat} {later : Workspace}
  (shape : t.decl.shape = .enumeration values)
include shape

theorem construct_spells {field : UInt16} {value : String} {ordinal : Nat}
    (spells : w.Spells (t.site true .void) start operations 0 peak) (knows : Knows t self init w.pool)
    (member : value ∈ values) (h : construct t self init value ordinal w = .ok field later) :
    (∃ peak, later.Spells (t.site true .void) start (operations ++ constructing t value ordinal) 0 peak) ∧
      w.pool.Extends later.pool ∧ later.pool.RefersTo .fieldRef field t.self value t.selfType.text := by
  simp only [construct, bind_returns, pooled_returns, pure_returns] at h
  obtain ⟨_, _, ⟨pool1, added1, rfl⟩, _, w2, run2, _, w3, run3, name, _, ⟨pool4, added4, rfl⟩, _, w5, run5, _, w6,
    run6, _, w7, run7, _, _, run8, rfl, rfl⟩ := h
  obtain ⟨valid1, grown1, ref⟩ := Pooled.fieldRef_returns spells.valid added1
  obtain ⟨named, makes⟩ := knows.mono grown1
  have made1 := (spells.added valid1 grown1).rebased
  have made2 := made1.word rfl rfl rfl (.newValue rfl shape named) (Item.does_create named) rfl run2
  have made3 := made2.bare rfl rfl rfl rfl rfl run3
  obtain ⟨valid4, grown4, text, known, spelled⟩ := Pooled.string_returns made3.valid added4
  have made5 := (made3.added valid4 grown4).constant (Item.does_text known spelled) run5
  have made6 := made5.pushInt run6
  have makes6 := made6.grown.refersTo makes
  have made7 := made6.special (.makeValue shape makes6) makes6 run7
  have ref7 := made7.grown.refersTo ref
  have made8 := made7.access (by simp) (.value (by simp) (fun _ => rfl) shape (.inl ⟨member, rfl⟩) ref7) ref7 rfl run8
  have whole := made8.since (spells.grown.trans grown1)
  simp only [List.append_assoc] at whole
  exact ⟨⟨_, whole⟩, grown1.trans made8.grown, made8.grown.refersTo ref⟩

theorem constructAll_spells {fields : List UInt16}
    (spells : w.Spells (t.site true .void) start operations 0 peak) (knows : Knows t self init w.pool)
    (members : ∀ pair ∈ pairs, pair.1 ∈ values)
    (h : (pairs.mapM fun (value, ordinal) => construct t self init value ordinal : Gen (List UInt16)) w =
      .ok fields later) :
    (∃ peak, later.Spells (t.site true .void) start
      (operations ++ pairs.flatMap fun (value, ordinal) => constructing t value ordinal) 0 peak) ∧
      w.pool.Extends later.pool ∧ List.Forall₂ (fun pair field => pair.1 ∈ values ∧
        later.pool.RefersTo .fieldRef field t.self pair.1 t.selfType.text) pairs fields := by
  induction pairs generalizing w operations peak fields with
  | nil =>
    simp only [List.mapM_nil, pure_returns] at h
    obtain ⟨rfl, rfl⟩ := h
    exact ⟨⟨peak, by simpa using spells⟩, .refl _, .nil⟩
  | cons pair rest ih =>
    simp only [List.mapM_cons, bind_returns, pure_returns] at h
    obtain ⟨field, mid, run, others, final, h, rfl, rfl⟩ := h
    obtain ⟨member, members⟩ := List.forall_mem_cons.1 members
    obtain ⟨⟨_, made⟩, grown, ref⟩ := construct_spells shape spells knows member run
    obtain ⟨⟨peak, made'⟩, grown', refs⟩ := ih made (knows.mono grown) members h
    exact ⟨⟨peak, by simpa using made'⟩, grown.trans grown', .cons ⟨member, grown'.refersTo ref⟩ refs⟩

theorem collectAll_spells {fields : List (UInt16 × Nat)} (spells : w.Spells (t.site true .void) start operations 1 peak)
    (refs : List.Forall₂ (fun pair field => pair.2 = field.2 ∧ pair.1 ∈ values ∧
      start.RefersTo .fieldRef field.1 t.self pair.1 t.selfType.text) pairs fields)
    (h : (fields.forM fun (field, ordinal) => collect field ordinal : Gen Unit) w = .ok u later) :
    ∃ peak, later.Spells (t.site true .void) start
      (operations ++ pairs.flatMap fun (value, ordinal) => collecting t value ordinal) 1 peak := by
  induction refs generalizing w operations peak with
  | nil =>
    obtain ⟨-, rfl⟩ := pure_returns.1 h
    exact ⟨peak, by simpa using spells⟩
  | @cons pair field _ _ first rest ih =>
    obtain ⟨_, mid, run, h⟩ := bind_returns.1 h
    obtain ⟨same, member, ref⟩ := first
    simp only [collect, bind_returns] at run
    obtain ⟨_, w1, run1, _, w2, run2, _, w3, run3, run4⟩ := run
    have made2 := (spells.bare rfl rfl rfl rfl rfl run1).pushInt run2
    have ref2 := made2.grown.refersTo ref
    have made3 := made2.access (by simp) (.value (by simp) (fun _ => rfl) shape (.inl ⟨member, rfl⟩) ref2) ref2 rfl run3
    have made4 := made3.bare rfl rfl rfl rfl rfl run4
    obtain ⟨peak, made⟩ := ih made4 h
    exact ⟨peak, by simpa [collecting, same] using made⟩

omit shape in
theorem forall₂_zipIdx {α β : Type} {R : α → β → Prop} {xs : List α} {ys : List β} {n : Nat}
    (related : List.Forall₂ (fun x y => R x.1 y) (xs.zipIdx n) ys) :
    List.Forall₂ (fun x y => x.2 = y.2 ∧ R x.1 y.1) (xs.zipIdx n) (ys.zipIdx n) := by
  induction xs generalizing n ys with
  | nil =>
    cases related
    exact .nil
  | cons x xs ih =>
    cases related with
    | cons first rest => exact .cons ⟨rfl, first⟩ (ih rest)

theorem staticInitCode_spells {later : ConstantPool} (valid : pool.Valid)
    (h : staticInitCode t values pool = .ok code later) :
    later.Valid ∧ pool.Extends later ∧ code.maxLocals = 0 ∧ Generated (t.site true .void) later code ∧
      ∃ peak, code.Spelled later (initializing t values) peak := by
  simp only [staticInitCode, Gen.method, Gen.run, Lower.run_returns, unlocated_returns, bind_returns,
    pooled_returns] at h
  obtain ⟨_, ⟨_, _, ⟨self, _, ⟨pool1, added1, rfl⟩, init, _, ⟨pool2, added2, rfl⟩, fields, w3, run3, _, w4, run4, _,
    w5, run5, _, w6, run6, all, _, ⟨pool7, added7, rfl⟩, _, w8, run8, ret⟩, finish⟩, rfl⟩ := h
  obtain ⟨valid1, grown1, named⟩ := Pooled.classRef_returns valid added1
  obtain ⟨valid2, grown2, makes⟩ := Pooled.methodRef_returns valid1 added2
  have made0 : Spells (t.site true .void) pool [] 0 0 { pool } := .empty valid
  have made2 := (made0.added valid1 grown1).added valid2 grown2
  obtain ⟨⟨_, made3⟩, grown3, refs⟩ := constructAll_spells shape made2 ⟨grown2.className? named, makes⟩
    (fun pair member => List.fst_mem_of_mem_zipIdx member) run3
  have made4 := made3.rebased.pushInt run4
  have named4 := ((grown2.trans grown3).trans made4.grown).className? named
  have made5 := made4.word rfl rfl rfl (.plain rfl) (Item.does_createArray named4) rfl run5
  have listed := forall₂_zipIdx (R := fun value field => value ∈ values ∧
    w3.pool.RefersTo .fieldRef field t.self value t.selfType.text) refs
  obtain ⟨_, made6⟩ := collectAll_spells shape made5 listed run6
  obtain ⟨valid7, grown7, ref7⟩ := Pooled.fieldRef_returns made6.valid added7
  have made8 := (made6.added valid7 grown7).access (by simp)
    (.value (by simp) (fun _ => rfl) shape (.inr ⟨rfl, rfl⟩) ref7) ref7 rfl run8
  obtain ⟨valid', grown, locals, generated, spelled⟩ := (made8.since made3.grown).closes rfl ret finish
  have count : fields.length = values.length := by simpa using refs.length_eq.symm
  exact ⟨valid', grown, locals, generated, _, by simpa [initializing, count] using spelled⟩

end StaticInit

end Enumeration

namespace Record

open Gen

variable {t : Target} {components : List Field} {pool later : ConstantPool} {code : CodeAttribute}

def Declares (t : Target) (components : List Field) (c : Component) : Prop :=
  ∃ f ∈ components, c.name = f.name ∧ t.scope.descriptor f.type = .ok c.type

theorem emits_component {isInitializer : Bool} {returns : Descriptor} {c : Component}
    (isAccess : opcode ∈ [Opcode.getfield, .putfield])
    (sets : opcode = .putfield → isInitializer = true) (shape : t.decl.shape = .record components)
    (declares : Declares t components c) (ref : pool.RefersTo .fieldRef index t.self c.name c.type.text) :
    Emits (t.site isInitializer returns) pool (.plain opcode (Bytes.u2 index)) := by
  obtain ⟨f, member, named, typed⟩ := declares
  rw [named] at ref
  exact .component isAccess sets shape member typed ref

theorem accessorCode_generated (shape : t.decl.shape = .record components) {c : Component}
    (declares : Declares t components c) (valid : pool.Valid) (h : accessorCode t c pool = .ok code later) :
    later.Valid ∧ pool.Extends later ∧ code.maxLocals = 1 ∧ Generated (t.site false c.type) later code := by
  refine method_generated (closes_bind (grows_load _ _) fun _ => ?_) valid h
  exact closes_then (grows_field (by simp) fun _ _ ref => emits_component (by simp) nofun shape declares ref)
    fun _ => closes_ret rfl

def storing (t : Target) (slot : Nat) : List Component → List Operation
  | [] => []
  | c :: rest =>
    [.load .reference 0, .load c.type.kind slot, .access .putfield t.self c.name c.type.text] ++
      storing t (slot + c.type.width) rest

def constructing (t : Target) (components : List Component) : List Operation :=
  [.load .reference 0, .special "java/lang/Object" constructorName noArguments.text] ++ storing t 1 components ++
    [.leave]

theorem length_storing (slot : Nat) (cs : List Component) : (storing t slot cs).length = 3 * cs.length := by
  induction cs generalizing slot with
  | nil => rfl
  | cons c rest ih =>
    rw [storing, List.length_append, ih, List.length_cons]
    simp only [List.length_cons, List.length_nil]
    omega

def peakFrom (floor : Nat) (cs : List Component) : Nat :=
  (cs.map (1 + ·.type.width)).foldl max floor

theorem store_spells (shape : t.decl.shape = .record components) {start : ConstantPool} {operations : List Operation}
    {peak next : Nat} {later : Workspace} {cs : List Component} (declares : ∀ c ∈ cs, Declares t components c)
    (spells : w.Spells (t.site true .void) start operations 0 peak) (h : store t slot cs w = .ok next later) :
    later.Spells (t.site true .void) start (operations ++ storing t slot cs) 0 (peakFrom peak cs) ∧
      next = slot + Descriptor.totalWidth (cs.map (·.type)) ∧ ∃ indices, List.Forall₂ (fun c index =>
        later.pool.RefersTo .fieldRef index t.self c.name c.type.text) cs indices := by
  induction cs generalizing slot w operations peak start with
  | nil =>
    simp only [store, pure_returns] at h
    obtain ⟨rfl, rfl⟩ := h
    exact ⟨by simpa [storing, peakFrom] using spells, rfl, [], .nil⟩
  | cons c rest ih =>
    simp only [store, bind_returns, pooled_returns] at h
    obtain ⟨_, w1, run1, _, w2, run2, index, _, ⟨pool, added, rfl⟩, _, w3, run3, h⟩ := h
    obtain ⟨first, declares⟩ := List.forall_mem_cons.1 declares
    have made2 := (spells.load run1).load run2
    obtain ⟨valid, grown, ref⟩ := Pooled.fieldRef_returns made2.valid added
    have drained : 0 + Kind.reference.width + c.type.kind.width -
        (Emit.fieldEffect .putfield c.type.width).1 + (Emit.fieldEffect .putfield c.type.width).2 = 0 := by
      change 0 + 1 + c.type.width - (c.type.width + 1) + 0 = 0
      omega
    have made3 := (made2.added valid grown).rebased.access (by simp)
      (emits_component (by simp) (fun _ => rfl) shape first ref) ref drained run3
    have highest : max (max (max peak (0 + Kind.reference.width)) (0 + Kind.reference.width + c.type.kind.width)) 0 =
        max peak (1 + c.type.width) := by
      change max (max (max peak (0 + 1)) (0 + 1 + c.type.width)) 0 = _
      omega
    rw [highest] at made3
    obtain ⟨made, rfl, indices, refs⟩ := ih declares made3 h
    refine ⟨?_, ?_, index :: indices, .cons (made.grown.refersTo ref) refs⟩
    · simpa [storing, peakFrom] using made.since (made2.grown.trans grown)
    · simp [Descriptor.totalWidth]
      omega

theorem totalWidth_le (types : List Descriptor) : Descriptor.totalWidth types ≤ 2 * types.length := by
  induction types with
  | nil => exact Nat.le_refl _
  | cons d rest ih =>
    have : d.width ≤ 2 := by
      unfold Descriptor.width
      cases d.kind <;> decide
    simp only [Descriptor.totalWidth, List.foldr_cons, List.length_cons] at ih ⊢
    omega

theorem opening_spells {site : Site} {w1 w2 : Workspace} {v : Unit} (valid : pool.Valid)
    (load : emit (.load .reference 0) { pool } = .ok u w1)
    (added : Pooled.methodRef "java/lang/Object" constructorName noArguments.text w1.pool = .ok init later)
    (call : emit (.invoke .invokespecial init 0 0) { w1 with pool := later } = .ok v w2) :
    w2.Spells site pool [.load .reference 0, .special "java/lang/Object" constructorName noArguments.text] 0 1 := by
  have made0 : Workspace.Spells site pool [] 0 0 { pool } := .empty valid
  have made1 := made0.load load
  obtain ⟨valid2, grown, ref⟩ := Pooled.methodRef_returns made1.valid added
  exact (made1.added valid2 grown).special (.foreign (by simp) (.inl (by simp)) (fun _ => rfl) ref) ref call

theorem constructorCode_spells (shape : t.decl.shape = .record components) {cs : List Component}
    (declares : ∀ c ∈ cs, Declares t components c) (valid : pool.Valid)
    (h : constructorCode t cs pool = .ok code later) :
    later.Valid ∧ pool.Extends later ∧
      code.maxLocals.toNat = 1 + Descriptor.totalWidth (cs.map (·.type)) ∧
      Generated (t.site true .void) later code ∧ code.Spelled later (constructing t cs) (peakFrom 1 cs) := by
  simp only [constructorCode, Gen.run, Lower.run_returns, unlocated_returns, bind_returns, pooled_returns] at h
  obtain ⟨final, ⟨_, w1, run1, init, _, ⟨pool2, added, rfl⟩, _, w3, run3, maxLocals, w4, run4, _, w5, ret,
    finish⟩, rfl⟩ := h
  obtain ⟨made4, rfl, -⟩ := store_spells shape declares (opening_spells valid run1 added run3) run4
  obtain ⟨valid', grown, locals, generated, spelled⟩ := made4.closes rfl ret finish
  refine ⟨valid', grown, ?_, generated, spelled⟩
  -- The code has few enough bytes for few components, so the slots fit their sixteen bits.
  have few := spelled.few
  have widths := totalWidth_le (cs.map (·.type))
  simp only [List.length_append, length_storing, List.length_map] at few widths
  rw [locals, UInt16.toNat_ofNat_of_lt' (by simp only [UInt16.size]; omega)]

end Record

end Assembly

end ClassForge
