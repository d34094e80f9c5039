import ClassForge.Proofs.SameCode

set_option autoImplicit false

namespace ClassForge

open CodeBuffer (arrival position)

section Meanings

def ConstantPool.referent? (pool : ConstantPool) (index : UInt16) : Option PoolRequest :=
  match pool.get? index with
  | none => none
  | some (.utf8 text) => some (.utf8 text)
  | some (.integer value) => some (.integer value)
  | some (.float bits) => some (.float bits)
  | some (.long value) => some (.long value)
  | some (.double bits) => some (.double bits)
  | some (.classRef name) => (pool.utf8? name).map .classRef
  | some (.string text) => (pool.utf8? text).map .string
  | some (.nameAndType name descriptor) => do
    return .nameAndType (← pool.utf8? name) (← pool.utf8? descriptor)
  | some (.fieldRef ..) => (pool.memberRef? index).map fun (owner, name, type) => .fieldRef owner name type
  | some (.methodRef ..) => (pool.memberRef? index).map fun (owner, name, type) => .methodRef owner name type
  | some (.interfaceMethodRef ..) =>
    (pool.memberRef? index).map fun (owner, name, type) => .interfaceMethodRef owner name type

theorem ConstantPool.referent_of_standsAt {pool : ConstantPool} {index : UInt16} {request : PoolRequest}
    (stands : request.StandsAt pool index) : pool.referent? index = some request := by
  cases request with
  | utf8 text =>
    have found := ConstantPool.utf8?_eq_some_iff.1 stands
    simp [referent?, found]
  | classRef name =>
    obtain ⟨i, found, named⟩ := ConstantPool.className?_eq_some_iff.1 stands
    simp [referent?, found, named]
  | string text =>
    obtain ⟨i, found, named⟩ := stands
    simp [referent?, found, named]
  | nameAndType name descriptor =>
    obtain ⟨n, d, found, named, typed⟩ := stands
    simp [referent?, found, named, typed]
  | fieldRef owner name descriptor | methodRef owner name descriptor | interfaceMethodRef owner name descriptor =>
    obtain ⟨⟨a, b, found⟩, names⟩ := stands
    simp [referent?, found, names]
  | _ =>
    have found : pool.get? index = some _ := stands
    simp [referent?, found]

-- The meaning of an instruction in a stretch of code whose instructions start at the given places, the last of
-- which is the end of the stretch.
def Instruction.meaning? (pool : ConstantPool) (places : List Nat) (i : Instruction) : Option Meaning :=
  if i.opcode.isBranch then do
    let target ← i.branchTarget?
    return .jump i.opcode (← places.idxOf? target)
  else if i.opcode.isIn .ldc .ldc2W then do
    let (index, isWide) ← i.constant?
    return .constant (← pool.referent? index) isWide
  else if i.opcode.refers then do
    let index ← i.wordOperand?
    return .reference i.opcode (← pool.referent? index) (i.operands.drop 2)
  else if i.opcode.isAlone then some (.alone i.opcode i.operands)
  else none

def Instruction.meanings? (pool : ConstantPool) (code : List Instruction) (start stop : Nat) : Option (List Meaning) :=
  let stretch := code.filter fun i => start ≤ i.pc ∧ i.pc < stop
  stretch.mapM (meaning? pool (stretch.map (·.pc) ++ [stop]))

end Meanings

variable {items : List Item}

section Stretches

theorem CodeBuffer.Holds.swap {b later : CodeBuffer} {others rest : List Item} (holds : b.Holds items)
    (holds' : b.Holds others) (longer : later.Holds (others ++ rest)) : later.Holds (items ++ rest) := by
  refine ⟨?_, fun item member => ?_⟩
  · have made := longer.made
    rw [Item.layout_append, ← holds'.pc_eq] at made
    rw [Item.layout_append, ← holds.pc_eq]
    exact holds.made.trans (holds'.made.cut made)
  · rcases List.mem_append.1 member with old | new
    · exact holds.formed item old
    · exact longer.formed item (List.mem_append_right _ new)

namespace Opcode

theorem not_of_isAlone : ∀ op : Opcode, op.isAlone = true ∨ op.refers = true →
    op.isBranch = false ∧ op.isIn ldc ldc2W = false ∧ op.refers = !op.isAlone := by
  decide +kernel

end Opcode

namespace Item

def places : Nat → List Item → List Nat
  | pc, [] => [pc]
  | pc, item :: rest => pc :: places (pc + item.size pc) rest

theorem map_pc_layout (place : Label → Nat) (pc : Nat) (items : List Item) :
    (layout (fun pc item => [item.instruction place pc]) pc items).map (·.pc) ++ [endFrom pc items] =
      places pc items := by
  induction items generalizing pc with
  | nil => rfl
  | cons item rest ih => simp [layout, endFrom, places, ← ih, instruction]

theorem idxOf_places (pc : Nat) (items : List Item) {n : Nat} (le : n ≤ items.length) :
    (places pc items).idxOf? (endFrom pc (items.take n)) = some n := by
  induction items generalizing pc n with
  | nil =>
    obtain rfl : n = 0 := by simpa using le
    simp [places, endFrom, List.idxOf?_cons]
  | cons item rest ih =>
    cases n with
    | zero => simp [places, endFrom, List.idxOf?_cons]
    | succ n =>
      have after := le_endFrom (pc + item.size pc) (rest.take n)
      have size := size_pos pc item
      have apart : (pc == endFrom (pc + item.size pc) (rest.take n)) = false := by
        rw [beq_eq_false_iff_ne]
        omega
      rw [places, List.take_succ_cons, endFrom, List.idxOf?_cons, apart,
        ih (pc + item.size pc) (Nat.le_of_succ_le_succ le)]
      rfl

theorem filter_program (place : Label → Nat) (before items rest : List Item) :
    (program place (before ++ items ++ rest)).filter
        (fun i => endFrom 0 before ≤ i.pc ∧ i.pc < endFrom 0 (before ++ items)) =
      layout (fun pc item => [item.instruction place pc]) (endFrom 0 before) items := by
  have bounds {pc : Nat} {items : List Item} {i : Instruction}
      (member : i ∈ layout (fun pc item => [item.instruction place pc]) pc items) :
      pc ≤ i.pc ∧ i.pc < endFrom pc items := by
    rw [layout_eq_flatMap] at member
    obtain ⟨⟨at', item⟩, listed, member⟩ := List.mem_flatMap.1 member
    obtain rfl := List.mem_singleton.1 member
    have := bounds_of_mem_listing listed
    have := size_pos at' item
    change pc ≤ at' ∧ at' < endFrom pc items
    omega
  rw [program, layout_append, layout_append, endFrom_append, List.filter_append, List.filter_append,
    List.filter_eq_nil_iff.2, List.filter_eq_self.2, List.filter_eq_nil_iff.2, List.append_nil, List.nil_append]
  · intro i member
    have := (bounds member).1
    simp only [decide_eq_true_eq]
    omega
  · intro i member
    have := bounds member
    simp only [decide_eq_true_eq]
    omega
  · intro i member
    have := (bounds member).2
    simp only [decide_eq_true_eq]
    omega

end Item

theorem Item.mapM_layout {α β : Type} {R : Item → α → Prop} {f : Instruction → Option β} {g : α → β}
    {place : Label → Nat} {pc : Nat} {said : List α} (means : List.Forall₂ R items said)
    (each : ∀ at' item, (at', item) ∈ listing pc items → ∀ a ∈ said, R item a →
      f (item.instruction place at') = some (g a)) :
    (layout (fun pc item => [item.instruction place pc]) pc items).mapM f = some (said.map g) := by
  induction means generalizing pc with
  | nil => rfl
  | cons here rest ih =>
    have first := each pc _ (by simp [layout]) _ (by simp) here
    have more := ih fun at' item listed a member =>
      each at' item (List.mem_append_right _ listed) a (List.mem_cons_of_mem _ member)
    simp [layout, List.mapM_cons, first, more]

theorem Item.Means.meaning {base : Nat} {pool : ConstantPool} {item : Item} {m : Meaning}
    (means : item.Means base pool m) {place : Label → Nat} {pc : Nat} {places : List Nat} {goal : Nat → Nat}
    (near : ∀ opcode target, item = .jump opcode target →
      -32768 ≤ (place target : Int) - pc ∧ (place target : Int) - pc ≤ 32767)
    (goals : ∀ k, m.label? = some k → places.idxOf? (place ⟨base + k⟩) = some (goal k)) :
    (item.instruction place pc).meaning? pool places = some (m.settle goal) := by
  cases means with
  | @alone opcode operands isAlone =>
    obtain ⟨notBranch, notConstant, notRefers⟩ := Opcode.not_of_isAlone opcode (.inl isAlone)
    simp [Instruction.meaning?, Item.instruction, Item.opcode, Item.operandsWith, notBranch, notConstant, notRefers,
      isAlone, Meaning.settle]
  | @constant request index width stands =>
    have opcode : ((Item.constant index width).instruction place pc).opcode.isBranch = false ∧
        ((Item.constant index width).instruction place pc).opcode.isIn .ldc .ldc2W = true := by
      unfold Item.constant
      split_ifs <;> exact ⟨rfl, rfl⟩
    simp [Instruction.meaning?, opcode, Item.constant_constant, ConstantPool.referent_of_standsAt stands,
      Meaning.settle]
  | @reference request opcode index rest refers stands =>
    obtain ⟨notBranch, notConstant, -⟩ := Opcode.not_of_isAlone opcode (.inr refers)
    have word : ({ pc, opcode, operands := Bytes.u2 index ++ rest } : Instruction).wordOperand? = some index :=
      Instruction.wordOperand_u2 index rest
    have cut : (Bytes.u2 index ++ rest).drop 2 = rest := rfl
    simp [Instruction.meaning?, Item.instruction, Item.opcode, Item.operandsWith, notBranch, notConstant, refers,
      word, cut, ConstantPool.referent_of_standsAt stands, Meaning.settle]
  | @jump opcode label branch =>
    obtain ⟨low, high⟩ := near opcode _ rfl
    have same : ((Item.jump opcode ⟨base + label⟩).instruction place pc).opcode = opcode := rfl
    simp [Instruction.meaning?, same, branch, Item.branchTarget_jump branch low high, goals label rfl, Meaning.settle]

end Stretches

section Runs

variable {pair : Pairing} {site : Site} {live : Nat → Prop} {arguments : List Expr}

def Script.start (alive : Bool) : Script :=
  { said := [], alive, labels := 0, arrived := fun _ => false, placed := fun _ => none }

theorem Enacts.start {w : Workspace} (valid : w.pool.Valid) : Enacts w.code (.start w.code.alive) [] w where
  valid := valid
  alive := rfl
  size := rfl
  arrived k := by simp [arrival, Script.start]
  means := .nil
  holds := by simp
  pc := rfl
  known := by simp [Script.start]
  placed k := by simp [position, Script.start]
  within := by simp [Script.start]

theorem Pairing.Abreast.start {w w' : Workspace} (names : List String) (valid : w.pool.Valid)
    (valid' : w'.pool.Valid) (agree : w.slots.Agree w'.slots names) (alive : w'.code.alive = w.code.alive) :
    Pairing.Abreast ⟨w.code, w'.code, names⟩ (.start w.code.alive) w w' :=
  ⟨agree, ⟨[], .start valid⟩, [], alive ▸ .start valid'⟩

theorem Gen.repeats_within {α : Type} {x : Context → Gen α}
    (same : ∀ slots slots' : Slots, slots.Agree slots' pair.names → x ⟨site, slots⟩ = x ⟨site, slots'⟩)
    (each : ∀ ctx, Twice pair [] live (x ctx)) : Twice pair [] live (site.within x) := by
  intro s w w' a a' v v' abreast known h h'
  rw [Site.within_returns] at h h'
  rw [← same _ _ abreast.agree] at h'
  exact each _ abreast known h h'

theorem Gen.repeats_located {α : Type} {x : Gen α} {location : Location} (repeats : Twice pair [] live x) :
    Twice pair [] live (x.located location) := by
  intro s w w' a a' v v' abreast known h h'
  exact repeats abreast known (located_returns.1 h) (located_returns.1 h')

theorem Gen.repeats_superCall (superclass : String)
    (names : Expr.allNames arguments ⊆ pair.names) : Twice pair [] live (superCall site superclass arguments) := by
  refine repeats_bind (repeats_load _ _) fun _ => repeats_within (fun slots slots' agree => ?_) fun ctx => ?_
  · have alike := (Context.Alike.of_agree site agree).mono names
    simp only [Expr.typesIn_alike alike, Expr.argCodes_alike alike]
  · refine repeats_check fun types _ => repeats_check fun params _ => ?_
    exact repeats_bind ((ExprCode.made_all (Expr.argCodes_composed ctx arguments) params).repeats (by simp)) fun _ =>
      repeats_call (.methodRef superclass _ _) _ _ (by simp)

theorem Gen.superCall_alive {superclass : String} {w later : Workspace} {u : Unit}
    (valid : w.pool.Valid) (alive : w.code.alive = true)
    (h : superCall site superclass arguments w = .ok u later) : later.code.alive = true := by
  -- The run stands beside itself, so the only thing to learn is that it does not stop.
  have abreast := Pairing.Abreast.start (Expr.allNames arguments) valid valid (fun _ _ => rfl) rfl
  obtain ⟨-, s, ⟨-, ⟨_, enacts⟩, -⟩, -, steady⟩ :=
    (repeats_superCall superclass (List.Subset.refl _) : Twice _ [] (fun _ => False) _) abreast (by simp) h h
  rw [enacts.alive]
  exact (steady (.inl alive)).resolve_right (by simp)

def Field.initNames (fields : List Field) : List String :=
  fields.flatMap fun field => (field.init.map Expr.names).getD []

theorem Field.repeats_lowerInits {fields : List Field} (names : Field.initNames fields ⊆ pair.names) :
    Gen.Twice pair [] live (Field.lowerInits site fields) := by
  induction fields with
  | nil => exact Gen.repeats_pure ()
  | cons field rest ih =>
    rw [initNames, List.flatMap_cons, List.append_subset] at names
    refine Gen.repeats_bind (Gen.repeats_located ?_) fun _ => ih names.2
    unfold lowerInits.lowerInit
    cases init : field.init with
    | none => exact Gen.repeats_pure _
    | some value =>
      have names : value.names ⊆ pair.names := by simpa [init] using names.1
      refine Gen.repeats_check fun d _ => ?_
      have rest (u : Unit) : Gen.Twice pair [] live (do
          site.within fun ctx => value.codeAs ctx d
          let index ← Gen.pooled (.fieldRef site.self field.name d.text)
          Gen.emit (.field (if field.modifier.has .static then .putstatic else .putfield) index d.width)) := by
        refine Gen.repeats_bind (Gen.repeats_within (fun slots slots' agree => ?_) fun ctx => ?_) fun _ =>
          Gen.repeats_field _ _ _ _ (by split_ifs <;> simp)
        · exact (Expr.codeAs_alike ((Context.Alike.of_agree site agree).mono names) d).symm
        · exact (value.codeAs_made ctx d).repeats (by simp)
      exact Gen.repeats_ite (fun _ => Gen.repeats_bind (Gen.repeats_load _ _) rest) fun _ => rest ()

end Runs

namespace Program

variable {program : Program} {d : Decl} {pool later : ConstantPool} {c : Constructor} {defaultSuperclass : String}
  {code : CodeAttribute} {body : ClassBody}

-- Where the code of the field initializers starts and stops in the code of a constructor.
def initializerBounds (program : Program) (d : Decl) (c : Constructor) (defaultSuperclass : String) :
    Build (Nat × Nat) := do
  match d.shape with
  | .plainClass body =>
    let here := d.locationAt c.line
    let slots ← Build.check (located here ((program.scopeOf d).paramSlots false c.params))
    let superclass ← Build.check (located here (
      match body.superclass with
      | some t => (program.scopeOf d).internalName t
      | none => .ok defaultSuperclass))
    Lower.run slots do
      let arguments := (c.superCall.map (·.arguments)).getD []
      (Gen.superCall (program.constructorSite d) superclass arguments).located here
      let start := (← get).code.pc
      Field.lowerInits (program.constructorSite d) (body.fields.filter (fun f => ¬ f.modifier.has .static))
      return (start, (← get).code.pc)
  | _ => throw { cause := .lowering (.noConstructors d.name) }

def initializerCode? (program : Program) (d : Decl) (c : Constructor) (defaultSuperclass : String)
    (pool : ConstantPool) : Option (List Meaning) :=
  match program.constructorCode d c defaultSuperclass pool, program.initializerBounds d c defaultSuperclass pool with
  | .ok code later, .ok (start, stop) _ =>
    match Instruction.decode code.code with
    | .ok instructions => Instruction.meanings? later instructions start stop
    | .error _ => none
  | _, _ => none

def parameter? (program : Program) (d : Decl) (c : Constructor) (name : String) : Option Binding :=
  ((program.scopeOf d).paramSlots false c.params).toOption.bind (·.lookup? name)

structure InitializerRun (program : Program) (d : Decl) (c : Constructor) (defaultSuperclass : String)
    (pool : ConstantPool) (body : ClassBody) (code : CodeAttribute) (later : ConstantPool)
    (w w' : Workspace) (final : CodeBuffer) : Prop where
  valid : w.pool.Valid
  held : ∃ before more rest, w.code.Holds before ∧ w'.code.Holds (before ++ more) ∧ final.Holds (before ++ more ++ rest)
  alive : w.code.alive = true
  slots : (program.scopeOf d).paramSlots false c.params = .ok w.slots
  run : Field.lowerInits (program.constructorSite d) (body.fields.filter (fun f => ¬ f.modifier.has .static)) w =
    .ok () w'
  bounds : program.initializerBounds d c defaultSuperclass pool = .ok (w.code.pc, w'.code.pc) w'.pool
  grown : w'.pool.Extends later
  kept : ∀ label, label.index < w'.code.labels.size → position final.labels label = position w'.code.labels label
  finished : final.finish = .ok code.code

theorem initializerRun (shape : d.shape = .plainClass body) (valid : pool.Valid)
    (h : program.constructorCode d c defaultSuperclass pool = .ok code later) :
    ∃ w w' final, program.InitializerRun d c defaultSuperclass pool body code later w w' final := by
  simp only [constructorCode, shape, bind_returns, Build.check_returns, located_eq_ok, Lower.run_returns,
    Gen.located_returns] at h
  obtain ⟨slots, _, ⟨taken, rfl⟩, statements, _, ⟨-, rfl⟩, superclass, _, ⟨named, rfl⟩, last,
    ⟨_, w1, run1, _, w2, run2, _, w3, run3, h⟩, rfl⟩ := h
  have grown1 : Grown (program.constructorSite d) 0 [] { pool, slots } w1 :=
    Gen.grows_superCall superclass _ { pool, slots } () w1 run1 valid (by simp)
  have lowered2 : Lowered (program.constructorSite d) _ _ w1 w2 :=
    (Field.lowerInits_part rfl (setsUp_instances shape) grown1.valid run2).lowered
  have lowered3 : Lowered (program.constructorSite d) _ _ w2 w3 :=
    (Stmt.lowerAll_part statements lowered2.valid run3).lowered
  have ending := Lower.finish_run (fun _ _ _ _ => Gen.located_returns.1) h
  obtain ⟨w4, w5, -, growth4, -, -, finish, same⟩ := @Ending.closes (program.constructorSite d) _ _ _ ending
    lowered3.valid fun _ => rfl
  have rest : Growth (program.constructorSite d) w2.code.labels.size [] w2 w4 :=
    lowered3.toGrowth.trans (growth4.mono lowered3.size (by simp))
  obtain ⟨bytes, -, -, -, name, added⟩ := Gen.finish_run finish
  have bounds : program.initializerBounds d c defaultSuperclass pool = .ok (w1.code.pc, w2.code.pc) w2.pool := by
    simp only [initializerBounds, shape, bind_returns, Build.check_returns, located_eq_ok, Lower.run_returns,
      Gen.located_returns, get_returns, pure_returns]
    exact ⟨slots, pool, ⟨taken, rfl⟩, superclass, pool, ⟨named, rfl⟩, w2,
      ⟨(), w1, run1, w1, w1, ⟨rfl, rfl⟩, (), w2, run2, w2, w2, ⟨rfl, rfl⟩, rfl, rfl⟩, rfl⟩
  obtain ⟨before, advance1, -⟩ := grown1.code
  obtain ⟨more, advance2, -⟩ := lowered2.code
  obtain ⟨after, advance3, -⟩ := rest.code
  have laid1 := advance1.laid [] CodeBuffer.laid_empty
  have laid2 := advance2.laid _ laid1
  refine ⟨w1, w2, w4.code, grown1.valid,
    ⟨_, more, after, laid1.toHolds, laid2.toHolds, (advance3.laid _ laid2).toHolds⟩,
    Gen.superCall_alive valid rfl run1, ?_, run2, bounds, ?_, advance3.position, bytes⟩
  · rw [grown1.slots]
    exact taken
  · rw [← same]
    exact rest.pool.trans (Pooled.utf8_returns rest.valid added).2.1

theorem InitializerRun.stretch
    {w w' : Workspace} {final : CodeBuffer} {s : Script}
    (run : program.InitializerRun d c defaultSuperclass pool body code later w w' final)
    (h : program.constructorCode d c defaultSuperclass pool = .ok code later) (enacts : Enacts w.code s items w') :
    program.initializerCode? d c defaultSuperclass pool =
      some (s.said.map (Meaning.settle fun k => (s.placed k).getD 0)) := by
  obtain ⟨before, more, rest, first, second, third⟩ := run.held
  obtain ⟨decoded, -, -, resolved⟩ :=
    CodeBuffer.finish_returns ((enacts.holds before first).swap second third) run.finished
  have start : w.code.pc = Item.endFrom 0 before := first.pc_eq
  have stop : w'.code.pc = Item.endFrom 0 (before ++ items) := (enacts.holds before first).pc_eq
  simp only [initializerCode?, h, run.bounds, decoded, Instruction.meanings?]
  rw [start, stop, Item.filter_program, Item.endFrom_append, Item.map_pc_layout, ← start]
  refine Item.mapM_layout enacts.means fun at' item listed m among means => ?_
  obtain ⟨placed, near⟩ := resolved at' item (by
    rw [Item.listing, Item.layout_append, Item.layout_append, ← start]
    exact List.mem_append_left _ (List.mem_append_right _ listed))
  refine (means.mono run.grown).meaning near fun k target => ?_
  -- A label of the stretch stands in the finished code where it stood when the stretch was done.
  have known := enacts.size ▸ Nat.add_lt_add_left (enacts.known m among k target) w.code.labels.size
  have here := placed ⟨w.code.labels.size + k⟩ (by simp [means.leads.2, target])
  rw [CodeBuffer.Placed, run.kept _ known, enacts.placed] at here
  obtain ⟨n, stands, same⟩ := Option.map_eq_some_iff.1 here
  rw [← same, stands]
  exact Item.idxOf_places _ _ (enacts.within k n stands)

-- Constructors that bind the names in the field initializers alike hold the same code for these.
theorem constructorCode_initializers {body : ClassBody} {c c' : Constructor} {super super' : String}
    {pool' later' : ConstantPool} {code code' : CodeAttribute} (shape : d.shape = .plainClass body)
    (valid : pool.Valid) (valid' : pool'.Valid)
    (alike : ∀ name ∈ Field.initNames (body.fields.filter (fun f => ¬ f.modifier.has .static)),
      program.parameter? d c name = program.parameter? d c' name)
    (h : program.constructorCode d c super pool = .ok code later)
    (h' : program.constructorCode d c' super' pool' = .ok code' later') :
    ∃ meanings, program.initializerCode? d c super pool = some meanings ∧
      program.initializerCode? d c' super' pool' = some meanings := by
  obtain ⟨w, v, final, run⟩ := initializerRun shape valid h
  obtain ⟨w', v', final', run'⟩ := initializerRun shape valid' h'
  have agree : w.slots.Agree w'.slots (Field.initNames (body.fields.filter (fun f => ¬ f.modifier.has .static))) := by
    intro name member
    simpa [parameter?, run.slots, run'.slots, Except.toOption] using alike name member
  have abreast := Pairing.Abreast.start _ run.valid run'.valid agree (run'.alive.trans run.alive.symm)
  obtain ⟨-, s, ⟨-, ⟨_, first⟩, _, second⟩, -⟩ :=
    (Field.repeats_lowerInits (List.Subset.refl _) : Gen.Twice _ [] (fun _ => False) _) abreast
    (by simp) run.run run'.run
  exact ⟨_, run.stretch h first, run'.stretch h' second⟩

theorem constructorCode_initializers_jumps : ∃ program d body c c' meanings,
    parse ⟨"F.k"⟩ ("\n".intercalate ["class A \x7b", "int y = 7", "boolean b = y < 9 || y == 12",
      "init() \x7b", "\x7d", "init(long a, String s) \x7b", "y = 300", "\x7d", "\x7d"]) =
        .ok program ∧
      d ∈ program ∧ d.shape = .plainClass body ∧ body.constructors = [c, c'] ∧
      program.initializerCode? d c "java/lang/Object" {} = some meanings ∧
      program.initializerCode? d c' "java/lang/Object" (PoolRequest.run [.string "first"]) = some meanings := by
  generalize written : "\n".intercalate _ = source
  have run : ((parse ⟨"F.k"⟩ source).toOption.bind fun program => program.head?.bind fun d =>
      d.classBody?.bind fun body => body.constructors.head?.bind fun c => body.constructors.getLast?.bind fun c' =>
        ((constructorCode program d c "java/lang/Object").run' {}).bind fun _ =>
        ((constructorCode program d c' "java/lang/Object").run' (PoolRequest.run [.string "first"])).map fun _ =>
          decide ((∀ name ∈ Field.initNames (body.fields.filter (fun f => ¬ f.modifier.has .static)),
            parameter? program d c name = parameter? program d c' name) ∧ body.constructors.length = 2)) =
      some true := by
    rw [← written]
    decide +kernel
  simp only [Option.bind_eq_some_iff, Option.map_eq_some_iff, toOption_eq_some, run'_eq_some, decide_eq_true_eq] at run
  obtain ⟨program, parsed, d, first, body, shape, c, front, c', back, code, ⟨later, h⟩, code', ⟨later', h'⟩, alike,
    two⟩ := run
  have shape : d.shape = .plainClass body := by
    unfold Decl.classBody? at shape
    split at shape
    next kind => rw [kind, Option.some.inj shape]
    next => cases shape
  have listed : body.constructors = [c, c'] := by
    obtain ⟨a, b, both⟩ := List.length_eq_two.1 two
    simp only [both, List.head?_cons, List.getLast?_cons_cons, List.getLast?_singleton, Option.some.injEq] at front back
    rw [both, front, back]
  obtain ⟨meanings, same, same'⟩ := constructorCode_initializers shape ConstantPool.valid_empty
    (PoolRequest.run_tidy _).toValid alike h h'
  exact ⟨program, d, body, c, c', meanings, parsed, List.mem_of_head? first, shape, listed, same, same'⟩

-- A parameter hides the field that an initializer names: the second constructor reads slot 1.
example : (match parse ⟨"F.k"⟩ ("\n".intercalate ["class A \x7b", "int y = 1", "int x = y",
      "init() \x7b", "\x7d", "init(int y) \x7b", "\x7d", "\x7d"]) with
    | .ok [d] => (d.classBody?.map (·.constructors)).getD [] |>.map fun c =>
      match constructorCode [d] d c "java/lang/Object" {} with
      | .ok code _ => (code.code.drop 9).take 3
      | .error .. => []
    | _ => []) =
    [[0x2a, 0x2a, Opcode.getfield], [0x2a, Opcode.iload0 + 1, Opcode.putfield]] := by
  decide +kernel

end Program

end ClassForge
