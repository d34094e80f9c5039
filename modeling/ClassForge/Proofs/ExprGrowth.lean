import ClassForge.Proofs.Composition

set_option autoImplicit false

namespace ClassForge

variable {opcode : Opcode} {width : Nat} {name owner : String} {w later : Workspace} {label : Label} {ctx : Context}
  {operands : List UInt8} {step : Pooled UInt16} {params : List Descriptor} {names : List String}

theorem Opcode.wellFormed_of_isBare (bare : opcode.isBare = true) : (Item.plain opcode []).WellFormed := by
  simp only [Opcode.isBare, Bool.and_eq_true, decide_eq_true_eq] at bare
  exact Item.wellFormed_of_length bare.2

namespace Item

theorem smallInt_plain (value : Int) : ∃ opcode operands, Item.smallInt value = .plain opcode operands ∧
    opcode ∈ [Opcode.iconst0 - 1, .iconst0, .iconst0 + 1, .iconst0 + 2, .iconst0 + 3, .iconst0 + 4, .iconst0 + 5,
      .bipush, .sipush] ∧ (Item.plain opcode operands).WellFormed := by
  unfold Item.smallInt
  split_ifs with tiny
  · obtain ⟨low, high⟩ := tiny
    refine ⟨_, _, rfl, ?_⟩
    interval_cases value <;> exact ⟨by decide, wellFormed_of_length rfl⟩
  · exact ⟨_, _, rfl, by decide, wellFormed_of_length rfl⟩
  · exact ⟨_, _, rfl, by decide, wellFormed_of_length rfl⟩

theorem constant_plain (index : UInt16) (width : Nat) :
    ∃ opcode operands, Item.constant index width = .plain opcode operands ∧ opcode.isIn .ldc .ldc2W = true ∧
      opcode.isFree = true ∧ (Item.plain opcode operands).WellFormed := by
  unfold Item.constant
  split_ifs <;> exact ⟨_, _, rfl, rfl, rfl, wellFormed_of_length rfl⟩

theorem access_plain (base shortBase : Opcode) (kind : Kind) (slot : Nat)
    (family : (base, shortBase) ∈ [(Opcode.iload, Opcode.iload0), (.istore, .istore0)]) :
    ∃ opcode operands, Item.access base shortBase kind slot = .plain opcode operands ∧ opcode.isFree = true ∧
      (Item.plain opcode operands).WellFormed := by
  unfold Item.access
  split_ifs with short byte
  · refine ⟨_, _, rfl, ?_, wellFormed_of_length ?_⟩
    all_goals fin_cases family <;> cases kind <;> interval_cases slot <;> rfl
  · refine ⟨_, _, rfl, ?_, wellFormed_of_length ?_⟩
    all_goals fin_cases family <;> cases kind <;> rfl
  · refine ⟨_, _, rfl, rfl, fun pc rest => ?_⟩
    fin_cases family <;> cases kind <;> rfl

theorem load_plain (kind : Kind) (slot : Nat) : ∃ opcode operands, Item.load kind slot = .plain opcode operands ∧
    opcode.isFree = true ∧ (Item.plain opcode operands).WellFormed :=
  access_plain .iload .iload0 kind slot (by simp)

theorem store_plain (kind : Kind) (slot : Nat) : ∃ opcode operands, Item.store kind slot = .plain opcode operands ∧
    opcode.isFree = true ∧ (Item.plain opcode operands).WellFormed :=
  access_plain .istore .istore0 kind slot (by simp)

end Item

namespace Emit

variable {index : UInt16}

theorem puts_op (length : Instruction.operandLength? 0 opcode [] = some 0) :
    (op opcode).Puts (.plain opcode []) () where
  formed := Item.wellFormed_of_length length
  returns b _ later h := by
    obtain ⟨pops, pushes, -, written⟩ := op_returns h
    exact ⟨rfl, pops, pushes, written⟩

theorem puts_fixed (length : Instruction.operandLength? 0 opcode [] = some operands.length)
    (goesOn : (Item.plain opcode operands).endsPath = false) :
    (whenAlive (fixed opcode operands)).Puts (.plain opcode operands) () where
  formed := Item.wellFormed_of_length length
  returns b _ later h := by
    obtain ⟨pops, pushes, -, written⟩ := whenAlive_fixed_returns goesOn h
    exact ⟨rfl, pops, pushes, written⟩

theorem puts_smallInt {value : Int} (small : -32768 ≤ value ∧ value ≤ 32767) :
    (smallInt value).Puts (.smallInt value) true where
  formed := by
    obtain ⟨_, _, same, -, formed⟩ := Item.smallInt_plain value
    exact same ▸ formed
  returns b _ later h := by
    rcases smallInt_returns h with ⟨-, -, large⟩ | ⟨found, -, written⟩
    · exact absurd small large
    · exact ⟨found, _, _, written⟩

theorem puts_constant : (constant index width).Puts (.constant index width) () where
  formed := by
    obtain ⟨_, _, same, -, -, formed⟩ := Item.constant_plain index width
    exact same ▸ formed
  returns b _ later h := ⟨rfl, _, _, constant_returns h⟩

theorem puts_load (kind : Kind) (slot : Nat) : (load kind slot).Puts (.load kind slot) () where
  formed := by
    obtain ⟨_, _, same, -, formed⟩ := Item.load_plain kind slot
    exact same ▸ formed
  returns b _ later h := ⟨rfl, _, _, load_returns h⟩

theorem puts_store (kind : Kind) (slot : Nat) : (store kind slot).Puts (.store kind slot) () where
  formed := by
    obtain ⟨_, _, same, -, formed⟩ := Item.store_plain kind slot
    exact same ▸ formed
  returns b _ later h := ⟨rfl, _, _, store_returns h⟩

theorem puts_jump (branch : opcode.isBranch = true) (target : Label) :
    (jump opcode target).Puts (.jump opcode target) () where
  formed := branch
  returns b _ later h := by
    obtain ⟨pops, pushes, -, written⟩ := jump_returns h
    exact ⟨rfl, pops, 0, written⟩

theorem puts_invoke {args returns : Nat}
    (isCall : opcode ∈ [Opcode.invokevirtual, .invokespecial, .invokestatic, .invokeinterface]) :
    (invoke opcode index args returns).Puts (.invoke opcode index args) () where
  formed := by fin_cases isCall <;> exact Item.wellFormed_of_length rfl
  returns b _ later h := by
    refine ⟨rfl, _, _, invoke_returns ?_ h⟩
    fin_cases isCall <;> rfl

theorem puts_field (isAccess : opcode ∈ [Opcode.getstatic, .putstatic, .getfield, .putfield]) :
    (field opcode index width).Puts (.plain opcode (Bytes.u2 index)) () where
  formed := by fin_cases isAccess <;> exact Item.wellFormed_of_length rfl
  returns b _ later h := by
    refine ⟨rfl, _, _, field_returns ?_ h⟩
    fin_cases isAccess <;> rfl

end Emit

theorem MethodTarget.isCall_invokeOpcode (m : MethodTarget) :
    m.invokeOpcode ∈ [Opcode.invokevirtual, .invokespecial, .invokestatic, .invokeinterface] := by
  unfold invokeOpcode
  split_ifs <;> simp

namespace Gen

variable {site : Site} {targets : List Label}

theorem grows_plain {α : Type} {step : Emit α} {a : α} (puts : step.Puts (.plain opcode operands) a)
    (free : opcode.isFree = true) : Grows site targets (emit step) :=
  (grows_emit puts fun _ => .plain free).more (List.nil_subset _)

theorem grows_op (bare : opcode.isBare = true) : Grows site targets (op opcode) := by
  simp only [Opcode.isBare, Bool.and_eq_true, decide_eq_true_eq] at bare
  exact grows_plain (Emit.puts_op bare.2) bare.1

theorem grows_fixed (free : opcode.isFree = true)
    (length : Instruction.operandLength? 0 opcode [] = some operands.length)
    (goesOn : (Item.plain opcode operands).endsPath = false) :
    Grows site targets (emit (Emit.whenAlive (Emit.fixed opcode operands))) :=
  grows_plain (Emit.puts_fixed length goesOn) free

theorem grows_smallInt {value : Int} : Grows site targets (emit (.smallInt value)) := by
  by_cases small : -32768 ≤ value ∧ value ≤ 32767
  · obtain ⟨opcode, operands, same, family, -⟩ := Item.smallInt_plain value
    refine grows_plain (same ▸ Emit.puts_smallInt small) ?_
    fin_cases family <;> rfl
  · intro w a later h valid _
    obtain ⟨code, run, rfl⟩ := emit_returns.1 h
    rcases Emit.smallInt_returns run with ⟨-, rfl, -⟩ | ⟨-, fits, -⟩
    · exact .refl valid
    · exact absurd fits small

theorem grows_emitConstant (index : UInt16) (width : Nat) : Grows site targets (emit (.constant index width)) := by
  obtain ⟨_, _, same, -, free, -⟩ := Item.constant_plain index width
  exact grows_plain (same ▸ Emit.puts_constant) free

theorem grows_constantFrom
    (added : ∀ pool index later, pool.Valid → step pool = .ok index later → later.Valid ∧ pool.Extends later) :
    Grows site targets (do emit (.constant (← pooled step) width)) :=
  moves_bind (grows_added added) fun index => grows_emitConstant index width

theorem grows_constant {constant : Constant} :
    Grows site targets (do emit (.constant (← pooled (.add constant)) width)) := by
  refine grows_constantFrom fun pool index later valid h => ?_
  obtain ⟨valid', grown, -⟩ := Pooled.add_returns valid h
  exact ⟨valid', grown⟩

theorem grows_pushInt (value : Int) : Grows site targets (pushInt value) := by
  refine moves_bind grows_smallInt fun found => ?_
  refine moves_ite (fun _ => moves_pure ()) fun _ => grows_constant

theorem grows_classRef : Grows site targets (pooled (.classRef name)) := by
  refine grows_added fun _ _ _ valid h => ?_
  obtain ⟨valid', grown, -⟩ := Pooled.classRef_returns valid h
  exact ⟨valid', grown⟩

theorem grows_class (free : opcode.isFree = true) (length : Instruction.operandLength? 0 opcode [] = some 2)
    (goesOn : ∀ operands, (Item.plain opcode operands).endsPath = false) :
    Grows site targets (do emit (.opWord opcode (← pooled (.classRef name)))) :=
  moves_bind grows_classRef fun _ => grows_fixed free length (goesOn _)

theorem grows_jump (branch : opcode.isBranch = true) (target : Label) :
    Grows site [target] (emit (.jump opcode target)) := by
  exact grows_emit (Emit.puts_jump branch target) fun _ => .jump opcode target

theorem grows_invoke {args returns : Nat} (known : ConstantPool → UInt16 → Prop)
    (isCall : opcode ∈ [Opcode.invokevirtual, .invokespecial, .invokestatic, .invokeinterface])
    (added : ∀ pool index later, pool.Valid → step pool = .ok index later →
      later.Valid ∧ pool.Extends later ∧ known later index)
    (emits : ∀ pool index, known pool index → Emits site pool (.invoke opcode index args)) :
    Grows site targets (do emit (.invoke opcode (← pooled step) args returns)) :=
  grows_pooled (fun index => .invoke opcode index args) _ added (fun _ => Emit.puts_invoke isCall) (fun _ => rfl) emits

theorem grows_construct (has : site.program.HasConstructor owner params) :
    Grows site targets (invokeMethod .invokespecial owner constructorName params .void) :=
  grows_invoke _ (by simp) (fun _ _ _ valid h => Pooled.methodRef_returns valid h) (fun _ _ ref => .construct has ref)

theorem grows_buildCall {returns : Descriptor} (named : name ≠ constructorName) :
    Grows site targets (invokeMethod .invokevirtual builder name params returns) :=
  grows_invoke _ (by simp) (fun _ _ _ valid h => Pooled.methodRef_returns valid h)
    (fun _ _ ref => .foreign (by simp) (.inl (by simp)) (fun same => absurd same named) ref)

theorem grows_new (can : owner = builder ∨ site.program.Instantiable owner) :
    Grows site targets (do emit (.opWord .new (← pooled (.classRef owner)))) :=
  grows_pooled (fun index => .plain .new (Bytes.u2 index)) _ (fun _ _ _ valid h => Pooled.classRef_returns valid h)
    (fun _ => Emit.puts_fixed rfl rfl) (fun _ => rfl) fun _ _ ref => .new can ref

theorem grows_invokeTarget {m : MethodTarget} (has : site.program.HasMethod m)
    (allowed : m.isPrivate = true → m.owner = site.self) : Grows site targets (invoke m) := by
  refine grows_invoke (fun pool index => pool.RefersTo
    (if m.onInterface then .interfaceMethodRef else .methodRef) index m.owner m.name m.descriptor.text)
    m.isCall_invokeOpcode (fun pool index later valid h => ?_) (fun _ _ ref => .call has allowed ref)
  split_ifs at h ⊢
  · exact Pooled.interfaceMethodRef_returns valid h
  · exact Pooled.methodRef_returns valid h

theorem grows_field {descriptor : String} (isAccess : opcode ∈ [Opcode.getstatic, .putstatic, .getfield, .putfield])
    (emits : ∀ (pool : ConstantPool) index, pool.RefersTo .fieldRef index owner name descriptor →
      Emits site pool (.plain opcode (Bytes.u2 index))) :
    Grows site targets (do emit (.field opcode (← pooled (.fieldRef owner name descriptor)) width)) :=
  grows_pooled (fun index => .plain opcode (Bytes.u2 index)) _
    (fun _ _ _ valid h => Pooled.fieldRef_returns valid h) (fun _ => Emit.puts_field isAccess) (fun _ => rfl) emits

theorem grows_load (kind : Kind) (slot : Nat) : Grows site targets (emit (.load kind slot)) := by
  obtain ⟨_, _, same, free, -⟩ := Item.load_plain kind slot
  exact grows_plain (same ▸ Emit.puts_load kind slot) free

theorem grows_store (kind : Kind) (slot : Nat) : Grows site targets (emit (.store kind slot)) := by
  obtain ⟨_, _, same, free, -⟩ := Item.store_plain kind slot
  exact grows_plain (same ▸ Emit.puts_store kind slot) free

theorem newLabel_run (h : emit .newLabel w = .ok label later) :
    label = ⟨w.code.labels.size⟩ ∧ later = { w with code := w.code.withLabel } := by
  simp only [Emit.newLabel, emit_returns, modifyGet_returns] at h
  obtain ⟨_, ⟨rfl, rfl⟩, rfl⟩ := h
  exact ⟨rfl, rfl⟩

theorem place_run {u : Unit}
    (h : emit (.place label) w = .ok u later) : later = { w with code := w.code.place label } := by
  simp only [Emit.place, emit_returns, modify_returns] at h
  obtain ⟨_, rfl, rfl⟩ := h
  rfl

theorem newLabel_grown (site : Site) (valid : w.pool.Valid) (h : emit .newLabel w = .ok label later) :
    (∀ fresh targets, Grown site fresh targets w later) ∧ later.code.Ready label ∧
      label.index = w.code.labels.size ∧ later.code.labels.size = w.code.labels.size + 1 := by
  obtain ⟨rfl, rfl⟩ := newLabel_run h
  exact ⟨fun fresh targets => ⟨⟨valid, .refl _, [], w.code.withLabel_advance fresh targets, by simp⟩, rfl⟩,
    w.code.withLabel_ready, rfl, w.code.size_withLabel⟩

theorem place_grown {u : Unit} {fresh : Nat} (valid : w.pool.Valid)
    (own : fresh ≤ label.index) (h : emit (.place label) w = .ok u later) :
    Grown site fresh targets w later := by
  obtain rfl := place_run h
  exact ⟨⟨valid, .refl _, [], w.code.place_advance label own, by simp⟩, rfl⟩

theorem grows_condition {jump : Bool → Label → Gen Unit}
    (grows : ∀ expected target, Grows site [target] (jump expected target)) : Grows site [] (condition jump) := by
  intro w a later h valid _
  simp only [condition, bind_returns, pure_returns] at h
  obtain ⟨otherwise, w1, run1, done, w2, run2, _, w3, run3, _, w4, run4, _, w5, run5, _, w6, run6, _,
    w7, run7, _, _, run8, rfl, rfl⟩ := h
  obtain ⟨grown1, ready, index, size1⟩ := newLabel_grown site valid run1
  obtain ⟨grown2, ready', index', size2⟩ := newLabel_grown site (grown1 0 []).valid run2
  have ready2 := (grown2 w2.code.labels.size []).ready (by omega) ready
  have grown3 := grows false otherwise _ _ _ run3 (grown2 0 []).valid (by simpa using ready2)
  have grown4 : Grown site w3.code.labels.size [] w3 w4 :=
    grows_op rfl _ _ _ run4 grown3.valid (by simp)
  have size3 := grown3.size
  have size4 := grown4.size
  have ready4 := grown4.ready (by omega) (grown3.ready (by omega) ready')
  have grown5 : Grown site w4.code.labels.size [done] w4 w5 :=
    grows_jump rfl done _ _ _ run5 grown4.valid (by simpa using ready4)
  have size5 := grown5.size
  have grown6 : Grown site w.code.labels.size [] w5 w6 := place_grown grown5.valid (by omega) run6
  have size6 := grown6.size
  have grown7 : Grown site w6.code.labels.size [] w6 w7 :=
    grows_op rfl _ _ _ run7 grown6.valid (by simp)
  have grown8 : Grown site w.code.labels.size [] w7 _ := place_grown grown7.valid (by omega) run8
  have start := ((grown1 w.code.labels.size []).trans (grown2 _ _)).trans (grown3.aside (by omega) (by omega))
  have middle := (start.trans (grown4.inside (by omega))).trans (grown5.aside (by omega) (by omega))
  exact ((middle.trans grown6).trans (grown7.inside (by omega))).trans grown8

theorem grows_skip {x : Label → Gen Unit} (each : ∀ label, Grows site (label :: targets) (x label)) :
    Grows site targets (do let skip ← emit .newLabel; x skip; emit (.place skip)) := by
  intro w a later h valid ready
  simp only [bind_returns] at h
  obtain ⟨skip, w1, run1, _, w2, run2, run3⟩ := h
  obtain ⟨grown1, ready1, index, size1⟩ := newLabel_grown site valid run1
  have ready2 : ∀ label ∈ skip :: targets, w1.code.Ready label := by
    refine List.forall_mem_cons.2 ⟨ready1, fun label target => ?_⟩
    exact (grown1 w.code.labels.size []).ready (ready label target).1 (ready label target)
  have grown2 := each skip _ _ _ run2 (grown1 0 []).valid ready2
  have grown3 : Grown site w.code.labels.size targets w2 later := place_grown grown2.valid (by omega) run3
  have middle : Grown site w.code.labels.size targets w1 w2 := by
    refine grown2.mono (by omega) fun label member old => ?_
    rcases List.mem_cons.1 member with rfl | member
    · omega
    · exact member
  exact ((grown1 _ _).trans middle).trans grown3

theorem Composed.grows {α : Type} {targets : List (Label × Label)} {does : α → Prop}
    {x x' : Gen α} (composed : Composed ctx targets names does x x') : Grows ctx.toSite (targets.map (·.1)) x := by
  induction composed with
  | done => exact moves_pure _
  | failed cause => exact moves_throw cause
  | after first _ moves second => exact moves_bind_of moves fun _ a _ run => second a (first.returns run)
  | checked _ second => exact moves_check second
  | more _ known _ _ inner => exact inner.more (List.map_subset _ known)
  | leaf leaf =>
    cases leaf with
    | op quiet => exact grows_op (Opcode.bare_of_isQuiet quiet).1
    | smallInt value => exact grows_smallInt
    | newArray code => exact grows_fixed rfl rfl rfl
    | own | bound => exact grows_load _ _
    | constant request free width =>
      refine grows_constantFrom fun pool index later valid h => ?_
      obtain ⟨valid', grown, -⟩ := PoolRequest.step_returns valid h
      exact ⟨valid', grown⟩
    | ofClass family name => fin_cases family <;> exact grows_class rfl rfl fun _ => rfl
    | new can => exact grows_new can
    | read use reads =>
      subst reads
      exact grows_field (by split_ifs <;> simp) fun pool index ref => .read use.has use.allowed ref
    | call may => exact grows_invokeTarget may.has may.allowed
    | construct typed found => exact grows_construct (Program.constructorFor_found found).1
    | build =>
      exact grows_invoke _ (by simp) (fun _ _ _ valid h => Pooled.methodRef_returns valid h)
        (fun _ _ ref => .foreign (by simp) (.inl (by simp)) (fun _ => rfl) ref)
    | append | text => exact grows_buildCall (by decide)
  | jump branch label label' => exact grows_jump branch label
  | condition _ each => exact grows_condition fun expected target => each expected target target
  | skip _ each => exact grows_skip fun label => each label label

theorem grows_place {p : Place} (reached : ctx.Reaches name p) : Grows ctx.toSite targets (place p) := by
  have made : Made ctx [] [name] Any (place p) := made_place reached
  exact made.grows.more (List.nil_subset _)

end Gen

namespace ExprCode

structure Grows (site : Site) (code : ExprCode) : Prop where
  value : ∀ expected, Gen.Grows site [] (code.value expected)
  jump : ∀ expected target, Gen.Grows site [target] (code.jump expected target)
  append : Gen.Grows site [] code.append

theorem Composed.grows {code : ExprCode} {type : Option Descriptor → Except Cause Descriptor}
    (composed : code.Composed ctx names type) : code.Grows ctx.toSite where
  value expected := (composed.value expected).grows
  jump expected target := (composed.jump expected target target).grows
  append := composed.append.grows

end ExprCode

theorem Expr.codeAs_grows (ctx : Context) (tree : Expr) (expected : Descriptor) :
    Gen.Grows ctx.toSite [] (tree.codeAs ctx expected) :=
  (tree.codeAs_made ctx expected).grows

end ClassForge
