import ClassForge.Proofs.BranchTyping

set_option autoImplicit false

namespace ClassForge

namespace Build

variable {α : Type} {pool later : ConstantPool} {a : α}

@[simp]
theorem check_returns {result : Except CompileError α} :
    Build.check result pool = .ok a later ↔ result = .ok a ∧ pool = later := by
  cases result <;> simp [Build.check]

@[simp]
theorem pooled_returns {step : Pooled α} : Build.pooled step pool = .ok a later ↔ step pool = .ok a later := by
  unfold Build.pooled
  split
  next h => simp [h]
  next h => simp [h]

@[simp]
theorem located_returns {location : Location} {step : Build α} :
    Build.located location step pool = .ok a later ↔ step pool = .ok a later := by
  unfold Build.located
  split
  next h => rw [h]
  next h => simp [h]

end Build

variable {slots : Slots} {pool : ConstantPool}

@[simp]
theorem Lower.run_returns {α : Type} {step : Lower α} {later : ConstantPool} {a : α} :
    Lower.run slots step pool = .ok a later ↔ ∃ w, step { pool, slots } = .ok a w ∧ w.pool = later := by
  unfold Lower.run
  split
  next h => simp [h]
  next h => simp [h]

variable {later w : Workspace} {code : CodeAttribute}

theorem Gen.finish_run {maxLocals : Nat} (h : Gen.finish maxLocals w = .ok code later) :
    w.code.finish = .ok code.code ∧ code.maxStack = UInt16.ofNat w.code.maxDepth ∧
      code.maxLocals = UInt16.ofNat maxLocals ∧ code.attributes = [] ∧
      ∃ name, Pooled.utf8 "Code" w.pool = .ok name later.pool := by
  simp only [Gen.finish, bind_returns, get_returns] at h
  obtain ⟨_, _, ⟨rfl, rfl⟩, h⟩ := h
  cases finished : w.code.finish with
  | error error => simp [finished] at h
  | ok bytes =>
    simp only [finished, bind_returns, pooled_returns, pure_returns] at h
    obtain ⟨name, _, ⟨pool, run, rfl⟩, rfl, rfl⟩ := h
    exact ⟨rfl, rfl, rfl, rfl, name, run⟩

structure Finished (site : Site) (pool : ConstantPool) (code : CodeAttribute) (b : CodeBuffer)
    (items : List Item) : Prop where
  laid : b.Laid items
  emits : ∀ item ∈ items, Emits site pool item
  ends : b.alive = false
  bytes : b.finish = .ok code.code
  plain : code.attributes = []

def Generated (site : Site) (pool : ConstantPool) (code : CodeAttribute) : Prop :=
  ∃ b items, Finished site pool code b items

variable {site : Site} {c : Constructor} {defaultSuperclass : String}

theorem Generated.mono {later : ConstantPool}
    (grown : pool.Extends later) (generated : Generated site pool code) : Generated site later code := by
  obtain ⟨b, items, finished⟩ := generated
  exact ⟨b, items, finished.laid, fun item member => (finished.emits item member).mono grown,
    finished.ends, finished.bytes, finished.plain⟩

theorem Gen.finish_generated {fresh maxLocals : Nat} {targets : List Label}
    (growth : Growth site fresh targets { pool, slots } w) (ends : w.code.alive = false)
    (h : Gen.finish maxLocals w = .ok code later) :
    later.pool.Valid ∧ pool.Extends later.pool ∧ Generated site later.pool code := by
  obtain ⟨bytes, -, -, plain, name, run⟩ := Gen.finish_run h
  obtain ⟨valid, grown, -⟩ := Pooled.utf8_returns growth.valid run
  obtain ⟨more, advance, emits⟩ := growth.code
  have laid := advance.laid [] CodeBuffer.laid_empty
  rw [List.nil_append] at laid
  exact ⟨valid, growth.pool.trans grown,
    w.code, more, laid, fun item member => (emits item member).mono grown, ends, bytes, plain⟩

-- The last steps of a body: a return where control gets to the end, and the finished code.
structure Ending (w : Workspace) (code : CodeAttribute) (pool : ConstantPool) : Prop where
  run : ∃ w₁ w₂, Gen.emit (.ret .void) w = .ok () w₁ ∧ Gen.finish w₁.slots.maxSize w₁ = .ok code w₂ ∧ w₂.pool = pool

theorem Lower.finish_run {wrap : Gen CodeAttribute → Lower CodeAttribute}
    (wraps : ∀ step w a later, wrap step w = .ok a later → step w = .ok a later)
    (h : Lower.finish wrap w = .ok code later) : Ending w code later.pool := by
  simp only [Lower.finish, bind_returns, get_returns, Gen.unlocated_returns] at h
  obtain ⟨_, w1, ret, _, _, ⟨rfl, rfl⟩, h⟩ := h
  exact ⟨w1, later, ret, wraps _ _ _ _ h, rfl⟩

theorem Ending.closes {site : Site} {later : ConstantPool} {w : Workspace} {code : CodeAttribute}
    (ending : Ending w code later) (valid : w.pool.Valid) (last : w.code.alive = true → site.returns = .void) :
    ∃ w1 w2, Gen.emit (.ret .void) w = .ok () w1 ∧ Growth site w.code.labels.size [] w w1 ∧
      w1.slots = w.slots ∧ w1.code.alive = false ∧ Gen.finish w1.slots.maxSize w1 = .ok code w2 ∧
      w2.pool = later := by
  obtain ⟨w1, w2, ret, finish, same⟩ := ending.run
  suffices growth : Growth site w.code.labels.size [] w w1 ∧ w1.slots = w.slots from
    ⟨w1, w2, ret, growth.1, growth.2, Gen.ret_dead ret, finish, same⟩
  cases alive : w.code.alive with
  | true =>
    have grown : Grown site w.code.labels.size [] w w1 :=
      Gen.grows_ret (by rw [last alive]; rfl) _ _ _ ret valid (by simp)
    exact ⟨grown.toGrowth, grown.slots⟩
  | false =>
    obtain rfl := Gen.ret_of_dead alive ret
    exact ⟨.refl valid, rfl⟩

theorem Ending.generated {fresh : Nat} {later : ConstantPool} (ending : Ending w code later)
    (lowered : Lowered site fresh [] { pool, slots } w) (small : slots.maxSize ≤ 65535)
    (last : w.code.alive = true → site.returns = .void) :
    later.Valid ∧ pool.Extends later ∧ Generated site later code ∧ slots.maxSize ≤ code.maxLocals.toNat := by
  obtain ⟨w1, w2, -, growth, same, dead, finish, rfl⟩ := ending.closes lowered.valid last
  have whole : Growth site 0 [] { pool, slots } w1 :=
    (lowered.toGrowth.mono (Nat.zero_le _) (by simp)).trans (growth.mono (Nat.zero_le _) (by simp))
  obtain ⟨-, -, locals, -⟩ := Gen.finish_run finish
  obtain ⟨valid, grown, generated⟩ := Gen.finish_generated whole dead finish
  refine ⟨valid, grown, generated, ?_⟩
  have bound : w.slots.maxSize ≤ 65535 := lowered.slots.small small
  rw [locals, same, UInt16.toNat_ofNat_of_lt' (Nat.lt_succ_of_le bound)]
  exact lowered.slots.grown

section Initial

variable {site : Site}

theorem Field.grows_lowerInit {field : Field} (outside : site.scope = site.fieldScope)
    (sets : site.SetsUp field) : Gen.Grows site [] (Field.lowerInits.lowerInit site field) := by
  unfold Field.lowerInits.lowerInit
  split
  next => exact moves_pure _
  next value _ =>
    refine Gen.moves_check fun d typed => ?_
    have rest (u : Unit) : Gen.Grows site [] (do
        site.within fun ctx => value.codeAs ctx d
        let index ← Gen.pooled (.fieldRef site.self field.name d.text)
        Gen.emit (.field (if field.modifier.has .static then .putstatic else .putfield) index d.width)) :=
      moves_bind (Gen.moves_within fun slots => value.codeAs_grows { toSite := site, slots } d)
        fun _ => Gen.grows_field (by split_ifs <;> simp) fun _ _ ref => .setUp sets (outside ▸ typed) ref
    exact moves_ite (fun _ => moves_bind (Gen.grows_load _ _) rest) fun _ => rest ()

theorem Field.lowerInits_part {fields : List Field} {u : Unit}
    (outside : site.scope = site.fieldScope) (sets : ∀ field ∈ fields, site.SetsUp field)
    (valid : w.pool.Valid) (h : Field.lowerInits site fields w = .ok u later) : Part site [] w later := by
  induction fields generalizing w with
  | nil =>
    simp only [Field.lowerInits, pure_returns] at h
    exact h.2 ▸ .refl valid (by simp)
  | cons field rest ih =>
    simp only [Field.lowerInits, bind_returns, Gen.located_returns] at h
    obtain ⟨_, mid, first, h⟩ := h
    obtain ⟨here, sets⟩ := List.forall_mem_cons.1 sets
    have piece := (Field.grows_lowerInit outside here).piece valid (by simp) first
    exact piece.toPart.trans (ih sets piece.valid_after h)

theorem Gen.grows_superCall (superclass : String) (arguments : List Expr) :
    Gen.Grows site [] (Gen.superCall site superclass arguments) := by
  refine moves_bind (grows_load _ _) fun _ => moves_within fun slots => ?_
  refine moves_check fun types _ => moves_check fun params found => ?_
  obtain ⟨has, -, -⟩ := Program.constructorFor_found found
  exact moves_bind (ExprCode.made_all (Expr.argCodes_composed _ arguments) params).grows fun _ =>
    grows_construct has

end Initial

theorem Stmt.void_of_alive {statements : List Stmt} {u : Unit}
    (valid : w.pool.Valid) (h : Stmt.lowerAll site statements w = .ok u later)
    (last : site.returns = .void ∨ Stmt.lastTerminates statements = true) (alive : later.code.alive = true) :
    site.returns = .void := by
  refine last.resolve_right fun terminates => ?_
  rw [Stmt.lowerAll_dead statements terminates valid h] at alive
  cases alive

namespace Program

variable {program : Program} {d : Decl} {pool later : ConstantPool}

def methodSite (program : Program) (d : Decl) (m : Method) (returns : Descriptor) : Site :=
  { scope := { program, decl := d, typeParams := m.typeParams }
    isStatic := m.modifier.has .static, isInitializer := false, returns }

def constructorSite (program : Program) (d : Decl) : Site :=
  { scope := program.scopeOf d, isStatic := false, isInitializer := true, returns := .void }

def staticInitSite (program : Program) (d : Decl) : Site :=
  { scope := program.scopeOf d, isStatic := true, isInitializer := true, returns := .void }

theorem setsUp_instances {body : ClassBody} (shape : d.shape = .plainClass body) :
    ∀ field ∈ body.fields.filter (fun f => ¬ f.modifier.has .static), (program.constructorSite d).SetsUp field := by
  intro field member
  obtain ⟨among, isInstance⟩ := List.mem_filter.1 member
  have own : field ∈ d.fields := by rwa [Decl.fields, shape]
  exact ⟨own, rfl, by simpa [constructorSite] using isInstance⟩

theorem setsUp_statics :
    ∀ field ∈ d.fields.filter (fun f => f.modifier.has .static && f.init.isSome),
      (program.staticInitSite d).SetsUp field := by
  intro field member
  obtain ⟨among, isStatic⟩ := List.mem_filter.1 member
  exact ⟨among, rfl, (Bool.and_eq_true_iff.1 isStatic).1⟩

theorem methodCode_run {m : Method} (h : program.methodCode d m pool = .ok code later) :
    ∃ lines statements slots returns w, m.body = some lines ∧
      Stmt.parseBody d.path lines = .ok statements ∧
      (program.methodSite d m returns).scope.paramSlots (m.modifier.has .static) m.params = .ok slots ∧
      (program.methodSite d m returns).scope.resultDescriptor m.returns = .ok returns ∧
      Stmt.lowerAll (program.methodSite d m returns) statements { pool, slots } = .ok () w ∧
      (returns = .void ∨ Stmt.lastTerminates statements = true) ∧ Ending w code later := by
  cases body : m.body with
  | none => simp [methodCode, body] at h
  | some lines =>
    simp only [methodCode, body, bind_returns, Build.check_returns, located_eq_ok, Lower.run_returns] at h
    obtain ⟨statements, _, ⟨parsed, rfl⟩, slots, _, ⟨taken, rfl⟩, returns, _, ⟨typed, rfl⟩, final, h, rfl⟩ := h
    obtain ⟨_, w, lowered, h⟩ := h
    rw [guard_returns] at h
    obtain ⟨last, h⟩ := h
    refine ⟨lines, statements, slots, returns, w, rfl, parsed, taken, typed, lowered, ?_, ?_⟩
    · by_contra both
      rw [not_or] at both
      exact last ⟨both.1, both.2⟩
    · exact Lower.finish_run (fun _ _ _ _ => Gen.located_returns.1) h

-- A block that the check for a missing return takes to end in every case leaves no path to its end, whatever
-- the buffer held before. So the code of a method with a result is that of its statements, and no return is
-- added.
theorem dead_after_terminates :
    (∀ site stmts w later, w.IsStage → Stmt.lowerAll site stmts w = .ok () later →
      later.IsStage ∧ (w.code.alive = true → Stmt.lastTerminates stmts = true → later.code.alive = false)) ∧
    ∀ (program : Program) (d : Decl) (m : Method) (pool : ConstantPool) (code : CodeAttribute) (later : ConstantPool),
      pool.Valid → program.methodCode d m pool = .ok code later →
        ∃ lines statements slots returns w final, m.body = some lines ∧ Stmt.parseBody d.path lines = .ok statements ∧
          (program.methodSite d m returns).scope.resultDescriptor m.returns = .ok returns ∧
          Stmt.lowerAll (program.methodSite d m returns) statements { pool, slots } = .ok () w ∧
          (returns ≠ .void → w.code.alive = false ∧ Gen.finish w.slots.maxSize w = .ok code final ∧
            final.pool = later) := by
  refine ⟨fun site stmts w later stage run => ⟨?_, fun _ terminates =>
    Stmt.lowerAll_dead stmts terminates stage.valid run⟩, fun program d m pool code later valid made => ?_⟩
  · have part : Part site [] w later := Stmt.lowerAll_part stmts stage.valid run
    exact ⟨part.valid_after, part.passed.laid stage.laid⟩
  · obtain ⟨lines, statements, slots, returns, w, body, parsed, -, typed, run, last, w₁, w₂, ret, finish, same⟩ :=
      methodCode_run made
    refine ⟨lines, statements, slots, returns, w, w₂, body, parsed, typed, run, fun valued => ?_⟩
    have dead := Stmt.lowerAll_dead statements (last.resolve_left valued) (w := { pool, slots }) valid run
    obtain rfl := Gen.ret_of_dead dead ret
    exact ⟨dead, finish, same⟩

theorem dead_after_terminates_loop : ∃ program d, parse ⟨"T.k"⟩ ("\n".intercalate ["class A \x7b",
      "int f(int n) \x7b", "while true \x7b", "n = n - 1", "\x7d", "\x7d", "int g(int n) \x7b",
      "switch n \x7b", "case 1 \x7b", "return 2", "\x7d", "default \x7b", "return n", "\x7d", "\x7d", "\x7d",
      "\x7d"]) = .ok program ∧ d ∈ program ∧ d.methods.length = 2 ∧ ∀ m ∈ d.methods, ∃ code pool, ∃ w : Workspace,
        program.methodCode d m {} = .ok code pool ∧ w.code.alive = false ∧ w.code.finish = .ok code.code := by
  generalize written : "\n".intercalate _ = source
  have run : ((parse ⟨"T.k"⟩ source).toOption.bind fun program => program.head?.map fun d =>
      decide (d.methods.length = 2 ∧ ∀ m ∈ d.methods, ((program.methodCode d m).run' {}).isSome ∧
        (Scope.mk program d m.typeParams).resultDescriptor m.returns = .ok .int)) = some true := by
    rw [← written]
    decide +kernel
  simp only [Option.bind_eq_some_iff, Option.map_eq_some_iff, toOption_eq_some, decide_eq_true_eq,
    Option.isSome_iff_exists, run'_eq_some] at run
  obtain ⟨program, parsed, d, first, two, each⟩ := run
  refine ⟨program, d, parsed, List.mem_of_head? first, two, fun m own => ?_⟩
  obtain ⟨⟨code, pool, made⟩, int⟩ := each m own
  obtain ⟨_, _, _, returns, w, final, -, -, typed, -, ends⟩ :=
    dead_after_terminates.2 program d m {} code pool ConstantPool.valid_empty made
  cases int.symm.trans typed
  obtain ⟨dead, finished, -⟩ := ends (by decide)
  exact ⟨code, pool, w, made, dead, (Gen.finish_run finished).1⟩

theorem constructorCode_run (h : program.constructorCode d c defaultSuperclass pool = .ok code later) :
    ∃ body slots statements superclass w1 w2 w3, d.shape = .plainClass body ∧
      (program.scopeOf d).paramSlots false c.params = .ok slots ∧
      Stmt.parseBody d.path c.body = .ok statements ∧
      Gen.superCall (program.constructorSite d) superclass ((c.superCall.map (·.arguments)).getD [])
        { pool, slots } = .ok () w1 ∧
      Field.lowerInits (program.constructorSite d) (body.fields.filter (fun f => ¬ f.modifier.has .static))
        w1 = .ok () w2 ∧
      Stmt.lowerAll (program.constructorSite d) statements w2 = .ok () w3 ∧ Ending w3 code later := by
  cases shape : d.shape with
  | plainClass body =>
    simp only [constructorCode, shape, bind_returns, Build.check_returns, located_eq_ok,
      Lower.run_returns, Gen.located_returns] at h
    obtain ⟨slots, _, ⟨taken, rfl⟩, statements, _, ⟨parsed, rfl⟩, superclass, _, ⟨-, rfl⟩, final,
      ⟨_, w1, run1, _, w2, run2, _, w3, run3, h⟩, rfl⟩ := h
    exact ⟨body, slots, statements, superclass, w1, w2, w3, rfl, taken, parsed, run1, run2, run3,
      Lower.finish_run (fun _ _ _ _ => Gen.located_returns.1) h⟩
  | _ => simp [constructorCode, shape] at h

theorem staticInitCode_none (h : program.staticInitCode d pool = .ok none later) : later = pool := by
  simp only [staticInitCode, ite_returns, pure_returns, bind_returns] at h
  rcases h with ⟨-, -, rfl⟩ | ⟨-, _, _, -, same, -⟩
  · rfl
  · cases same

theorem staticInitCode_run (h : program.staticInitCode d pool = .ok (some code) later) :
    ∃ body w, d.shape = .plainClass body ∧
      Field.lowerInits (program.staticInitSite d)
        (d.fields.filter (fun f => f.modifier.has .static && f.init.isSome))
        { pool } = .ok () w ∧ Ending w code later := by
  cases shape : d.shape with
  | plainClass body =>
    simp only [staticInitCode, Decl.classBody?, shape, Option.isNone_some, Bool.false_or, ite_returns,
      pure_returns, bind_returns, Lower.run_returns, reduceCtorEq, false_and, and_false, false_or] at h
    obtain ⟨-, code', _, ⟨final, ⟨_, w, run, h⟩, rfl⟩, same, rfl⟩ := h
    cases same
    exact ⟨body, w, rfl, run, Lower.finish_run (fun _ _ _ _ => Gen.unlocated_returns.1) h⟩
  | _ => simp [staticInitCode, Decl.classBody?, shape] at h

theorem methodCode_generated {m : Method} (valid : pool.Valid) (h : program.methodCode d m pool = .ok code later) :
    later.Valid ∧ pool.Extends later ∧ entrySize (m.modifier.has .static) m.params ≤ code.maxLocals.toNat ∧
      ∃ returns, (program.methodSite d m returns).scope.resultDescriptor m.returns = .ok returns ∧
        Generated (program.methodSite d m returns) later code := by
  obtain ⟨lines, statements, slots, returns, w, -, -, taken, typed, run, last, ending⟩ :=
    methodCode_run h
  have part := Stmt.lowerAll_part statements (w := { pool, slots }) valid run
  obtain ⟨-, size, small⟩ := Scope.paramSlots_size taken
  obtain ⟨valid', grown, generated, room⟩ := ending.generated part.lowered (by omega)
    (Stmt.void_of_alive part.valid run last)
  exact ⟨valid', grown, by omega, returns, typed, generated⟩

theorem constructorCode_generated
    (valid : pool.Valid) (h : program.constructorCode d c defaultSuperclass pool = .ok code later) :
    later.Valid ∧ pool.Extends later ∧ entrySize false c.params ≤ code.maxLocals.toNat ∧
      Generated (program.constructorSite d) later code := by
  obtain ⟨body, slots, statements, superclass, w1, w2, w3, shape, taken, -, run1, run2, run3, ending⟩ :=
    constructorCode_run h
  have calls := (Gen.grows_superCall superclass _).piece (w := { pool, slots }) valid (by simp) run1
  have inits := Field.lowerInits_part rfl (setsUp_instances shape) calls.valid_after run2
  have whole := (calls.toPart.trans inits).trans (Stmt.lowerAll_part statements inits.valid_after run3)
  obtain ⟨-, size, small⟩ := Scope.paramSlots_size taken
  obtain ⟨valid', grown, generated, room⟩ := ending.generated whole.lowered (by omega) fun _ => rfl
  exact ⟨valid', grown, by omega, generated⟩

theorem staticInitCode_generated (valid : pool.Valid) (h : program.staticInitCode d pool = .ok (some code) later) :
    later.Valid ∧ pool.Extends later ∧ Generated (program.staticInitSite d) later code := by
  obtain ⟨body, w, -, run, ending⟩ := staticInitCode_run h
  have part := Field.lowerInits_part rfl setsUp_statics (w := { pool }) valid run
  obtain ⟨valid', grown, generated, -⟩ := ending.generated part.lowered (by simp) fun _ => rfl
  exact ⟨valid', grown, generated⟩

end Program

end ClassForge
