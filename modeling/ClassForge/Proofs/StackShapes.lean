import ClassForge.Proofs.CodeChecks
import ClassForge.Proofs.EntryFrames

set_option autoImplicit false

namespace ClassForge

open CodeBuffer (position)

variable {site : Site} {kind : Kind}

theorem Site.within_bind {α β : Type} {step : Context → Gen α} {f : α → Gen β} {w later : Workspace} {b : β} :
    (site.within step >>= f) w = .ok b later ↔ (step { toSite := site, slots := w.slots } >>= f) w = .ok b later := by
  simp only [bind_returns, within_returns]

section Initial

variable {site : Site} {body : Option Body} {w later : Workspace} {u : Unit}

variable (sees : Sees site body w.slots) (valid : w.pool.Valid)
include sees valid

theorem Gen.this_flows (isInstance : site.isStatic = false) (h : place .this w = .ok u later) :
    Piece site [] w later ∧ Flows body w later (site.rest w.slots) ⟨[.reference], site.vars w.slots⟩ [] := by
  have types := @types_place _ body [] [] (fun _ => sees.context) "this" _ (.this isInstance (.inl rfl))
  have piece := types.grows.piece valid (by simp) h
  rw [Context.descriptorOf, Descriptor.kind_ofClass] at types
  exact ⟨piece, types.flows piece rfl h⟩

theorem Field.lowerInit_flows {field : Field} (outside : site.scope = site.fieldScope) (sets : site.SetsUp field)
    (h : Field.lowerInits.lowerInit site field w = .ok u later) :
    Flows body w later (site.rest w.slots) (site.rest w.slots) [] := by
  cases init : field.init with
  | none =>
    simp only [Field.lowerInits.lowerInit, init, pure_returns] at h
    obtain ⟨-, rfl⟩ := h
    exact fun _ meets => .of_code_eq rfl meets
  | some value =>
    simp only [Field.lowerInits.lowerInit, init, bind_returns, Gen.check_returns] at h
    obtain ⟨d, _, ⟨type, rfl⟩, h⟩ := h
    have put := @Gen.types_putValue body _ sees.given sees.context site.self field.name d
      (field.modifier.has .static) value (sees.reviewed.descriptor type) fun _ _ ref => .setUp sets (outside ▸ type) ref
    rw [sets.same] at h put
    cases isStatic : site.isStatic with
    | true =>
      rw [isStatic] at put
      rw [isStatic, if_neg (by decide), Site.within_bind] at h
      exact put.flows (put.grows.piece valid (by simp) h) rfl h
    | false =>
      rw [isStatic] at put
      rw [isStatic, if_pos (by decide)] at h
      obtain ⟨_, mid, run, h⟩ := bind_returns.1 h
      obtain ⟨piece, flows⟩ := Gen.this_flows sees valid isStatic run
      rw [Site.within_bind, piece.slots] at h
      have piece' := put.grows.piece piece.valid_after (by simp) h
      exact flows.trans (put.flows piece' piece.slots h) piece'.toPart

omit sees in
theorem Field.lowerInits_tour {fields : List Field} (outside : site.scope = site.fieldScope)
    (sets : ∀ field ∈ fields, site.SetsUp field) (h : Field.lowerInits site fields w = .ok u later) :
    Tour site body w [] [] later := by
  induction fields generalizing w with
  | nil =>
    simp only [Field.lowerInits, pure_returns] at h
    exact h.2 ▸ .refl valid (by simp)
  | cons field rest ih =>
    simp only [Field.lowerInits, bind_returns, Gen.located_returns] at h
    obtain ⟨_, mid, first, h⟩ := h
    obtain ⟨here, sets⟩ := List.forall_mem_cons.1 sets
    have tour : Tour site body w [] [] mid :=
      .of_piece ((Field.grows_lowerInit outside here).piece valid (by simp) first)
      fun sees => Field.lowerInit_flows sees valid outside here first
    exact tour.step (ih tour.valid_after sets h) (by simp)

omit sees in
theorem Gen.superCall_tour {superclass : String} {arguments : List Expr} (isInstance : site.isStatic = false)
    (h : superCall site superclass arguments w = .ok u later) : Tour site body w [] [] later := by
  refine .of_piece ((grows_superCall superclass arguments).piece valid (by simp) h) fun sees => ?_
  simp only [superCall, ClassForge.bind_returns, Site.within_returns, check_returns] at h
  obtain ⟨_, mid, run, types, _, ⟨told, rfl⟩, params, _, ⟨found, rfl⟩, _, last, passed, called⟩ := h
  obtain ⟨piece, flows⟩ := this_flows sees valid isInstance run
  rw [piece.slots] at told passed
  obtain ⟨has, -, -⟩ := Program.constructorFor_found found
  have basis := sees.context.supports sees.given
  have casts := sees.context.casts (Expr.allCasts arguments)
  obtain ⟨suit, proper⟩ := Expr.suits_constructor basis casts told found
  have made := @ArgCode.types_all { toSite := site, slots := w.slots } body _ [.reference] _ _ _
    (Expr.argCodes_types basis arguments casts) suit
  have piece1 := made.grows.piece piece.valid_after (by simp) passed
  have calls := @types_construct { toSite := site, slots := w.slots } body [] [] sees.given.formed superclass params has
    fun _ => proper
  have piece2 := calls.grows.piece piece1.valid_after (by simp) called
  exact (flows.trans (made.flows piece1 piece.slots passed) piece1.toPart).trans
    (calls.flows piece2 (piece1.slots.trans piece.slots) called) piece2.toPart

end Initial

section Values

theorem Kind.ofFamily_ne_void {n : Nat} (h : Kind.ofFamily? n = some kind) : kind ≠ .void := by
  unfold ofFamily? at h
  split at h <;> cases h <;> decide

namespace Instruction

variable {pool : ConstantPool} {i : Instruction}

theorem access_ne_void {base shortBase : Opcode} {slot : Nat}
    (h : i.access? base shortBase = some (kind, slot)) : kind ≠ .void := by
  unfold access? at h
  split at h
  all_goals try cases h
  all_goals
    split_ifs at h
    obtain ⟨found, known, same⟩ := Option.map_eq_some_iff.1 h
    cases same
    exact Kind.ofFamily_ne_void known

theorem void_notMem_effect {effect : List Kind × List Kind} (h : i.effect? pool = some effect) :
    Kind.void ∉ effect.2 := by
  unfold effect? at h
  split_ifs at h with isConstant isField isCall isReturn
  · obtain ⟨kind, known, rfl⟩ := Option.map_eq_some_iff.1 h
    simp only [constantKind?, Option.bind_eq_bind, Option.bind_eq_some_iff] at known
    obtain ⟨⟨index, isWide⟩, -, constant, -, kind', known, same⟩ := known
    split_ifs at same
    cases same
    cases constant <;> cases known <;> decide
  · obtain ⟨type, -, rfl⟩ := Option.map_eq_some_iff.1 h
    unfold fieldKinds
    split_ifs <;> first | exact Kind.void_notMem_pushed _ | exact List.not_mem_nil
  · obtain ⟨⟨params, returns⟩, -, rfl⟩ := Option.map_eq_some_iff.1 h
    exact Kind.void_notMem_pushed _
  · obtain ⟨kind, -, rfl⟩ := Option.map_eq_some_iff.1 h
    exact List.not_mem_nil
  · exact (Opcode.kindEffect_facts _ effect h).2.2

theorem void_notMem_stackAfter {stack after : List Kind} (h : i.stackAfter? pool stack = some after)
    (before : Kind.void ∉ stack) : Kind.void ∉ after := by
  unfold stackAfter? at h
  split_ifs at h with isDup isPop isPop2
  · cases stack with
    | nil => cases h
    | cons kind rest =>
      dsimp only at h
      split_ifs at h
      cases h
      simpa using before
  · cases stack with
    | nil => cases h
    | cons kind rest =>
      dsimp only at h
      split_ifs at h
      cases h
      exact fun inside => before (List.mem_cons_of_mem _ inside)
  · rcases stack with _ | ⟨kind, _ | ⟨kind', rest⟩⟩
    · cases h
    · dsimp only at h
      split_ifs at h
      cases h
      simp
    · dsimp only at h
      split_ifs at h <;> cases h
      · exact fun inside => before (List.mem_cons_of_mem _ inside)
      · exact fun inside => before (List.mem_cons_of_mem _ (List.mem_cons_of_mem _ inside))
  · obtain ⟨⟨takes, gives⟩, known, h⟩ := Option.bind_eq_some_iff.1 h
    obtain ⟨rest, dropped, rfl⟩ := Option.map_eq_some_iff.1 h
    obtain ⟨front, rfl, -⟩ := List.dropPrefix?_eq_some_iff.1 dropped
    rw [List.mem_append, not_or] at before ⊢
    exact ⟨void_notMem_effect known, before.2⟩

theorem void_notMem_run {maxLocals : Nat} {frame next : Frame} (h : i.run? pool maxLocals frame = some next)
    (before : Kind.void ∉ frame.stack) : Kind.void ∉ next.stack := by
  unfold run? at h
  split at h
  next kind slot loaded =>
    split_ifs at h
    cases h
    have value := access_ne_void loaded
    exact List.not_mem_cons_of_ne_of_not_mem value.symm before
  next =>
    split at h
    next kind slot _ =>
      split_ifs at h
      obtain ⟨rest, dropped, rfl⟩ := Option.map_eq_some_iff.1 h
      obtain ⟨front, same, -⟩ := List.dropPrefix?_eq_some_iff.1 dropped
      rw [same, List.mem_append, not_or] at before
      exact before.2
    next =>
      obtain ⟨stack, after, rfl⟩ := Option.map_eq_some_iff.1 h
      exact void_notMem_stackAfter after before

end Instruction

end Values

variable {entry : Locals}

namespace Body

variable {body : Body}

theorem described {notes : Notes} (single : ∀ i ∈ body.code, ∀ j ∈ body.code, i.pc = j.pc → i = j)
    (start : ∃ n, notes 0 = some n ∧ n.Describes { stack := [], locals := entry })
    (accepts : ∀ pc n, notes pc = some n → body.Accepts notes pc n) {pc : Nat} {frame : Frame}
    (arrives : Arrives body.pool body.maxLocals body.code entry pc frame) :
    (∃ n, notes pc = some n ∧ n.Describes frame) ∧ Kind.void ∉ frame.stack := by
  induction arrives with
  | start => exact ⟨start, List.not_mem_nil⟩
  | @step pc goal frame next i goals _ member here run goes among ih =>
    obtain ⟨⟨n, found, describes⟩, values⟩ := ih
    obtain ⟨-, j, member', here', goals', goes', moves⟩ := accepts pc n found
    obtain rfl := single i member j member' (here.trans here'.symm)
    obtain ⟨next', run', describes'⟩ := moves frame describes
    obtain rfl : next = next' := Option.some_inj.1 (run.symm.trans run')
    obtain rfl : goals = goals' := Option.some_inj.1 (goes.symm.trans goes')
    exact ⟨describes' goal among, Instruction.void_notMem_run run values⟩

theorem shaped_of_flow {first last : Workspace} {pre post : Note}
    (flow : Flow (some body) first last pre post []) (begins : first.code.pc = 0) (dead : last.code.alive = false)
    (describes : pre.Describes { stack := [], locals := entry })
    (single : ∀ i ∈ body.code, ∀ j ∈ body.code, i.pc = j.pc → i = j) :
    ∃ shape, Shaped body.pool body.code body.buffer.maxDepth body.maxLocals entry shape := by
  obtain ⟨own, holds⟩ := flow.notes body rfl
  -- Beyond the end there is nothing to note.
  let notes : Notes := fun pc => if pc < last.code.pc then own pc else none
  obtain ⟨start, inside⟩ := holds notes (fun pc _ high => if_pos high) fun alive => by
    rw [dead] at alive
    cases alive
  have accepts (pc : Nat) (n : Note) (found : notes pc = some n) : body.Accepts notes pc n := by
    refine inside (by simp) pc n (by omega) ?_ found
    by_contra beyond
    rw [show notes pc = none from if_neg beyond] at found
    cases found
  obtain ⟨n, found, below⟩ := begins ▸ start
  have start' : ∃ n, notes 0 = some n ∧ n.Describes { stack := [], locals := entry } :=
    ⟨n, found, below.describes describes⟩
  have each {pc : Nat} {frame : Frame} (arrives : Arrives body.pool body.maxLocals body.code entry pc frame) :=
    described single start' accepts arrives
  have stack {pc : Nat} {n : Note} (found : notes pc = some n) : ((notes pc).map (·.stack)).getD [] = n.stack := by
    rw [found]
    rfl
  refine ⟨fun pc => ((notes pc).map (·.stack)).getD [], ?_, fun pc frame arrives => ?_, fun pc frame arrives => ?_,
    fun pc frame arrives => ?_, fun pc frame arrives => ?_⟩
  · exact (stack found).trans (below.describes describes).1
  all_goals obtain ⟨⟨n, found, describes⟩, values⟩ := each arrives
  · exact describes.1.symm.trans (stack found).symm
  · rw [stack found, describes.1]
    exact values
  · rw [stack found]
    exact (accepts pc n found).1
  · obtain ⟨-, i, member, here, goals, goes, moves⟩ := accepts pc n found
    obtain ⟨next, run, -⟩ := moves frame describes
    exact ⟨i, member, here, by rw [run]; rfl, by rw [goes]; rfl⟩

end Body

theorem Site.IsReviewed.result (reviewed : site.IsReviewed) {returns : Option TypeName}
    {d : Descriptor} (h : site.scope.resultDescriptor returns = .ok d) : d.Proper IsPlain := by
  cases returns with
  | none => exact Except.ok.inj h ▸ .ofPrimitive .void
  | some t => exact reviewed.descriptor h

theorem Ending.shaped {pool later final : ConstantPool} {slots : Slots} {w : Workspace}
    {code : CodeAttribute} (ending : Ending w code later) (lowered : Lowered site 0 [] { pool, slots } w)
    (typed : slots.IsTyped site.isStatic) (last : w.code.alive = true → site.returns = .void)
    (kept : later.Extends final) (enters : ∀ v ∈ site.vars slots, entry.Has v.1 v.2)
    (formed : ∀ instructions, Instruction.decode code.code = .ok instructions → ∀ i ∈ instructions, i.IsFormed final)
    (flows : ∀ body : Option Body, Body.Given body → ∃ post, Flows body { pool, slots } w (site.rest slots) post []) :
    ∃ instructions shape, Instruction.decode code.code = .ok instructions ∧
      Shaped final instructions code.maxStack.toNat code.maxLocals.toNat entry shape := by
  obtain ⟨w1, w2, ret, growth, same, dead, finish, rfl⟩ := ending.closes lowered.valid last
  obtain ⟨finished, maxStack, maxLocals, -, name, named⟩ := Gen.finish_run finish
  obtain ⟨-, named, -⟩ := Pooled.utf8_returns growth.valid named
  have laid := lowered.toGrowth.isLaid ⟨[], CodeBuffer.laid_empty⟩
  obtain ⟨items, laid1⟩ := growth.isLaid laid
  obtain ⟨decoded, -⟩ := CodeBuffer.finish_returns laid1.toHolds finished
  -- Both limits fit into the words that the code states them with.
  have locals : code.maxLocals.toNat = w1.slots.maxSize := by
    have small := lowered.slots.small typed.small
    rw [maxLocals, UInt16.toNat_ofNat_of_lt' (by rw [same]; exact Nat.lt_succ_of_le small)]
  have depth : code.maxStack.toNat = w1.code.maxDepth := by
    obtain ⟨_, advance, -⟩ := lowered.code
    obtain ⟨_, advance', -⟩ := growth.code
    have small := advance'.small (advance.small (Nat.zero_le _))
    rw [maxStack, UInt16.toNat_ofNat_of_lt' (Nat.lt_succ_of_le small)]
  let body : Body :=
    { pool := final, buffer := w1.code, bytes := code.code,
      code := Item.program (CodeBuffer.placeOf w1.code.labels) items
      maxLocals := code.maxLocals.toNat, finished, decoded }
  have leads1 : w1.LeadsTo body :=
    { pool := named.trans kept
      laid := fun items laid => ⟨[], by rwa [List.append_nil]⟩
      place := fun label pc stands => by
        show (position w1.code.labels label).getD 0 = pc
        rw [stands]
        rfl
      depth := Nat.le_refl _
      locals := Nat.le_of_eq locals.symm }
  have lands : w1.Leads (some body) := fun _ same => Option.some_inj.1 same ▸ leads1
  have leads := growth.leads (Nat.le_refl _) (by rw [same]) lands
  obtain ⟨post, flows⟩ := flows (some body) ⟨rfl, fun _ same => Option.some_inj.1 same ▸ formed _ decoded⟩
  have flow := flows leads ⟨rfl, rfl, Nat.le_refl 0, [], CodeBuffer.laid_empty⟩
  have whole := flow.trans
    (fun meets => @Gen.flow_ret (some body) w w1 () .void post.stack post.vars (site.rest slots) ret lands meets)
    (growth.passed (Nat.le_refl _))
  obtain ⟨shape, shaped⟩ := Body.shaped_of_flow whole rfl dead ⟨rfl, enters⟩
    fun i member j member' => Body.eq_of_pc laid1 member member'
  exact ⟨_, shape, decoded, depth ▸ shaped⟩

namespace Program

section Members

variable {program : Program} {d : Decl} {pool later final : ConstantPool} {code : CodeAttribute}
variable (checked : ∀ e ∈ program, Review.Checked program e) (plain : ∀ e ∈ program, IsPlain e.internalName)
variable (declared : d ∈ program) (valid : pool.Valid) (kept : later.Extends final)
variable (formed : ∀ instructions, Instruction.decode code.code = .ok instructions →
  ∀ i ∈ instructions, i.IsFormed final)
include checked plain declared valid kept formed

theorem methodCode_shaped {m : Method} (own : m ∈ d.methods) (made : program.methodCode d m pool = .ok code later) :
    ∃ types, m.params.mapM (fun p => ({ program, decl := d, typeParams := m.typeParams } : Scope).descriptor p.type) =
        .ok types ∧
      ∃ instructions shape, Instruction.decode code.code = .ok instructions ∧
        Shaped final instructions code.maxStack.toNat code.maxLocals.toNat
          (.entry 0 (entryKinds (m.modifier.has .static) types)) shape := by
  obtain ⟨lines, statements, slots, returns, w, -, -, taken, returned, run, last, ending⟩ := methodCode_run made
  obtain ⟨bounds, value⟩ := (checked d declared).methods m own
  have site : (program.methodSite d m returns).IsReviewed := ⟨checked, plain, declared, bounds⟩
  obtain ⟨types, known, typed, enters⟩ := Scope.paramSlots_isTyped site value taken
  have part := Stmt.lowerAll_part statements (w := { pool, slots }) valid run
  refine ⟨types, known, ending.shaped (part.lowered.inside (Nat.zero_le _)) typed
    (Stmt.void_of_alive part.valid run last) kept enters formed fun body formed => ?_⟩
  exact ⟨_, (Stmt.lowerAll_follows statements part.valid run).flows ⟨formed, site, site.result returned, typed⟩⟩

theorem constructorCode_shaped {body : ClassBody} {c : Constructor} {defaultSuperclass : String}
    (shape : d.shape = .plainClass body) (own : c ∈ body.constructors)
    (made : program.constructorCode d c defaultSuperclass pool = .ok code later) :
    ∃ types, c.params.mapM (fun p => (program.scopeOf d).descriptor p.type) = .ok types ∧
      ∃ instructions shape, Instruction.decode code.code = .ok instructions ∧
        Shaped final instructions code.maxStack.toNat code.maxLocals.toNat
          (.entry 0 (entryKinds false types)) shape := by
  obtain ⟨body', slots, statements, superclass, w1, w2, w3, shape', taken, -, run1, run2, run3, ending⟩ :=
    constructorCode_run made
  obtain rfl : body = body' := by
    rw [shape] at shape'
    exact Shape.plainClass.inj shape'
  have site : (program.constructorSite d).IsReviewed :=
    ⟨checked, plain, declared, by simp [constructorSite, scopeOf]⟩
  obtain ⟨types, known, typed, enters⟩ := Scope.paramSlots_isTyped site
    ((checked d declared).constructors body shape c own) taken
  have instances := @setsUp_instances program d body shape
  -- The call of the superclass, the initial values and the statements, one after the other.
  have super := (Gen.grows_superCall superclass _).piece (w := { pool, slots }) valid (by simp) run1
  have inits := Field.lowerInits_part rfl instances super.valid_after run2
  have rest := Stmt.lowerAll_part statements inits.valid_after run3
  have whole := (super.toPart.trans inits).trans rest
  refine ⟨types, known, ending.shaped (whole.lowered.inside (Nat.zero_le _)) typed (fun _ => rfl) kept enters formed
    fun body formed => ?_⟩
  have sees : Sees (program.constructorSite d) body slots := ⟨formed, site, .ofPrimitive .void, typed⟩
  have first : Tour _ body _ [] [] w1 := Gen.superCall_tour super.valid rfl run1
  have both := first.step (Field.lowerInits_tour first.valid_after rfl instances run2) (by simp)
  have flows := (Stmt.lowerAll_follows statements both.valid_after run3).flows (sees.wider both.wider)
  rw [both.wider.rest] at flows
  exact ⟨_, (both.flows sees).trans flows rest⟩

theorem staticInitCode_shaped (made : program.staticInitCode d pool = .ok (some code) later) :
    ∃ instructions shape, Instruction.decode code.code = .ok instructions ∧
      Shaped final instructions code.maxStack.toNat code.maxLocals.toNat (.entry 0 []) shape := by
  obtain ⟨body, w, shape, run, ending⟩ := staticInitCode_run made
  have site : (program.staticInitSite d).IsReviewed :=
    ⟨checked, plain, declared, by simp [staticInitSite, scopeOf]⟩
  obtain ⟨types, known, typed, enters⟩ :=
    @Scope.paramSlots_isTyped (program.staticInitSite d) [] {} site (by simp) rfl
  obtain rfl : [] = types := Except.ok.inj known
  have statics := @setsUp_statics program d
  have part := Field.lowerInits_part rfl statics (w := { pool }) valid run
  refine ending.shaped (part.lowered.inside (Nat.zero_le _)) typed
    (fun _ => rfl) kept enters formed fun body formed => ?_
  exact ⟨_, (Field.lowerInits_tour part.valid rfl statics run).flows ⟨formed, site, .ofPrimitive .void, typed⟩⟩

end Members

inductive Makes (program : Program) (d : Decl) (pool : ConstantPool) :
    Scope → Bool → List Param → CodeAttribute → ConstantPool → Prop
  | method {m : Method} {code : CodeAttribute} {later : ConstantPool} (own : m ∈ d.methods)
      (made : program.methodCode d m pool = .ok code later) :
      Makes program d pool { program, decl := d, typeParams := m.typeParams } (m.modifier.has .static) m.params
        code later
  | constructor {body : ClassBody} {c : Constructor} {defaultSuperclass : String} {code : CodeAttribute}
      {later : ConstantPool} (shape : d.shape = .plainClass body) (own : c ∈ body.constructors)
      (made : program.constructorCode d c defaultSuperclass pool = .ok code later) :
      Makes program d pool (program.scopeOf d) false c.params code later
  | staticInit {code : CodeAttribute} {later : ConstantPool}
      (made : program.staticInitCode d pool = .ok (some code) later) :
      Makes program d pool (program.scopeOf d) true [] code later

-- The code of a member has one shape of the stack at each place that control gets to, if the descriptors it
-- refers to are formed. It is entered with the receiver and the parameters.
theorem code_shaped {raw program : Program} {d : Decl} {pool later final : ConstantPool} {scope : Scope}
    {isStatic : Bool} {params : List Param} {code : CodeAttribute} (reviewed : raw.review = .ok program)
    (plain : ∀ e ∈ program, IsPlain e.internalName) (declared : d ∈ program) (valid : pool.Valid)
    (made : program.Makes d pool scope isStatic params code later) (kept : later.Extends final)
    (formed : ∀ instructions, Instruction.decode code.code = .ok instructions → ∀ i ∈ instructions, i.IsFormed final) :
    ∃ types, params.mapM (fun p => scope.descriptor p.type) = .ok types ∧
      ∃ instructions shape, Instruction.decode code.code = .ok instructions ∧
        Shaped final instructions code.maxStack.toNat code.maxLocals.toNat
          (.entry 0 (entryKinds isStatic types)) shape := by
  obtain ⟨-, checked⟩ := review_eq_ok reviewed
  cases made with
  | method own made => exact methodCode_shaped checked plain declared valid kept formed own made
  | constructor shape own made =>
    exact constructorCode_shaped checked plain declared valid kept formed shape own made
  | staticInit made => exact ⟨[], rfl, staticInitCode_shaped checked plain declared valid kept formed made⟩

theorem code_shaped_loop : ∃ raw program d m code pool instructions shape,
    parse ⟨"p/T.k"⟩ ("\n".intercalate ["class A \x7b", "int y", "static long g(long a) \x7b", "return a", "\x7d",
      "long f(int n) \x7b", "long s = y", "while n > 0 \x7b", "s = g(s) + n", "n = n - 1", "\x7d", "return s",
      "\x7d", "\x7d"]) = .ok raw ∧
      raw.review = .ok program ∧ d ∈ program ∧ m ∈ d.methods ∧ methodCode program d m {} = .ok code pool ∧
      Instruction.decode code.code = .ok instructions ∧ 15 < instructions.length ∧
      Shaped pool instructions 4 4 (.entry 0 [.reference, .int]) shape := by
  generalize written : "\n".intercalate _ = source
  have run : (((parse ⟨"p/T.k"⟩ source).toOption.bind (·.review.toOption)).bind fun program =>
      program.head?.bind fun d => d.methods.getLast?.bind fun m =>
        ((methodCode program d m >>= fun code => modifyGet fun pool => ((code, pool), pool)).run' {}).bind fun made =>
          (Instruction.decode made.1.code).toOption.map fun instructions =>
            decide ((∀ d ∈ program, IsPlain d.internalName) ∧ (∀ i ∈ instructions, i.IsFormed made.2) ∧
              15 < instructions.length ∧ made.1.maxStack = 4 ∧ made.1.maxLocals = 4 ∧
              m.modifier.has .static = false ∧
              m.params.mapM (fun p => Scope.descriptor ⟨program, d, m.typeParams⟩ p.type) = .ok [.int])) =
      some true := by
    rw [← written]
    decide +kernel
  simp only [Option.bind_eq_some_iff, Option.map_eq_some_iff, toOption_eq_some, run'_eq_some, bind_returns,
    modifyGet_returns, decide_eq_true_eq] at run
  obtain ⟨program, ⟨raw, parsed, reviewed⟩, d, first, m, last, _, ⟨_, code, pool, made, rfl, rfl⟩, instructions,
    decoded,
    plain, formed, long, stack, locals, isInstance, params⟩ := run
  have declared := List.mem_of_head? first
  have own := List.mem_of_getLast? last
  obtain ⟨types, known, instructions', shape, decoded', shaped⟩ := code_shaped reviewed plain declared
    ConstantPool.valid_empty (.method own made) (.refl pool) (by rw [decoded]; rintro _ ⟨⟩; exact formed)
  cases decoded.symm.trans decoded'
  cases params.symm.trans known
  rw [isInstance, stack, locals] at shaped
  exact ⟨raw, program, d, m, code, pool, instructions, shape, parsed, reviewed, declared, own, made, decoded,
    long, shaped⟩

end Program

end ClassForge
