import ClassForge.Proofs.ExprTyping

set_option autoImplicit false

namespace ClassForge

open Descriptor (voidArray)

variable {s : Slots} {isStatic isFinal : Bool} {name : String}

namespace Slots

structure Wider (s later : Slots) : Prop where
  bindings : later.bindings = s.bindings
  size : later.size = s.size
  grown : s.maxSize ≤ later.maxSize
  small : s.maxSize ≤ 65535 → later.maxSize ≤ 65535

namespace Wider

variable {s mid later : Slots}

theorem refl (s : Slots) : s.Wider s :=
  ⟨rfl, rfl, Nat.le_refl _, id⟩

theorem of_eq (same : later = s) : s.Wider later :=
  same ▸ refl s

theorem trans (first : s.Wider mid) (second : mid.Wider later) : s.Wider later where
  bindings := second.bindings.trans first.bindings
  size := second.size.trans first.size
  grown := Nat.le_trans first.grown second.grown
  small := fun small => second.small (first.small small)

theorem of_scope {inner : Slots} (grown : s.openScope.Extends inner) : s.Wider inner.closeScope := by
  rw [closeScope_of_extends grown]
  exact ⟨rfl, rfl, grown.grown, grown.small⟩

theorem vars (wider : s.Wider later) : later.vars = s.vars := by
  rw [Slots.vars, wider.bindings, Slots.vars]

theorem isTyped (wider : s.Wider later) (typed : s.IsTyped isStatic) : later.IsTyped isStatic where
  stack := by
    rw [wider.bindings, wider.size]
    exact typed.stack
  typed := by
    rw [wider.bindings]
    exact typed.typed
  named := by
    unfold lookup?
    rw [wider.bindings]
    exact typed.named
  receiver := by
    rw [wider.bindings, wider.size]
    exact typed.receiver
  peak := by
    rw [wider.size]
    exact Nat.le_trans typed.peak wider.grown
  small := wider.small typed.small

end Wider

theorem IsTyped.openScope (typed : s.IsTyped isStatic) : s.openScope.IsTyped isStatic :=
  ⟨typed.stack, typed.typed, typed.named, typed.receiver, typed.peak, typed.small⟩

theorem IsTyped.bound (typed : s.IsTyped isStatic)
    {d : Descriptor} (proper : d.Proper IsPlain) (value : 0 < d.width) (fits : s.size + d.width ≤ 65535) :
    (Gen.bound s name d isFinal).IsTyped isStatic where
  stack := .cons typed.stack rfl value
  typed := by
    refine List.forall_mem_cons.2 ⟨fun e known => ?_, typed.typed⟩
    cases known
    exact ⟨rfl, proper⟩
  named other b apart found := by
    rcases Classical.em (name = other) with same | new
    · simp only [Gen.bound, lookup?, List.find?_cons, same, decide_true] at found
      cases found
      rfl
    · simp only [Gen.bound, lookup?, List.find?_cons, Option.some_inj, new, decide_false] at found
      exact typed.named other b apart found
  receiver isInstance := by
    obtain ⟨size, behind⟩ := typed.receiver isInstance
    exact ⟨Nat.lt_of_lt_of_le size (Nat.le_add_right _ _), List.forall_mem_cons.2 ⟨fun _ => size, behind⟩⟩
  peak := Nat.le_max_right _ _
  small := Nat.max_le.2 ⟨typed.small, fits⟩

theorem vars_bound (s : Slots) (name : String) (d : Descriptor) (isFinal : Bool) :
    (Gen.bound s name d isFinal).vars = (s.size, d.kind) :: s.vars :=
  rfl

end Slots

def Site.rest (site : Site) (slots : Slots) : Note :=
  { stack := [], vars := site.vars slots }

theorem Slots.Wider.rest {site : Site} {later : Slots} (wider : s.Wider later) : site.rest later = site.rest s := by
  rw [Site.rest, Site.vars, wider.vars]
  rfl

-- What is known where kinds are followed: the finished code, the types of the program and the names in sight.
structure Sees (site : Site) (body : Option Body) (slots : Slots) : Prop where
  given : Body.Given body
  reviewed : site.IsReviewed
  result : site.returns.Proper IsPlain
  typed : slots.IsTyped site.isStatic

namespace Sees

variable {site : Site} {body : Option Body} {s later : Slots} (sees : Sees site body s)
include sees

theorem context : Context.IsTyped { toSite := site, slots := s } :=
  ⟨sees.reviewed, sees.typed⟩

theorem wider (wider : s.Wider later) : Sees site body later :=
  { sees with typed := wider.isTyped sees.typed }

theorem types (tree : Expr) :
    (tree.code { toSite := site, slots := s }).Types { toSite := site, slots := s } body (Descriptor.Proper IsPlain)
      fun expected => tree.typeIn { toSite := site, slots := s } expected :=
  Expr.code_types (sees.context.supports sees.given) tree (sees.context.casts _)

end Sees

variable {v : Nat × Kind} {d : Descriptor}

namespace Slots.IsTyped

variable {site : Site} {s : Slots}

theorem of_vars (typed : s.IsTyped site.isStatic) (known : v ∈ site.vars s) :
    (v = (0, .reference) ∧ site.isStatic = false) ∨
      ∃ b ∈ s.bindings, ∃ d, b.descriptor = some d ∧ v = (b.offset, d.kind) ∧ b.width = d.kind.width := by
  rcases List.mem_append.1 known with receiver | named
  · split_ifs at receiver with isStatic
    · cases receiver
    · exact .inl ⟨List.mem_singleton.1 receiver, by simpa using isStatic⟩
  · obtain ⟨b, member, mapped⟩ := List.mem_filterMap.1 named
    obtain ⟨d, type, rfl⟩ := Option.map_eq_some_iff.1 mapped
    exact .inr ⟨b, member, d, type, rfl, (typed.typed b member d type).1⟩

theorem below (typed : s.IsTyped site.isStatic) (known : v ∈ site.vars s) :
    0 < v.2.width ∧ v.1 + v.2.width ≤ s.size := by
  rcases typed.of_vars known with ⟨rfl, isInstance⟩ | ⟨b, member, d, -, rfl, width⟩
  · have size := (typed.receiver isInstance).1
    exact ⟨by decide, Nat.succ_le_of_lt size⟩
  · obtain ⟨-, high, positive⟩ := typed.stack.bounds member
    dsimp only
    omega

theorem apart (typed : s.IsTyped site.isStatic) {b : Binding} (member : b ∈ s.bindings)
    (known : b.descriptor = some d) (among : v ∈ site.vars s) :
    v = (b.offset, d.kind) ∨ v.1 + v.2.width ≤ b.offset ∨ b.offset + d.kind.width ≤ v.1 := by
  have width : b.width = d.kind.width := (typed.typed b member d known).1
  rcases typed.of_vars among with ⟨rfl, isInstance⟩ | ⟨other, member', d', known', rfl, width'⟩
  · have behind := (typed.receiver isInstance).2 b member (by rw [known]; rfl)
    exact .inr (.inl (Nat.succ_le_of_lt behind))
  · rcases typed.stack.apart member member' with same | after | before
    · rw [← same, known] at known'
      cases known'
      exact .inl (by rw [same])
    · exact .inr (.inr (by dsimp only; omega))
    · exact .inr (.inl (by dsimp only; omega))

end Slots.IsTyped

theorem Descriptor.kind_of_isIntFamily (h : d.isIntFamily = true) : d.kind = .int := by
  simp only [isIntFamily, decide_eq_true_eq, List.mem_cons, List.not_mem_nil, or_false] at h
  rcases h with rfl | rfl | rfl | rfl <;> rfl

section Values

variable {ctx : Context} {body : Option Body} {stack : List Kind}
variable (formed : Body.Given body) (typed : ctx.IsTyped)
include formed typed

theorem Expr.codeAs_flow {tree : Expr} {expected : Descriptor} {w later : Workspace} {u : Unit}
    (proper : expected.Proper IsPlain) (valid : w.pool.Valid) (slots : w.slots = ctx.slots)
    (h : tree.codeAs ctx expected w = .ok u later) (leads : later.Leads body) (meets : w.Meets (ctx.note stack)) :
    (Flow body w later (ctx.note stack) (ctx.note (expected.kind.pushed ++ stack)) [] ∧
        later.Meets (ctx.note (expected.kind.pushed ++ stack))) ∨
      expected = voidArray ∧ later.code.alive = true ∧ later.code.depth ≤ Kind.widths stack := by
  have types := Expr.code_types (typed.supports formed) tree (typed.casts _)
  by_cases isVoid : expected = voidArray
  · subst isVoid
    have notInt : tree.intConstant?.filter voidArray.holds = none := by
      refine Option.filter_eq_none_iff.2 fun value _ held => ?_
      exact absurd (Descriptor.holds_int held) (by decide)
    simp only [codeAs, ExprCode.valueAs, notInt, bind_returns] at h
    obtain ⟨found, mid, run, h⟩ := h
    have piece := (types.grows.value _).piece valid (by simp) run
    have coerces := @Gen.types_coerce ctx body [] stack ctx.program found voidArray
    have piece' := coerces.grows.piece piece.valid_after (by simp) h
    rcases types.short stack w found mid valid slots run (piece'.back leads) meets with
      ⟨flow, meets'⟩ | ⟨-, rfl, alive, depth⟩
    · obtain ⟨flow', last⟩ := coerces.goesOn piece'.valid (piece.slots.trans slots) h leads meets'
      exact .inl ⟨flow.trans (fun _ => flow') piece'.passed, last⟩
    · -- Nothing is written for a coercion of a type to itself.
      have coerced : Gen.coerce ctx.program voidArray voidArray = pure () := by
        simp only [Gen.coerce, Program.coercion?, Descriptor.widening?, if_true]
        rfl
      rw [coerced, pure_returns] at h
      have counted : w.code.depth = Kind.widths stack := meets.depth
      exact .inr ⟨rfl, h.2 ▸ alive, h.2 ▸ by omega⟩
  · have value := ExprCode.types_valueAs ctx.program types expected stack proper (absurd · isVoid)
    exact .inl (value.goesOn valid slots h leads meets)

end Values

variable {post : Note} {value : Expr}

namespace Gen

variable {site : Site} {body : Option Body} {w later : Workspace} {u : Unit}

theorem flow_last {opcode : Opcode} {pops : Nat} {pre : Note} (known : opcode.stackEffect? = some (pops, 0))
    (length : Instruction.operandLength? 0 opcode [] = some 0)
    (ends : (Item.plain opcode []).endsPath = true) (steps : ∀ b ∈ body, b.Steps (.plain opcode []) pre post [])
    (h : op opcode w = .ok u later) (leads : later.Leads body) (meets : w.Meets pre) :
    Flow body w later pre post [] := by
  obtain ⟨code, run, rfl⟩ := emit_returns.1 h
  have writes := (Emit.op_written known run).writes meets.alive
  exact .of_writes leads writes (Item.wellFormed_of_length length) (by simp [Item.targets]) meets steps
    (by simp [ends]) (by simp)

theorem stackEffect_returnOpcode (kind : Kind) :
    kind.returnOpcode.stackEffect? = some (kind.width, 0) ∧ (Item.plain kind.returnOpcode []).endsPath = true := by
  cases kind <;> exact ⟨rfl, rfl⟩

theorem flow_ret {kind : Kind} {stack : List Kind} {vars : List (Nat × Kind)} {post : Note}
    (h : emit (.ret kind) w = .ok u later) (leads : later.Leads body) (meets : w.Meets ⟨kind.pushed ++ stack, vars⟩) :
    Flow body w later ⟨kind.pushed ++ stack, vars⟩ post [] := by
  obtain ⟨known, ends⟩ := stackEffect_returnOpcode kind
  exact flow_last known (isReturn_returnOpcode kind) ends (fun _ _ => Body.steps_return) h leads meets

theorem flow_store {kind : Kind} {slot : Nat} {stack : List Kind} {vars kept : List (Nat × Kind)}
    (value : kind ≠ .void) (room : slot + kind.width ≤ w.slots.maxSize) (small : slot < 65536)
    (keeps : ∀ v ∈ kept, v = (slot, kind) ∨ v ∈ vars ∧ 0 < v.2.width ∧
      (v.1 + v.2.width ≤ slot ∨ slot + kind.width ≤ v.1))
    (h : emit (.store kind slot) w = .ok u later) (leads : later.Leads body)
    (meets : w.Meets ⟨kind :: stack, vars⟩) : Flow body w later ⟨kind :: stack, vars⟩ ⟨stack, kept⟩ [] := by
  obtain ⟨code, run, rfl⟩ := emit_returns.1 h
  obtain ⟨_, _, same, -⟩ := Item.store_plain kind slot
  have writes := (Emit.store_returns run).writes meets.alive
  have steps (b : Body) (among : b ∈ body) : b.Steps (.store kind slot) ⟨kind :: stack, vars⟩ ⟨stack, kept⟩ [] :=
    Body.steps_store value (Nat.le_trans room (leads b among).locals) small keeps
  refine .of_writes leads writes (Emit.puts_store kind slot).formed (by simp [same, Item.targets]) meets steps
    (fun _ => ?_) (by simp)
  show Kind.widths stack + kind.width = Kind.widths (kind :: stack) + 0
  rw [Kind.widths_cons]
  omega

section

variable {ctx : Context} (formed : Body.Given body) (typed : ctx.IsTyped)
include formed typed

theorem types_putValue {owner name : String} {d : Descriptor} {isStatic : Bool} {value : Expr}
    (proper : d.Proper IsPlain)
    (emits : ∀ (pool : ConstantPool) index, pool.RefersTo .fieldRef index owner name d.text →
      Emits ctx.toSite pool (.plain (if isStatic then .putstatic else .putfield) (Bytes.u2 index))) :
    Types ctx body []
      (value.codeAs ctx d >>= fun _ => pooled (.fieldRef owner name d.text) >>= fun index =>
        emit (.field (if isStatic then .putstatic else .putfield) index d.width))
      (if isStatic then [] else [.reference]) fun _ => [] := by
  refine Expr.types_codeAs (typed.supports formed) value
    (typed.casts _) proper ?_ fun isVoid mid b later alive depth h => ?_
  · have kinds : Instruction.fieldKinds (if isStatic then .putstatic else .putfield) d.kind =
        (d.kind.pushed ++ if isStatic then [] else [.reference], []) := by
      cases isStatic
      · rfl
      · exact Prod.ext (List.append_nil _).symm rfl
    have put := @types_field ctx body [] [] (if isStatic then .putstatic else .putfield) owner name d
      (by cases isStatic <;> simp) emits
    rwa [kinds, List.append_nil] at put
  · -- Without a value there are too few slots for the instruction.
    simp only [ClassForge.bind_returns, pooled_returns, emit_returns] at h
    obtain ⟨index, _, ⟨pool, -, rfl⟩, code, run, rfl⟩ := h
    have enough := ((Emit.field_returns (by cases isStatic <;> rfl) run).writes alive).enough
    rw [isVoid] at enough
    have few := Nat.le_trans enough depth
    cases isStatic <;> revert few <;> decide

theorem types_assignField {field : FieldTarget} {isDirect : Bool} {receiver : Gen Unit} {value : Expr}
    (use : ctx.MayUse field)
    (first : Types ctx body [] receiver [] fun _ => if field.isStatic then [] else [.reference]) :
    Types ctx body [] (assignField ctx.toSite ctx field isDirect receiver value) [] fun _ => [] :=
  types_guard fun may => types_seq first <|
    types_putValue formed typed (typed.reviewed.field use.has) fun _ _ ref =>
      .write use.has use.allowed (fun isFinal => (mayAssign_final (not_not.1 may) isFinal).1) ref

end

section

variable (sees : Sees site body w.slots) (valid : w.pool.Valid)
include sees valid

theorem returnValue_flows {value : Option Expr}
    (h : returnValue site value w = .ok u later) : Flows body w later (site.rest w.slots) post [] := by
  intro leads meets
  cases value with
  | none =>
    simp only [returnValue, guard_returns] at h
    exact @flow_ret body w later u .void [] _ post h.2 leads meets
  | some value =>
    simp only [returnValue, guard_returns, ClassForge.bind_returns, Site.within_returns] at h
    obtain ⟨-, _, mid, run, ret⟩ := h
    have piece : Piece site [] w mid := (value.codeAs_grows _ _).piece valid (by simp) run
    have piece' : Piece site [] mid later := (grows_ret rfl).piece piece.valid_after (by simp) ret
    rcases Expr.codeAs_flow sees.given sees.context sees.result valid rfl run (piece'.back leads) meets with
      ⟨flow, -⟩ | ⟨isVoid, alive, depth⟩
    · exact flow.trans (fun meets => flow_ret ret leads meets) piece'.passed
    · obtain ⟨code, ran, -⟩ := emit_returns.1 ret
      have enough := ((Emit.op_written (stackEffect_returnOpcode _).1 ran).writes alive).enough
      rw [isVoid] at enough
      exact absurd (Nat.le_trans enough depth) (by decide)

theorem raise_flows (h : raise site value w = .ok u later) : Flows body w later (site.rest w.slots) post [] := by
  intro leads meets
  simp only [raise, guard_returns, ClassForge.bind_returns, Site.within_returns] at h
  obtain ⟨d, mid, run, isReference, thrown⟩ := h
  have types := sees.types value
  have piece : Piece site [] w mid := (types.grows.value _).piece valid (by simp) run
  have piece' : Piece site [] mid later := (grows_op rfl).piece piece.valid_after (by simp) thrown
  have kind := Descriptor.kind_of_isReferenceOrNull (not_not.1 isReference)
  obtain ⟨flow, -⟩ := types.free.goesOn valid rfl run (piece'.back leads) meets
  rw [kind] at flow
  exact flow.trans (fun meets => flow_last rfl rfl rfl (fun _ _ => Body.steps_throw) thrown leads meets) piece'.passed

theorem evaluate_flows (h : evaluate site value w = .ok u later) :
    Flows body w later (site.rest w.slots) (site.rest w.slots) [] := by
  simp only [evaluate, ClassForge.bind_returns, Site.within_returns] at h
  obtain ⟨d, mid, run, popped⟩ := h
  have types := sees.types value
  have piece : Piece site [] w mid := (types.grows.value _).piece valid (by simp) run
  have piece' : Piece site [] mid later := (grows_popValue d).piece piece.valid_after (by simp) popped
  exact (types.free.flows piece rfl run).trans ((types_popValue d).flows piece' piece.slots popped) piece'.toPart

theorem scrutinee_flows (h : scrutinee site value w = .ok u later) :
    Flows body w later (site.rest w.slots) ⟨[.int], site.vars w.slots⟩ [] := by
  simp only [scrutinee, ClassForge.bind_returns, Site.within_returns, ite_returns, throw_returns, pure_returns,
    and_false, false_or, not_not] at h
  obtain ⟨d, _, run, isInt, -, rfl⟩ := h
  have types := sees.types value
  have piece : Piece site [] w _ := (types.grows.value _).piece valid (by simp) run
  have flows := (types.value none [] (by simp) (by simp)).flows piece rfl run
  rwa [Descriptor.kind_of_isIntFamily isInt] at flows

theorem store_flows {slot : Nat} {slots : Slots} {mid : Workspace}
    {kept : List (Nat × Kind)} (proper : d.Proper IsPlain) (isValue : d.kind ≠ .void)
    (run : value.codeAs { toSite := site, slots := w.slots } d w = .ok () mid)
    (stored : emit (.store d.kind slot) { mid with slots } = .ok u later)
    (grown : mid.slots.maxSize ≤ slots.maxSize) (room : slot + d.kind.width ≤ slots.maxSize) (small : slot < 65536)
    (keeps : ∀ v ∈ kept, v = (slot, d.kind) ∨ v ∈ site.vars w.slots ∧ 0 < v.2.width ∧
      (v.1 + v.2.width ≤ slot ∨ slot + d.kind.width ≤ v.1)) :
    Flows body w later (site.rest w.slots) ⟨[], kept⟩ [] := by
  intro leads meets
  have piece : Piece site [] w mid := (value.codeAs_grows _ _).piece valid (by simp) run
  have piece' : Piece site [] { mid with slots } later :=
    (grows_store _ _).piece piece.valid_after (by simp) stored
  have back : mid.Leads body := (piece'.back leads).of_slots grown
  have passed := piece'.passed
  rcases Expr.codeAs_flow sees.given sees.context proper valid rfl run back meets with
    ⟨flow, -⟩ | ⟨isVoid, alive, depth⟩
  · rw [Kind.pushed_of_ne isValue] at flow
    refine flow.trans (fun meets => ?_) ⟨passed.laid, passed.pc, passed.arrival, passed.grown, passed.asleep⟩
    exact (flow_store isValue room small keeps stored leads
      ⟨meets.alive, meets.depth, meets.peak, meets.laid⟩).before rfl fun _ _ => rfl
  · obtain ⟨code, ran, -⟩ := emit_returns.1 stored
    have enough := ((Emit.store_returns ran).writes alive).enough
    rw [isVoid] at enough
    exact absurd (Nat.le_trans enough depth) (by decide)

theorem declare_flows {type : TypeName} (h : declare site isFinal type name value w = .ok u later) :
    later.slots.IsTyped site.isStatic ∧ Flows body w later (site.rest w.slots) (site.rest later.slots) [] := by
  obtain ⟨d, mid, _, slot, -, known, isValue, run, named, stored⟩ := declare_run h
  obtain ⟨rfl, fits, rfl⟩ := bind_run named
  have proper := sees.reviewed.descriptor known
  have piece : Piece site [] w mid := (value.codeAs_grows _ _).piece valid (by simp) run
  have same : later.slots = bound mid.slots name d isFinal := by
    obtain ⟨code, -, rfl⟩ := emit_returns.1 stored
    rfl
  rw [same, piece.slots]
  rw [piece.slots] at fits stored
  refine ⟨sees.typed.bound proper (Scope.width_pos known isValue) fits, ?_⟩
  refine store_flows sees valid proper (fun isVoid => isValue (proper.kind_void isVoid)) run stored
    (by rw [piece.slots]; exact Nat.le_max_left _ _) (Nat.le_max_right _ _) (by omega) fun v member => ?_
  -- Everything else is below the new slots.
  have cases : v = (w.slots.size, d.kind) ∨ v ∈ site.vars w.slots := by
    rw [Site.vars, Slots.vars_bound, List.mem_append, List.mem_cons] at member
    rw [Site.vars, List.mem_append]
    tauto
  exact cases.imp id fun old => ⟨old, (sees.typed.below old).1, .inl (sees.typed.below old).2⟩

theorem assign_flows {target : Head} (h : assign site target value w = .ok u later) :
    Flows body w later (site.rest w.slots) (site.rest w.slots) [] := by
  have here := sees.context
  have typed := sees.typed
  simp only [assign, Site.within_returns, ClassForge.bind_returns, check_returns] at h
  obtain ⟨base, _, ⟨resolved, rfl⟩, h⟩ := h
  split at h
  next name slot d isFinal =>
    cases Context.resolveHead_reached resolved with
    | @bound b named found =>
      obtain ⟨d, known⟩ := Option.isSome_iff_exists.1 (typed.named _ b named found)
      have member := Slots.mem_of_lookup found
      obtain ⟨isValue, -, room⟩ := typed.value member known
      simp only [known, Option.getD_some, guard_returns, ClassForge.bind_returns] at h
      obtain ⟨-, _, mid, run, stored⟩ := h
      have piece : Piece site [] w mid := (value.codeAs_grows _ _).piece valid (by simp) run
      have small := typed.small
      have wide : 0 < d.kind.width := by cases kind : d.kind <;> first | exact absurd kind isValue | decide
      refine store_flows sees valid (typed.typed b member d known).2 isValue run
        (show emit (.store d.kind b.offset) { mid with slots := mid.slots } = .ok u later from stored)
        (Nat.le_refl _) (by rw [piece.slots]; exact room) (by omega) fun v among => ?_
      exact (typed.apart member known among).imp id fun apart => ⟨among, (typed.below among).1, apart⟩
  next field =>
    cases Context.resolveHead_reached resolved with
    | staticField use isStatic =>
      have types := @types_assignField body _ sees.given here field true (pure ()) value use
        (types_pure () (by rw [isStatic]; rfl))
      exact types.flows (types.grows.piece valid (by simp) h) rfl h
  next receiver field =>
    cases Context.resolveHead_reached resolved with
    | field reached isObject use isInstance =>
      obtain ⟨name, isObject⟩ := Option.isSome_iff_exists.1 isObject
      have loaded := @types_place _ body [] [] (fun _ => here) _ _ reached
      rw [Descriptor.kind_of_className isObject] at loaded
      have types := @types_assignField body _ sees.given here field (receiver = .this) (place receiver) value use
        (by rw [isInstance]; exact loaded)
      exact types.flows (types.grows.piece valid (by simp) h) rfl h
  next => exact (throw_returns.1 h).elim

theorem jumpUnless_flows {condition : Expr} {target : Label} (ready : w.code.Ready target)
    (h : jumpUnless site condition target w = .ok u later) :
    Flows body w later (site.rest w.slots) (site.rest w.slots) [(target, site.rest w.slots)] := by
  have types := sees.types condition
  have run := Site.within_returns.1 h
  exact (types.jump false target []).flows ((types.grows.jump false target).piece valid (by simpa using ready) run)
    rfl run

end

end Gen

end ClassForge
