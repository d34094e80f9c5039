import ClassForge.Proofs.Descriptors
import ClassForge.Proofs.ExprGrowth
import ClassForge.Proofs.SlotStack

set_option autoImplicit false

namespace ClassForge

structure Lowered (site : Site) (fresh : Nat) (targets : List Label) (w later : Workspace) : Prop
    extends Growth site fresh targets w later where
  slots : w.slots.Extends later.slots

namespace Lowered

variable {site : Site} {fresh fewer : Nat} {targets others : List Label} {w mid later : Workspace}

theorem of_grown (grown : Grown site fresh targets w later) : Lowered site fresh targets w later where
  toGrowth := grown.toGrowth
  slots := by
    rw [grown.slots]
    exact .refl _

theorem trans (first : Lowered site fresh targets w mid) (second : Lowered site fresh targets mid later) :
    Lowered site fresh targets w later :=
  ⟨first.toGrowth.trans second.toGrowth, first.slots.trans second.slots⟩

theorem mono (lowered : Lowered site fresh targets w later) (less : fewer ≤ fresh)
    (known : ∀ label ∈ targets, label.index < fewer → label ∈ others) :
    Lowered site fewer others w later :=
  ⟨lowered.toGrowth.mono less known, lowered.slots⟩

theorem inside (lowered : Lowered site fresh [] w later) (less : fewer ≤ fresh) :
    Lowered site fewer targets w later :=
  lowered.mono less (by simp)

end Lowered

variable {w later : Workspace}

@[simp]
theorem Site.within_returns {α : Type} {site : Site} {step : Context → Gen α} {a : α} :
    site.within step w = .ok a later ↔ step { toSite := site, slots := w.slots } w = .ok a later := by
  simp [within, context]

variable {field : FieldTarget} {isDirect isFinal : Bool} {name : String} {u : Unit} {labels : List Label}
  {ctx : Context} {d : Descriptor} {type : TypeName} {value : Expr}

namespace Gen

variable {site : Site} {targets : List Label}

theorem moves_within {α : Type} {R : Workspace → Workspace → Prop} {step : Context → Gen α}
    (each : ∀ slots, Moves R (step { toSite := site, slots })) : Moves R (site.within step) :=
  fun w a later h => each w.slots w a later (Site.within_returns.1 h)

theorem isReturn_returnOpcode (kind : Kind) : Instruction.operandLength? 0 kind.returnOpcode [] = some 0 := by
  cases kind <;> rfl

theorem grows_ret {kind : Kind} (same : kind.returnOpcode = site.returns.kind.returnOpcode) :
    Grows site targets (emit (.ret kind)) := by
  refine (grows_emit (Emit.puts_op (isReturn_returnOpcode kind)) fun pool => ?_).more (List.nil_subset _)
  rw [same]
  exact .ret

theorem grows_returnValue (value : Option Expr) : Grows site [] (returnValue site value) := by
  cases value with
  | none =>
    refine moves_guard fun isVoid => grows_ret ?_
    rw [not_ne_iff.1 isVoid]
    rfl
  | some value =>
    refine moves_guard fun _ => moves_bind (moves_within fun slots => ?_) fun _ => grows_ret rfl
    exact value.codeAs_grows { toSite := site, slots } site.returns

theorem grows_valueWithin (value : Expr) : Grows site targets (site.within fun ctx => (value.code ctx).value none) :=
  moves_within fun slots =>
    ((value.code_composed { toSite := site, slots }).grows.value none).more (List.nil_subset _)

theorem grows_raise (value : Expr) : Grows site [] (raise site value) :=
  moves_bind (grows_valueWithin value) fun _ => moves_guard fun _ => grows_op rfl

theorem grows_popValue (d : Descriptor) : Grows site targets (popValue d) := by
  unfold popValue
  split
  · exact moves_pure _
  · exact grows_op rfl
  · exact grows_op rfl

theorem grows_evaluate (value : Expr) : Grows site [] (evaluate site value) :=
  moves_bind (grows_valueWithin value) fun d => grows_popValue d

theorem grows_jumpUnless (condition : Expr) (target : Label) : Grows site [target] (jumpUnless site condition target) :=
  moves_within fun slots => (condition.code_composed { toSite := site, slots }).grows.jump false target

theorem grows_scrutinee (value : Expr) : Grows site targets (scrutinee site value) :=
  moves_bind (grows_valueWithin value) fun _ => moves_ite (fun _ => moves_throw _) fun _ => moves_pure _

theorem mayAssign_final (h : mayAssign site field isDirect = true) (isFinal : field.isFinal = true) :
    (site.isInitializer = true ∧ field.owner = site.self ∧ field.isStatic = site.isStatic) ∧ isDirect = true := by
  simp only [mayAssign, isFinal, Bool.not_true, Bool.false_or, Bool.and_eq_true, decide_eq_true_eq] at h
  obtain ⟨⟨⟨initial, own⟩, direct⟩, same⟩ := h
  exact ⟨⟨initial, own, same⟩, direct⟩

theorem grows_put (use : ctx.MayUse field) (may : mayAssign ctx.toSite field isDirect = true) :
    Grows ctx.toSite targets (place.access (if field.isStatic then .putstatic else .putfield) field) :=
  grows_field (by split_ifs <;> simp) fun _ _ ref =>
    .write use.has use.allowed (fun isFinal => (mayAssign_final may isFinal).1) ref

theorem grows_assignField {receiver : Gen Unit}
    (use : ctx.MayUse field) (grows : Grows ctx.toSite [] receiver) (value : Expr) :
    Grows ctx.toSite [] (assignField ctx.toSite ctx field isDirect receiver value) :=
  moves_guard fun may => moves_bind grows fun _ => moves_bind (value.codeAs_grows ctx _) fun _ =>
    grows_put use (not_not.1 may)

theorem grows_assign (target : Head) (value : Expr) : Grows site [] (assign site target value) := by
  refine moves_within fun slots => moves_check fun base resolved => ?_
  split
  next name slot d isFinal =>
    exact moves_guard fun _ => moves_bind (value.codeAs_grows _ _) fun _ => grows_store _ _
  next field =>
    cases Context.resolveHead_reached resolved with
    | staticField use => exact grows_assignField use (moves_pure ()) value
  next receiver field =>
    cases Context.resolveHead_reached resolved with
    | field reached _ use => exact grows_assignField use (grows_place reached) value
  next => exact moves_throw _

def bound (slots : Slots) (name : String) (d : Descriptor) (isFinal : Bool) : Slots :=
  { slots with
    bindings := { name := some name, offset := slots.size, width := d.width, descriptor := some d,
                  isFinal } :: slots.bindings
    size := slots.size + d.width
    maxSize := max slots.maxSize (slots.size + d.width) }

theorem bind_run {slot : Nat} (h : Gen.bind name d isFinal w = .ok slot later) :
    slot = w.slots.size ∧ w.slots.size + d.width ≤ 65535 ∧
      later = { w with slots := bound w.slots name d isFinal } := by
  unfold Gen.bind at h
  split at h
  next slot' slots made =>
    cases h
    obtain ⟨rfl, fits, rfl⟩ := Slots.append_returns made
    refine ⟨rfl, fits, ?_⟩
    cases isFinal
    · rfl
    · rw [if_pos rfl, Slots.setFinal_latest rfl rfl]
      rfl
  next => cases h

theorem extends_bound {slots : Slots}
    (new : slots.lookup? name = none) (value : 0 < d.width) (fits : slots.size + d.width ≤ 65535) :
    slots.Extends (bound slots name d isFinal) where
  stack := ⟨[_], rfl, .cons .nil rfl value⟩
  keeps := by
    intro other b found
    have apart : ¬ some name = some other := by
      rintro same
      rw [Option.some_inj.1 same, found] at new
      cases new
    rw [Slots.lookup?, bound, List.find?_cons_of_neg (by simpa using apart)]
    exact found
  scopes := rfl
  grown := Nat.le_max_left _ _
  peak := fun _ => Nat.le_max_right _ _
  small := fun small => Nat.max_le.2 ⟨small, fits⟩

theorem declare_run (h : declare site isFinal type name value w = .ok u later) :
    ∃ d mid mid' slot, w.slots.lookup? name = none ∧ site.scope.descriptor type = .ok d ∧ d ≠ .void ∧
      value.codeAs { toSite := site, slots := w.slots } d w = .ok () mid ∧
      Gen.bind name d isFinal mid = .ok slot mid' ∧ emit (.store d.kind slot) mid' = .ok () later := by
  simp only [declare, bind_returns, get_returns, guard_returns, check_returns, Site.within_returns] at h
  obtain ⟨_, _, ⟨rfl, rfl⟩, new, d, _, ⟨typed, rfl⟩, value', _, mid, run, slot, mid', bound, stored⟩ := h
  exact ⟨d, mid, mid', slot, by simpa using new, typed, value', run, bound, stored⟩

theorem declare_lowered
    (valid : w.pool.Valid)
    (h : declare site isFinal type name value w = .ok u later) : Lowered site w.code.labels.size [] w later := by
  obtain ⟨d, mid, mid', slot, new, typed, value', run, named, stored⟩ := declare_run h
  have grown := value.codeAs_grows { toSite := site, slots := w.slots } d _ _ _ run valid (by simp)
  have size := grown.size
  obtain ⟨-, fits, rfl⟩ := bind_run named
  have grown' : Grown site mid.code.labels.size [] { mid with slots := bound mid.slots name d isFinal } later :=
    grows_store d.kind slot { mid with slots := bound mid.slots name d isFinal } () later stored grown.valid (by simp)
  refine ⟨grown.toGrowth.trans ?_, ?_⟩
  · have rest := grown'.toGrowth.mono size fun label member _ => member
    exact ⟨rest.valid, rest.pool, rest.code⟩
  · rw [grown'.slots, ← grown.slots]
    exact extends_bound (grown.slots ▸ new) (Scope.width_pos typed value') fits

theorem checkReachable_returns : checkReachable w = .ok u later ↔ w.code.alive = true ∧ w = later := by
  cases h : w.code.alive <;> simp [checkReachable, h]

theorem grows_lookupSwitch (default : Label) (pairs : List (Int × Label)) :
    Grows site (Item.switch default pairs).targets (emit (.lookupSwitch default pairs)) := by
  refine grows_emit (a := ()) ⟨trivial, fun b _ later h => ?_⟩ fun _ => .switch _ _
  exact ⟨rfl, _, _, Emit.lookupSwitch_returns h⟩

end Gen

theorem Lower.block_run {body : Lower Unit} (h : Lower.block body w = .ok u later) :
    ∃ inner, body { w with slots := w.slots.openScope } = .ok () inner ∧
      later = { inner with slots := inner.slots.closeScope } := by
  simp only [Lower.block, ClassForge.bind_returns, modify_returns] at h
  obtain ⟨_, _, rfl, _, inner, run, rfl⟩ := h
  exact ⟨inner, run, rfl⟩

theorem Branch.mem_of_targets {branches : List Branch} {pair : Int × Label}
    (member : pair ∈ Branch.targets branches labels) : pair.2 ∈ labels := by
  simp only [Branch.targets, List.mem_filterMap, Option.map_eq_some_iff] at member
  obtain ⟨_, -, label, found, rfl⟩ := member
  exact List.mem_of_getElem? found

end ClassForge
