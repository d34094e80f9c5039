import ClassForge.Proofs.PlacedLabels

set_option autoImplicit false

namespace ClassForge

def Cause.IsLimit : Cause → Prop
  | .pool _ => True
  | .code .codeTooLarge => True
  | .code (.branchTooFar _) => True
  | _ => False

def CompileError.IsLimit (e : CompileError) : Prop :=
  e.location = none ∧ e.cause.IsLimit

structure CodeBuffer.Straight (jumps : Array Fixup) (depth : Nat) (b : CodeBuffer) : Prop where
  alive : b.alive = true
  depth : b.depth = depth
  jumps : b.fixups = jumps

open CodeBuffer (Straight)

section Keeps

variable {ε σ α β : Type} {code : σ → CodeBuffer} {E : ε → Prop} {P Q R : CodeBuffer → Prop} {f : α → EStateM ε σ β}
  {xs : List α}

def Ends (code : σ → CodeBuffer) (E : ε → Prop) (Q : CodeBuffer → Prop) : EStateM.Result ε σ α → Prop
  | .ok _ later => Q (code later)
  | .error e _ => E e

def Keeps (code : σ → CodeBuffer) (E : ε → Prop) (P Q : CodeBuffer → Prop) (step : EStateM ε σ α) : Prop :=
  ∀ s, P (code s) → Ends code E Q (step s)

theorem keeps_pure (a : α) : Keeps code E P P (pure a : EStateM ε σ α) :=
  fun _ holds => holds

theorem keeps_bind {x : EStateM ε σ α} (first : Keeps code E P Q x)
    (second : ∀ a, Keeps code E Q R (f a)) : Keeps code E P R (x >>= f) := by
  intro s holds
  have step := first s holds
  change Ends code E R (EStateM.bind x f s)
  unfold EStateM.bind
  cases run : x s with
  | ok a later => exact second a later (by rwa [run] at step)
  | error e later => rwa [run] at step

theorem keeps_mapM (each : ∀ x, Keeps code E P P (f x)) : Keeps code E P P (xs.mapM f) := by
  induction xs with
  | nil => exact keeps_pure []
  | cons x xs ih =>
    rw [List.mapM_cons]
    exact keeps_bind (each x) fun _ => keeps_bind ih fun _ => keeps_pure _

theorem keeps_forM {f : α → EStateM ε σ Unit} (each : ∀ x, Keeps code E P P (f x)) : Keeps code E P P (xs.forM f) := by
  induction xs with
  | nil => exact keeps_pure ()
  | cons x xs ih => exact keeps_bind (each x) fun _ => ih

end Keeps

namespace Emit

variable {α : Type} {P Q : CodeBuffer → Prop} {jumps : Array Fixup} {d pops pushes : Nat} {opcode : Opcode}
  {b : CodeBuffer}

abbrev Keeps (P Q : CodeBuffer → Prop) (step : Emit α) : Prop :=
  ClassForge.Keeps id (fun _ => False) P Q step

theorem Keeps.returns {step : Emit α} (kept : Keeps P Q step) (holds : P b) :
    ∃ a later, step b = .ok a later ∧ Q later := by
  have ends := kept b holds
  cases run : step b with
  | ok a later => exact ⟨a, later, rfl, by rwa [run] at ends⟩
  | error e later => rw [run] at ends; exact ends.elim

theorem keeps_modify {f : CodeBuffer → CodeBuffer} (kept : ∀ b, P b → Q (f b)) : Keeps P Q (modify f : Emit PUnit) :=
  kept

theorem keeps_append (bytes : List UInt8) : Keeps (Straight jumps d) (Straight jumps d) (append bytes) :=
  keeps_modify fun _ straight => ⟨straight.alive, straight.depth, straight.jumps⟩

theorem keeps_pop {n : Nat} (enough : n ≤ d) : Keeps (Straight jumps d) (Straight jumps (d - n)) (pop n) := by
  intro b straight
  change Ends _ _ _ ((if b.depth < n then throw .stackUnderflow else modify _ : Emit PUnit) b)
  rw [if_neg (Nat.not_lt.2 (straight.depth ▸ enough))]
  exact ⟨straight.alive, straight.depth ▸ rfl, straight.jumps⟩

theorem keeps_push {n : Nat} (fits : d + n ≤ 65535) : Keeps (Straight jumps d) (Straight jumps (d + n)) (push n) := by
  intro b straight
  change Ends _ _ _ ((if 65535 < b.depth + n then throw .depthOverflow else modify _ : Emit PUnit) b)
  rw [if_neg (Nat.not_lt.2 (straight.depth ▸ fits))]
  exact ⟨straight.alive, straight.depth ▸ rfl, straight.jumps⟩

theorem keeps_effect (enough : pops ≤ d) (fits : d - pops + pushes ≤ 65535) :
    Keeps (Straight jumps d) (Straight jumps (d - pops + pushes)) (effect pops pushes) :=
  keeps_bind (keeps_pop enough) fun _ => keeps_push fits

theorem keeps_whenAlive {step : Emit Unit} (kept : Keeps (Straight jumps d) Q step) :
    Keeps (Straight jumps d) Q (whenAlive step) := by
  intro b (straight : b.Straight jumps d)
  change Ends _ _ _ ((if b.alive = true then step else pure ()) b)
  rw [if_pos straight.alive]
  exact kept b straight

section

variable (known : opcode.stackEffect? = some (pops, pushes))
include known

theorem keeps_fixed (operands : List UInt8) (enough : pops ≤ d) (fits : d - pops + pushes ≤ 65535) :
    Keeps (Straight jumps d) (Straight jumps (d - pops + pushes)) (fixed opcode operands) := by
  unfold fixed stackEffect
  rw [known]
  change Keeps _ _ (do append (opcode :: operands); effect pops pushes)
  exact keeps_bind (keeps_append _) fun _ => keeps_effect enough fits

theorem keeps_op (enough : pops ≤ d) (fits : d - pops + pushes ≤ 65535)
    (goesOn : (opcode.isReturn || opcode = .athrow || opcode = .goto) = false) :
    Keeps (Straight jumps d) (Straight jumps (d - pops + pushes)) (op opcode) := by
  refine keeps_whenAlive (keeps_bind (keeps_fixed known [] enough fits) fun _ => ?_)
  unfold endPath
  rw [goesOn]
  exact keeps_pure ()

theorem keeps_opByte (operand : UInt8) (enough : pops ≤ d) (fits : d - pops + pushes ≤ 65535) :
    Keeps (Straight jumps d) (Straight jumps (d - pops + pushes)) (opByte opcode operand) :=
  keeps_whenAlive (keeps_fixed known _ enough fits)

theorem keeps_opWord (operand : UInt16) (enough : pops ≤ d) (fits : d - pops + pushes ≤ 65535) :
    Keeps (Straight jumps d) (Straight jumps (d - pops + pushes)) (opWord opcode operand) :=
  keeps_whenAlive (keeps_fixed known _ enough fits)

end

theorem keeps_constant (index : UInt16) {width : Nat} (fits : d + width ≤ 65535) :
    Keeps (Straight jumps d) (Straight jumps (d + width)) (constant index width) := by
  refine keeps_whenAlive ?_
  split_ifs
  · exact keeps_bind (keeps_append _) fun _ => keeps_push fits
  · exact keeps_bind (keeps_append _) fun _ => keeps_push fits
  · exact keeps_bind (keeps_append _) fun _ => keeps_push fits

theorem keeps_load (kind : Kind) (slot : Nat) (fits : d + kind.width ≤ 65535) :
    Keeps (Straight jumps d) (Straight jumps (d + kind.width)) (load kind slot) :=
  keeps_whenAlive (keeps_bind (keeps_append _) fun _ => keeps_push fits)

theorem keeps_field (opcode : Opcode) (index : UInt16) (width : Nat) (enough : (fieldEffect opcode width).1 ≤ d)
    (fits : d - (fieldEffect opcode width).1 + (fieldEffect opcode width).2 ≤ 65535) :
    Keeps (Straight jumps d) (Straight jumps (d - (fieldEffect opcode width).1 + (fieldEffect opcode width).2))
      (field opcode index width) :=
  keeps_whenAlive (keeps_bind (keeps_append _) fun _ => keeps_effect enough fits)

theorem keeps_ret (kind : Kind) (enough : kind.width ≤ d) (fits : d ≤ 65535) :
    Keeps (Straight jumps d) (fun b => b.fixups = jumps) (ret kind) := by
  have known : kind.returnOpcode.stackEffect? = some (kind.width, 0) := by cases kind <;> decide
  refine keeps_whenAlive (keeps_bind (keeps_fixed known [] enough (by omega)) fun _ => ?_)
  unfold endPath
  split_ifs
  · exact keeps_modify fun _ straight => straight.jumps
  · exact fun _ straight => straight.jumps

theorem keeps_ret_settled : Keeps (CodeBuffer.Settled []) (CodeBuffer.Settled []) (ret .void) := by
  intro b settled
  have ended : ∃ u later, ret .void b = .ok u later := by
    cases alive : b.alive with
    | true =>
      have fits := settled.depth.trans settled.small
      obtain ⟨u, later, run, -⟩ := (keeps_ret .void (Nat.zero_le _) fits).returns ⟨alive, rfl, rfl⟩
      exact ⟨u, later, run⟩
    | false => exact ⟨(), b, whenAlive_returns.2 (.inl ⟨alive, rfl⟩)⟩
  obtain ⟨u, later, run⟩ := ended
  obtain ⟨_, _, -, written⟩ := op_returns run
  rw [run]
  exact settled.writes (by simp [Item.targets]) written

theorem keeps_invoke (opcode : Opcode) (index : UInt16) {args returns : Nat}
    (takes : (if opcode = .invokestatic then args else args + 1) = pops) (enough : pops ≤ d)
    (fits : d - pops + returns ≤ 65535) :
    Keeps (Straight jumps d) (Straight jumps (d - pops + returns)) (invoke opcode index args returns) := by
  unfold invoke
  rw [takes]
  refine keeps_whenAlive (keeps_bind (keeps_append _) fun _ => ?_)
  split_ifs
  · exact keeps_bind (keeps_append _) fun _ => keeps_effect enough fits
  · exact keeps_effect enough fits

theorem smallInt_straight (value : Int) (straight : b.Straight jumps d) (fits : d < 65535) :
    (∃ later, smallInt value b = .ok true later ∧ later.Straight jumps (d + 1)) ∨ smallInt value b = .ok false b := by
  have taken {step : Emit Unit} (kept : Keeps (Straight jumps d) (Straight jumps (d - 0 + 1)) step) :
      ∃ later, (do step; return true : Emit Bool) b = .ok true later ∧ later.Straight jumps (d + 1) := by
    obtain ⟨u, later, run, straight⟩ := kept.returns straight
    exact ⟨later, bind_returns.2 ⟨u, later, run, rfl⟩, straight⟩
  unfold smallInt
  split_ifs with tiny
  · refine .inl (taken (keeps_op (stackEffect_iconst tiny.1 tiny.2) (Nat.zero_le _) fits ?_))
    obtain ⟨low, high⟩ := tiny
    interval_cases value <;> decide
  · exact .inl (taken (keeps_opByte rfl _ (Nat.zero_le _) fits))
  · exact .inl (taken (keeps_opWord rfl _ (Nat.zero_le _) fits))
  · exact .inr rfl

end Emit

namespace Gen

variable {α β : Type} {P Q R : CodeBuffer → Prop} {d : Nat} {step : Emit α} {f : α → Gen β}

abbrev Keeps (P Q : CodeBuffer → Prop) (step : Gen α) : Prop :=
  ClassForge.Keeps Workspace.code Cause.IsLimit P Q step

theorem keeps_emit (kept : step.Keeps P Q) : Keeps P Q (emit step) := by
  intro w holds
  obtain ⟨a, code, run, holds⟩ := kept.returns holds
  rw [emit_returns.2 ⟨code, run, rfl⟩]
  exact holds

theorem keeps_then (kept : step.Keeps P Q) (next : ∀ a, Keeps Q R (f a)) : Keeps P R (emit step >>= f) :=
  keeps_bind (keeps_emit kept) next

theorem keeps_pooled (step : Pooled α) : Keeps P P (pooled step) := by
  intro w holds
  obtain ⟨pool, code, slots⟩ := w
  dsimp only [pooled]
  cases step pool with
  | ok a pool => exact holds
  | error error pool => exact trivial

theorem keeps_refer {step : Pooled α} (next : ∀ a, Keeps P Q (f a)) : Keeps P Q (pooled step >>= f) :=
  keeps_bind (keeps_pooled step) next

theorem keeps_pushInt (value : Int) (fits : d < 65535) :
    Keeps (Straight #[] d) (Straight #[] (d + 1)) (pushInt value) := by
  intro w straight
  change Ends _ _ _ (EStateM.bind _ _ w)
  unfold EStateM.bind
  rcases Emit.smallInt_straight value straight fits with ⟨code, run, straight⟩ | run
  · rw [emit_returns.2 ⟨code, run, rfl⟩]
    exact straight
  · rw [emit_returns.2 ⟨w.code, run, rfl⟩]
    exact keeps_refer (fun index => keeps_emit (Emit.keeps_constant index fits)) w straight

theorem keeps_finish (maxLocals : Nat) (placed : ∀ b, P b → ∀ fixup ∈ b.fixups.toList,
    (CodeBuffer.position b.labels fixup.label).isSome = true) : Keeps P (fun _ => True) (finish maxLocals) := by
  intro w holds
  have read (f : Workspace → Gen CodeAttribute) : (get >>= f) w = f w w := rfl
  unfold finish
  rw [read]
  cases done : w.code.finish with
  | ok code =>
    refine keeps_refer (Q := fun _ => True) ?_ w holds
    exact fun _ _ _ => trivial
  | error error =>
    rcases CodeBuffer.finish_error (placed _ holds) done with rfl | ⟨offset, rfl⟩
    · trivial
    · trivial

end Gen

namespace Lower

variable {α : Type} {P Q : CodeBuffer → Prop}

abbrev Keeps (P Q : CodeBuffer → Prop) (step : Lower α) : Prop :=
  ClassForge.Keeps Workspace.code (fun error => error.location = none → error.cause.IsLimit) P Q step

theorem keeps_unlocated {x : Gen α} (kept : Gen.Keeps P Q x) : Keeps P Q x.unlocated := by
  intro w holds
  have ends := kept w holds
  unfold Gen.unlocated
  cases run : x w with
  | ok a later => rwa [run] at ends
  | error cause later => exact fun _ => by rwa [run] at ends

theorem keeps_located {x : Gen α} {labels : List Label} (settles : Gen.Settles [] x) (location : Location) :
    Keeps (CodeBuffer.Settled labels) (CodeBuffer.Settled labels) (x.located location) := by
  intro w settled
  unfold Gen.located
  cases run : x w with
  | ok a later => exact settles _ _ _ run _ (List.nil_subset _) settled
  | error cause later => exact fun missing => by cases missing

end Lower

theorem Field.keeps_lowerInits (site : Site) (fields : List Field) :
    Lower.Keeps (CodeBuffer.Settled []) (CodeBuffer.Settled []) (Field.lowerInits site fields) := by
  induction fields with
  | nil => exact keeps_pure ()
  | cons field rest ih =>
    exact keeps_bind (Lower.keeps_located (Field.lowerInit_settles site field) _) fun _ => ih

namespace Build

variable {α : Type} {location : Location}

section Pool

variable {P : CompileError → Prop} (pool : ∀ error, P { cause := .pool error })
include pool

theorem failsOnly_pooled (step : Pooled α) : FailsOnly P (pooled step) := by
  intro before error later h
  unfold pooled at h
  cases run : step before with
  | ok a mid =>
    rw [run] at h
    cases h
  | error cause mid =>
    rw [run] at h
    cases h
    exact pool cause

variable {name : String} {options : Options} {generic : Option String} {flags : UInt16}

theorem failsOnly_textAttribute {text : String} : FailsOnly P (textAttribute name text) :=
  failsOnly_bind (failsOnly_pooled pool _) fun _ => failsOnly_bind (failsOnly_pooled pool _) fun _ => failsOnly_pure _

theorem failsOnly_signature : FailsOnly P (signature options generic) := by
  cases generic with
  | none => exact failsOnly_pure _
  | some text =>
    exact failsOnly_ite (failsOnly_pure _) (failsOnly_bind (failsOnly_textAttribute pool) fun _ => failsOnly_pure _)

theorem failsOnly_field {d : Descriptor} : FailsOnly P (field options flags name d generic) :=
  failsOnly_bind (failsOnly_pooled pool _) fun _ => failsOnly_bind (failsOnly_pooled pool _) fun _ =>
    failsOnly_bind (failsOnly_signature pool) fun _ => failsOnly_pure _

theorem failsOnly_method {d : MethodDescriptor} {code : Option CodeAttribute} :
    FailsOnly P (method options flags name d code generic) :=
  failsOnly_bind (failsOnly_pooled pool _) fun _ => failsOnly_bind (failsOnly_pooled pool _) fun _ =>
    failsOnly_bind (failsOnly_signature pool) fun _ => failsOnly_pure _

theorem failsOnly_header {self superclass : String} {interfaces : List String} :
    FailsOnly P (header self superclass interfaces) :=
  failsOnly_bind (failsOnly_pooled pool _) fun _ => failsOnly_bind (failsOnly_pooled pool _) fun _ =>
    failsOnly_bind (failsOnly_mapM fun _ _ => failsOnly_pooled pool _) fun _ => failsOnly_pure _

end Pool

abbrev Bounded (step : Build α) : Prop :=
  FailsOnly (fun error => error.location = none → error.cause.IsLimit) step

theorem isLimit_pool (error : PoolError) : CompileError.IsLimit { cause := .pool error } :=
  ⟨rfl, trivial⟩

theorem bounded_pool (error : PoolError) : ({ cause := .pool error } : CompileError).location = none →
    Cause.IsLimit (.pool error) :=
  fun _ => trivial

theorem bounded_check {result : Except Cause α} : Bounded (check (ClassForge.located location result)) := by
  intro pool error later h missing
  cases result with
  | ok a => cases h
  | error cause =>
    cases h
    cases missing

theorem bounded_located {step : Build α} : Bounded (step.located location) := by
  intro pool error later h missing
  unfold located at h
  cases run : step pool with
  | ok a mid =>
    rw [run] at h
    cases h
  | error cause mid =>
    rw [run] at h
    cases h
    revert missing
    unfold CompileError.locate
    cases cause.location <;> simp

theorem bounded_lower {P Q : CodeBuffer → Prop} {step : Lower α} {slots : Slots} (kept : Lower.Keeps P Q step)
    (start : P {}) : Bounded (Lower.run slots step) := by
  intro pool error later h
  have ends := kept { pool, slots } start
  unfold Lower.run at h
  cases run : step { pool, slots } with
  | ok a w => simp [run] at h
  | error cause w =>
    rw [run] at h ends
    cases h
    exact ends

theorem isLimit_run {P Q : CodeBuffer → Prop} {step : Gen α} (kept : Gen.Keeps P Q step) (start : P {}) :
    FailsOnly CompileError.IsLimit (Gen.run step) := by
  intro pool error later h
  have ends := kept { pool, slots := {} } start
  unfold Gen.run Lower.run Gen.unlocated at h
  cases run : step { pool, slots := {} } with
  | ok a w => simp [run] at h
  | error cause w =>
    rw [run] at h ends
    cases h
    exact ⟨rfl, ends⟩

theorem isLimit_written {step : Gen Unit} (maxLocals : Nat)
    (kept : Gen.Keeps (Straight #[] 0) (fun b => b.fixups = #[]) step) :
    FailsOnly CompileError.IsLimit (Gen.method maxLocals step) := by
  refine isLimit_run (keeps_bind kept fun _ => Gen.keeps_finish maxLocals fun b jumpless => ?_) ⟨rfl, rfl, rfl⟩
  simp [jumpless]

end Build

namespace Assembly

open Gen (keeps_then keeps_refer keeps_emit keeps_pushInt)
open Build (bounded_check bounded_pool isLimit_pool isLimit_written failsOnly_field failsOnly_method
  failsOnly_header failsOnly_signature)

namespace Enumeration

variable (t : Target)

theorem isLimit_valuesCode : FailsOnly CompileError.IsLimit (valuesCode t) := by
  refine isLimit_written 0 (keeps_refer fun _ => ?_)
  refine keeps_then (Emit.keeps_field .getstatic _ 1 (by decide) (by decide)) fun _ => ?_
  refine keeps_refer fun _ => keeps_then (Emit.keeps_invoke .invokevirtual _ rfl (by decide) (by decide)) fun _ => ?_
  refine keeps_refer fun _ => keeps_then (Emit.keeps_opWord rfl _ (by decide) (by decide)) fun _ => ?_
  exact keeps_emit (Emit.keeps_ret .reference (by decide) (by decide))

theorem isLimit_valueOfCode : FailsOnly CompileError.IsLimit (valueOfCode t) := by
  refine isLimit_written 1 (keeps_refer fun _ => keeps_then (Emit.keeps_constant _ (by decide)) fun _ => ?_)
  refine keeps_then (Emit.keeps_load .reference 0 (by decide)) fun _ => ?_
  refine keeps_refer fun _ => keeps_then (Emit.keeps_invoke .invokestatic _ rfl (by decide) (by decide)) fun _ => ?_
  refine keeps_then (Emit.keeps_opWord rfl _ (by decide) (by decide)) fun _ => ?_
  exact keeps_emit (Emit.keeps_ret .reference (by decide) (by decide))

theorem isLimit_constructorCode : FailsOnly CompileError.IsLimit constructorCode := by
  refine isLimit_written 3 (keeps_then (Emit.keeps_load .reference 0 (by decide)) fun _ => ?_)
  refine keeps_then (Emit.keeps_load .reference 1 (by decide)) fun _ => ?_
  refine keeps_then (Emit.keeps_load .int 2 (by decide)) fun _ => ?_
  refine keeps_refer fun _ => keeps_then (Emit.keeps_invoke .invokespecial _ rfl (by decide) (by decide)) fun _ => ?_
  exact keeps_emit (Emit.keeps_ret .void (by decide) (by decide))

theorem keeps_construct (self init : UInt16) (value : String) (ordinal : Nat) :
    Gen.Keeps (Straight #[] 0) (Straight #[] 0) (construct t self init value ordinal) := by
  refine keeps_refer fun _ => keeps_then (Emit.keeps_opWord rfl _ (by decide) (by decide)) fun _ => ?_
  refine keeps_then (Emit.keeps_op rfl (by decide) (by decide) rfl) fun _ => ?_
  refine keeps_refer fun _ => keeps_then (Emit.keeps_constant _ (by decide)) fun _ => ?_
  refine keeps_bind (keeps_pushInt _ (by decide)) fun _ => ?_
  refine keeps_then (Emit.keeps_invoke .invokespecial _ rfl (by decide) (by decide)) fun _ => ?_
  exact keeps_then (Emit.keeps_field .putstatic _ 1 (by decide) (by decide)) fun _ => keeps_pure _

theorem keeps_collect (field : UInt16) (ordinal : Nat) :
    Gen.Keeps (Straight #[] 1) (Straight #[] 1) (collect field ordinal) := by
  refine keeps_then (Emit.keeps_op rfl (by decide) (by decide) rfl) fun _ => ?_
  refine keeps_bind (keeps_pushInt _ (by decide)) fun _ => ?_
  refine keeps_then (Emit.keeps_field .getstatic _ 1 (by decide) (by decide)) fun _ => ?_
  have stored : Opcode.aastore.stackEffect? = some (3, 0) := rfl
  exact keeps_emit (Emit.keeps_op stored (by decide) (by decide) rfl)

theorem isLimit_staticInitCode (values : List String) : FailsOnly CompileError.IsLimit (staticInitCode t values) := by
  refine isLimit_written 0 (keeps_refer fun _ => keeps_refer fun _ => ?_)
  refine keeps_bind (keeps_mapM fun value => keeps_construct t _ _ value.1 value.2) fun fields => ?_
  refine keeps_bind (keeps_pushInt _ (by decide)) fun _ => ?_
  refine keeps_then (Emit.keeps_opWord rfl _ (by decide) (by decide)) fun _ => ?_
  refine keeps_bind (keeps_forM fun field => keeps_collect field.1 field.2) fun _ => ?_
  refine keeps_refer fun _ => keeps_then (Emit.keeps_field .putstatic _ 1 (by decide) (by decide)) fun _ => ?_
  exact keeps_emit (Emit.keeps_ret .void (by decide) (by decide))

theorem isLimit_contents (values : List String) : FailsOnly CompileError.IsLimit (contents t values) := by
  refine failsOnly_bind (failsOnly_header isLimit_pool) fun _ =>
    failsOnly_bind (failsOnly_signature isLimit_pool) fun _ => ?_
  refine failsOnly_bind (failsOnly_mapM fun _ _ => failsOnly_field isLimit_pool) fun _ => ?_
  refine failsOnly_bind (failsOnly_field isLimit_pool) fun _ => ?_
  refine failsOnly_bind (isLimit_valuesCode t) fun _ => failsOnly_bind (failsOnly_method isLimit_pool) fun _ => ?_
  refine failsOnly_bind (isLimit_valueOfCode t) fun _ => failsOnly_bind (failsOnly_method isLimit_pool) fun _ => ?_
  refine failsOnly_bind isLimit_constructorCode fun _ => failsOnly_bind (failsOnly_method isLimit_pool) fun _ => ?_
  refine failsOnly_bind (isLimit_staticInitCode t values) fun _ =>
    failsOnly_bind (failsOnly_method isLimit_pool) fun _ => ?_
  exact failsOnly_pure _

end Enumeration

namespace Record

variable (t : Target)

theorem width_le (c : Component) : c.type.width ≤ 2 := by
  unfold Descriptor.width
  cases c.type.kind <;> decide

theorem keeps_store (slot : Nat) (components : List Component) :
    Gen.Keeps (Straight #[] 0) (Straight #[] 0) (store t slot components) := by
  induction components generalizing slot with
  | nil => exact keeps_pure slot
  | cons c rest ih =>
    have narrow := width_le c
    refine keeps_then (Emit.keeps_load .reference 0 (by decide)) fun _ => ?_
    refine keeps_then (Emit.keeps_load c.type.kind slot ?_) fun _ => ?_
    · change 0 + 1 + c.type.width ≤ 65535
      omega
    -- The value and the receiver are all that is on the stack.
    have emptied : 0 + 1 + c.type.width - (c.type.width + 1) + 0 = 0 := by omega
    refine keeps_refer fun index => keeps_then (Emit.keeps_field .putfield index c.type.width ?_ ?_) fun _ => ?_
    · change c.type.width + 1 ≤ 0 + 1 + c.type.width
      omega
    · change 0 + 1 + c.type.width - (c.type.width + 1) + 0 ≤ 65535
      omega
    · change Gen.Keeps (Straight #[] (0 + 1 + c.type.width - (c.type.width + 1) + 0)) _ _
      rw [emptied]
      exact ih _

theorem isLimit_constructorCode (components : List Component) :
    FailsOnly CompileError.IsLimit (constructorCode t components) := by
  refine Build.isLimit_run (P := Straight #[] 0) (Q := fun _ => True) ?_ ⟨rfl, rfl, rfl⟩
  refine keeps_then (Emit.keeps_load .reference 0 (by decide)) fun _ => ?_
  refine keeps_refer fun _ => keeps_then (Emit.keeps_invoke .invokespecial _ rfl (by decide) (by decide)) fun _ => ?_
  refine keeps_bind (keeps_store t 1 components) fun maxLocals => ?_
  refine keeps_then (Emit.keeps_ret .void (by decide) (by decide)) fun _ => ?_
  exact Gen.keeps_finish maxLocals fun b jumpless => by simp [jumpless]

theorem isLimit_accessorCode (c : Component) : FailsOnly CompileError.IsLimit (accessorCode t c) := by
  have narrow := width_le c
  refine isLimit_written 1 (keeps_then (Emit.keeps_load .reference 0 (by decide)) fun _ => ?_)
  refine keeps_refer fun index => keeps_then (Emit.keeps_field .getfield index c.type.width (Nat.le_refl 1) ?_)
    fun _ => ?_
  · change 1 - 1 + c.type.width ≤ 65535
    omega
  refine keeps_emit (Emit.keeps_ret c.type.kind ?_ ?_)
  · change c.type.width ≤ 1 - 1 + c.type.width
    omega
  · change 1 - 1 + c.type.width ≤ 65535
    omega

theorem bounded_contents (fields : List Field) : (contents t fields).Bounded := by
  have limit (e : CompileError) (isLimit : e.IsLimit) : e.location = none → e.cause.IsLimit := fun _ => isLimit.2
  refine failsOnly_bind (failsOnly_header bounded_pool) fun _ => failsOnly_bind (bounded_check) fun _ => ?_
  refine failsOnly_bind (failsOnly_signature bounded_pool) fun _ =>
    failsOnly_bind (failsOnly_mapM fun field _ => ?_) fun components => ?_
  · refine failsOnly_bind (bounded_check) fun _ => failsOnly_bind (bounded_check) fun _ => ?_
    exact failsOnly_bind (failsOnly_field bounded_pool) fun _ => failsOnly_pure _
  refine failsOnly_bind ((isLimit_constructorCode t _).mono limit) fun _ =>
    failsOnly_bind (failsOnly_method bounded_pool) fun _ => ?_
  refine failsOnly_bind (failsOnly_mapM fun c _ => ?_) fun _ => failsOnly_pure _
  exact failsOnly_bind ((isLimit_accessorCode t c.1).mono limit) fun _ => failsOnly_method bounded_pool

end Record

namespace Target

variable (t : Target)

theorem bounded_staticInitCode : (t.program.staticInitCode t.decl).Bounded := by
  refine failsOnly_ite (failsOnly_pure _) (failsOnly_bind ?_ fun _ => failsOnly_pure _)
  refine Build.bounded_lower (Q := fun _ => True) ?_ CodeBuffer.Settled.empty
  refine keeps_bind (Field.keeps_lowerInits _ _) fun _ => ?_
  refine keeps_bind (Lower.keeps_unlocated (keeps_emit Emit.keeps_ret_settled)) fun _ => ?_
  intro w settled
  exact Lower.keeps_unlocated (Gen.keeps_finish _ fun _ settled => settled.jumps_placed) w settled

theorem bounded_staticInit : t.staticInit.Bounded := by
  refine failsOnly_bind t.bounded_staticInitCode fun code => ?_
  cases code with
  | none => exact failsOnly_pure _
  | some code => exact failsOnly_bind (failsOnly_method bounded_pool) fun _ => failsOnly_pure _

theorem bounded_members {α β : Type} {line : α → Nat} {step : α → Build β} {items : List α} :
    (t.members line step items).Bounded :=
  failsOnly_mapM fun _ _ => Build.bounded_located

theorem bounded_classContents (body : ClassBody) : (t.classContents body).Bounded := by
  refine failsOnly_bind (bounded_check) fun _ => failsOnly_bind (bounded_check) fun _ => ?_
  refine failsOnly_bind (failsOnly_header bounded_pool) fun _ => failsOnly_bind (bounded_check) fun _ => ?_
  refine failsOnly_bind (failsOnly_signature bounded_pool) fun _ => failsOnly_bind (t.bounded_members) fun _ => ?_
  refine failsOnly_bind (t.bounded_members) fun _ => failsOnly_bind (t.bounded_members) fun _ => ?_
  exact failsOnly_bind t.bounded_staticInit fun _ => failsOnly_pure _

theorem bounded_interfaceContents (parents : List TypeName) (methods : List Method) :
    (t.interfaceContents parents methods).Bounded := by
  refine failsOnly_bind (bounded_check) fun _ => failsOnly_bind (failsOnly_header bounded_pool) fun _ => ?_
  refine failsOnly_bind (bounded_check) fun _ => failsOnly_bind (failsOnly_signature bounded_pool) fun _ => ?_
  exact failsOnly_bind (t.bounded_members) fun _ => failsOnly_pure _

theorem bounded_build : t.build.Bounded := by
  have contents : t.contents.Bounded := by
    unfold contents
    split
    · exact t.bounded_classContents _
    · exact t.bounded_interfaceContents _ _
    · exact (Enumeration.isLimit_contents t _).mono fun _ isLimit _ => isLimit.2
    · exact Record.bounded_contents t _
  refine failsOnly_bind contents fun _ => failsOnly_bind ?_ fun _ => failsOnly_pure _
  refine failsOnly_ite (failsOnly_pure _) (failsOnly_bind ?_ fun _ => failsOnly_pure _)
  exact Build.failsOnly_textAttribute bounded_pool

end Target

end Assembly

end ClassForge
