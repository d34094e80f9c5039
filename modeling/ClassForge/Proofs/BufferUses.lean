import ClassForge.Proofs.Transcript

set_option autoImplicit false

namespace ClassForge

namespace CodeBuffer

variable {gaps more : List Fixup} {reached : List Label} {b mid later : CodeBuffer}

-- What an emission does, whether it fails or not: its jumps leave gaps, and labels that it reaches know the
-- depth that is left.
structure Emitted (gaps : List Fixup) (reached : List Label) (b later : CodeBuffer) : Prop where
  adds : ∃ chunks, Adds chunks b later ∧ Chunk.fixups b.pc chunks = gaps
  labels : later.labels = reached.foldl (arriveAt later.depth) b.labels
  grown : b.maxDepth ≤ later.maxDepth
  peak : b.depth ≤ b.maxDepth → later.depth ≤ later.maxDepth
  ends : later.alive = true → b.alive = true

theorem Emitted.refl (b : CodeBuffer) : Emitted [] [] b b :=
  ⟨⟨[], .refl b, rfl⟩, rfl, Nat.le_refl _, id, id⟩

theorem Emitted.trans (first : Emitted gaps [] b mid) (second : Emitted more reached mid later) :
    Emitted (gaps ++ more) reached b later where
  adds := by
    obtain ⟨chunks, adds, rfl⟩ := first.adds
    obtain ⟨others, adds', rfl⟩ := second.adds
    exact ⟨_, adds.trans adds', by rw [Chunk.fixups_append, adds.pc]⟩
  labels := by rw [second.labels, first.labels]; rfl
  grown := first.grown.trans second.grown
  peak := second.peak ∘ first.peak
  ends := first.ends ∘ second.ends

theorem Writes.emitted {item : Item} {pops : Nat} (writes : Writes item pops 0 b later) :
    Emitted (Chunk.fixups b.pc (item.chunks b.pc)) item.targets b later where
  adds := ⟨_, writes.adds, rfl⟩
  labels := by rw [writes.labels, writes.depth, Nat.add_zero]
  grown := writes.grown
  peak := writes.peak
  ends _ := writes.alive

end CodeBuffer

open CodeBuffer (Adds Emitted)

namespace Emit

variable {α β : Type} {b later : CodeBuffer} {e : CodeError}

def Quiet (x : Emit α) : Prop :=
  ∀ b, Emitted [] [] b (leaves x b)

theorem quiet_pure (a : α) : Quiet (pure a : Emit α) :=
  .refl

theorem quiet_bind {x : Emit α} {f : α → Emit β} (first : Quiet x) (second : ∀ a, Quiet (f a)) : Quiet (x >>= f) := by
  intro b
  have first := first b
  rw [leaves_bind]
  cases run : x b with
  | ok a mid =>
    rw [leaves_of_returns run] at first
    exact first.trans (second a mid)
  | error e mid => simpa only [leaves, run] using first

theorem quiet_ite {p : Prop} [Decidable p] {x y : Emit α} (yes : Quiet x) (no : Quiet y) :
    Quiet (if p then x else y) := by
  by_cases h : p
  · rwa [if_pos h]
  · rwa [if_neg h]

theorem quiet_append (bytes : List UInt8) : Quiet (append bytes) :=
  fun b => ⟨⟨_, .append b bytes, rfl⟩, rfl, Nat.le_refl _, id, id⟩

theorem quiet_pop (slots : Nat) : Quiet (pop slots) := by
  intro b
  change Emitted [] [] b (leaves (if b.depth < slots then throw _ else modify _ : Emit Unit) b)
  split_ifs
  · exact .refl b
  · exact ⟨⟨[], ⟨(Adds.refl b).bytes, (Adds.refl b).fixups⟩, rfl⟩, rfl, Nat.le_refl _, (Nat.sub_le _ _).trans, id⟩

theorem quiet_push (slots : Nat) : Quiet (push slots) := by
  intro b
  change Emitted [] [] b (leaves (if 65535 < b.depth + slots then throw _ else modify _ : Emit Unit) b)
  split_ifs
  · exact .refl b
  · exact ⟨⟨[], ⟨(Adds.refl b).bytes, (Adds.refl b).fixups⟩, rfl⟩, rfl, Nat.le_max_left _ _, fun _ =>
      Nat.le_max_right _ _, id⟩

theorem quiet_kill : Quiet (modify (·.kill) : Emit Unit) :=
  fun b => ⟨⟨[], ⟨(Adds.refl b).bytes, (Adds.refl b).fixups⟩, rfl⟩, rfl, Nat.le_refl _, id, fun alive => by cases alive⟩

theorem quiet_effect (pops pushes : Nat) : Quiet (effect pops pushes) :=
  quiet_bind (quiet_pop pops) fun _ => quiet_push pushes

theorem leaves_whenAlive (x : Emit Unit) (b : CodeBuffer) :
    leaves (whenAlive x) b = if b.alive then leaves x b else b := by
  change leaves (if b.alive = true then x else pure ()) b = _
  split_ifs <;> rfl

theorem quiet_whenAlive {x : Emit Unit} (quiet : Quiet x) : Quiet (whenAlive x) := by
  intro b
  rw [leaves_whenAlive]
  split_ifs
  · exact quiet b
  · exact .refl b

theorem quiet_fixed (opcode : Opcode) (operands : List UInt8) : Quiet (fixed opcode operands) := by
  refine quiet_bind ?_ fun (_, _) => quiet_bind (quiet_append _) fun _ => quiet_effect _ _
  unfold stackEffect
  cases opcode.stackEffect? with
  | none => exact .refl
  | some effect => exact quiet_pure effect

theorem quiet_op (opcode : Opcode) : Quiet (op opcode) :=
  quiet_whenAlive (quiet_bind (quiet_fixed opcode []) fun _ => quiet_ite quiet_kill (quiet_pure ()))

theorem quiet_smallInt (value : Int) : Quiet (smallInt value) := by
  refine quiet_ite ?_ (quiet_ite ?_ (quiet_ite ?_ (quiet_pure false)))
  · exact quiet_bind (quiet_op _) fun _ => quiet_pure true
  · exact quiet_bind (quiet_whenAlive (quiet_fixed _ _)) fun _ => quiet_pure true
  · exact quiet_bind (quiet_whenAlive (quiet_fixed _ _)) fun _ => quiet_pure true

theorem quiet_constant (index : UInt16) (width : Nat) : Quiet (constant index width) := by
  refine quiet_whenAlive ?_
  split_ifs <;> exact quiet_bind (quiet_append _) fun _ => quiet_push width

theorem quiet_invoke (opcode : Opcode) (index : UInt16) (args returns : Nat) :
    Quiet (invoke opcode index args returns) := by
  refine quiet_whenAlive (quiet_bind (quiet_append _) fun _ => ?_)
  exact quiet_ite (quiet_bind (quiet_append _) fun _ => quiet_effect _ _) (quiet_effect _ _)

theorem leaves_pop_bind (slots : Nat) (f : Unit → Emit β) : leaves (pop slots >>= f) b =
    if b.depth < slots then b else leaves (f ()) { b with depth := b.depth - slots } := by
  have run : pop slots b = if b.depth < slots then .error .stackUnderflow b
      else .ok () { b with depth := b.depth - slots } := by
    change (if b.depth < slots then throw .stackUnderflow
      else modify fun b => { b with depth := b.depth - slots } : Emit Unit) b = _
    split_ifs <;> rfl
  rw [leaves_bind, run]
  split_ifs <;> rfl

theorem returns_forM {xs : List α} {f : α → Emit Unit} (each : ∀ x b, ∃ later, f x b = .ok () later) (b : CodeBuffer) :
    ∃ later, xs.forM f b = .ok () later := by
  induction xs generalizing b with
  | nil => exact ⟨b, rfl⟩
  | cons x xs ih =>
    obtain ⟨mid, first⟩ := each x b
    obtain ⟨later, rest⟩ := ih mid
    exact ⟨later, bind_returns.2 ⟨(), mid, first, rest⟩⟩

end Emit

inductive BufferUse where
  | perform (call : BufferCall)
  | markDead
  deriving DecidableEq

namespace BufferUse

def step : BufferUse → Emit Unit
  | .perform call => call.step
  | .markDead => modify (·.kill)

def emits : BufferUse → Bool
  | .markDead | .perform .newLabel | .perform (.place _) => false
  | _ => true

theorem emits_or (use : BufferUse) : use.emits = true ∧ (∀ label, use ≠ .perform (.place label)) ∨
    use = .markDead ∨ use = .perform .newLabel ∨ ∃ label, use = .perform (.place label) := by
  cases use with
  | markDead => simp
  | perform call => cases call <;> simp [emits]

-- A jump whose opcode is unknown fails before it writes anything, and a switch on an empty stack fails between
-- its padding and its entries.
def gaps (b : CodeBuffer) : BufferUse → List Fixup
  | .perform (.jump opcode target) =>
    if b.alive ∧ opcode.stackEffect?.isSome then Chunk.fixups b.pc ((Item.jump opcode target).chunks b.pc) else []
  | .perform (.lookupSwitch default pairs) =>
    if b.alive ∧ 0 < b.depth then Chunk.fixups b.pc ((Item.switch default pairs).chunks b.pc) else []
  | _ => []

-- The labels that a jump or a switch leads to, when it is made in code that is alive and finds what it takes
-- off the stack.
def reached (b : CodeBuffer) : BufferUse → List Label
  | .perform (.jump opcode target) => if b.alive ∧ opcode.stackEffect?.any (·.1 ≤ b.depth) then [target] else []
  | .perform (.lookupSwitch default pairs) => if b.alive ∧ 0 < b.depth then default :: pairs.map (·.2) else []
  | _ => []

def after (b : CodeBuffer) : List BufferUse → CodeBuffer
  | [] => b
  | use :: rest => after (leaves use.step b) rest

theorem after_append (b : CodeBuffer) (uses more : List BufferUse) :
    after b (uses ++ more) = after (after b uses) more := by
  induction uses generalizing b with
  | nil => rfl
  | cons use rest ih => exact ih _

open Emit

variable {b : CodeBuffer} {use : BufferUse}

theorem step_dead (dead : b.alive = false) (emits : use.emits = true) : leaves use.step b = b := by
  have idle (x : Emit Unit) : whenAlive x b = .ok () b := whenAlive_returns.2 (.inl ⟨dead, rfl⟩)
  match use with
  | .perform (.op _) | .perform (.ret _) | .perform (.opByte ..) | .perform (.opWord ..) | .perform (.constant ..)
  | .perform (.load ..) | .perform (.store ..) | .perform (.invoke ..) | .perform (.field ..) | .perform (.jump ..)
  | .perform (.lookupSwitch ..) => exact leaves_of_returns (idle _)
  | .perform (.smallInt value) =>
    have found : ∃ found, smallInt value b = .ok found b := by
      unfold smallInt
      split_ifs
      · exact ⟨true, bind_returns.2 ⟨(), b, idle _, rfl⟩⟩
      · exact ⟨true, bind_returns.2 ⟨(), b, idle _, rfl⟩⟩
      · exact ⟨true, bind_returns.2 ⟨(), b, idle _, rfl⟩⟩
      · exact ⟨false, rfl⟩
    obtain ⟨found, run⟩ := found
    exact leaves_of_returns (bind_returns.2 ⟨found, b, run, rfl⟩)

-- The bytes and the gap are there before the stack is looked at.
theorem emitted_jump {opcode : Opcode} {target : Label} (alive : b.alive = true) :
    Emitted (gaps b (.perform (.jump opcode target))) (reached b (.perform (.jump opcode target))) b
      (leaves (jump opcode target) b) := by
  rw [gaps, reached, jump, leaves_whenAlive, if_pos alive, stackEffect]
  cases opcode.stackEffect? with
  | none =>
    rw [if_neg (by simp), if_neg (by simp)]
    exact .refl b
  | some effect =>
    have adds : Adds ((Item.jump opcode target).chunks b.pc) b ((b.append [opcode, 0, 0]).addFixup
        { opcodePc := b.pc, operandPc := b.pc + 1, label := target, isWide := false }) :=
      ⟨by simp [CodeBuffer.append, CodeBuffer.addFixup, Item.chunks, Chunk.blank],
        by simp [CodeBuffer.append, CodeBuffer.addFixup, Item.chunks, Chunk.fixups]⟩
    rw [if_pos ⟨alive, rfl⟩]
    change Emitted _ _ b (leaves (pop effect.1 >>= fun _ => modify (·.recordArrival target) >>= fun _ =>
      endPath opcode) _)
    rw [leaves_pop_bind]
    change Emitted _ _ b (if b.depth < effect.1 then _ else _)
    by_cases enough : effect.1 ≤ b.depth
    · rw [if_pos ⟨alive, by simpa using enough⟩, if_neg (Nat.not_lt.2 enough), leaves_bind]
      change Emitted _ _ b (leaves (if opcode.isReturn || opcode = .athrow || opcode = .goto then modify _
        else return) _)
      split_ifs
      all_goals
        exact ⟨⟨_, ⟨adds.bytes, adds.fixups⟩, rfl⟩, rfl, Nat.le_refl _, (Nat.sub_le _ _).trans, fun _ => alive⟩
    · rw [if_neg fun both => enough (by simpa using both.2), if_pos (Nat.not_le.1 enough)]
      exact ⟨⟨_, adds, rfl⟩, rfl, Nat.le_refl _, id, id⟩

theorem emitted_lookupSwitch {default : Label} {pairs : List (Int × Label)} (alive : b.alive = true) :
    Emitted (gaps b (.perform (.lookupSwitch default pairs))) (reached b (.perform (.lookupSwitch default pairs))) b
      (leaves (lookupSwitch default pairs) b) := by
  rw [gaps, reached]
  by_cases enough : 0 < b.depth
  · rw [if_pos ⟨alive, enough⟩, if_pos ⟨alive, enough⟩]
    have returned : ∃ later, lookupSwitch default pairs b = .ok () later := by
      have filled (start : CodeBuffer) := @returns_forM _ pairs (fun pair => do
        append (Bytes.u4 (UInt32.ofInt pair.1))
        switchTarget b.pc pair.2) (fun _ _ => ⟨_, rfl⟩) start
      exact ⟨_, whenAlive_returns.2 (.inr ⟨alive, bind_returns.2 ⟨b, b, rfl, bind_returns.2 ⟨(), _, rfl,
        bind_returns.2 ⟨(), _, pop_returns.2 ⟨enough, rfl⟩, bind_returns.2 ⟨(), _, rfl, bind_returns.2 ⟨(), _, rfl,
        bind_returns.2 ⟨(), _, (filled _).choose_spec, rfl⟩⟩⟩⟩⟩⟩⟩)⟩
    obtain ⟨later, run⟩ := returned
    rw [leaves_of_returns run]
    exact ((lookupSwitch_returns run).writes alive).emitted
  · rw [if_neg fun both => enough both.2, if_neg fun both => enough both.2, lookupSwitch, leaves_whenAlive,
      if_pos alive]
    change Emitted [] [] b (leaves (pop 1 >>= _) (b.append _))
    rw [leaves_pop_bind]
    change Emitted [] [] b (if b.depth < 1 then _ else _)
    rw [if_pos (by omega)]
    exact quiet_append _ b

theorem step_emitted (b : CodeBuffer) (emits : use.emits = true) :
    Emitted (use.gaps b) (use.reached b) b (leaves use.step b) := by
  cases alive : b.alive with
  | false =>
    have none : use.gaps b = [] ∧ use.reached b = [] := by
      unfold gaps reached
      simp only [alive, Bool.false_eq_true, false_and, if_false]
      split <;> exact ⟨rfl, rfl⟩
    rw [step_dead alive emits, none.1, none.2]
    exact .refl b
  | true =>
    match use with
    | .perform (.op opcode) => exact quiet_op opcode b
    | .perform (.opByte ..) | .perform (.opWord ..) => exact quiet_whenAlive (quiet_fixed _ _) b
    | .perform (.smallInt value) => exact quiet_bind (quiet_smallInt value) (fun _ => quiet_pure ()) b
    | .perform (.constant index width) => exact quiet_constant index width b
    | .perform (.load ..) => exact quiet_whenAlive (quiet_bind (quiet_append _) fun _ => quiet_push _) b
    | .perform (.store ..) => exact quiet_whenAlive (quiet_bind (quiet_append _) fun _ => quiet_pop _) b
    | .perform (.ret kind) => exact quiet_op _ b
    | .perform (.invoke opcode index args returns) => exact quiet_invoke opcode index args returns b
    | .perform (.field ..) => exact quiet_whenAlive (quiet_bind (quiet_append _) fun _ => quiet_effect _ _) b
    | .perform (.jump opcode target) => exact emitted_jump alive
    | .perform (.lookupSwitch default pairs) => exact emitted_lookupSwitch alive

end BufferUse

end ClassForge
