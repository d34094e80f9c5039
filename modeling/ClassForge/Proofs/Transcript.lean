import ClassForge.Proofs.ExprGrowth
import ClassForge.Proofs.Reading

set_option autoImplicit false

namespace ClassForge

inductive BufferCall where
  | op (opcode : Opcode)
  | opByte (opcode : Opcode) (operand : UInt8)
  | opWord (opcode : Opcode) (operand : UInt16)
  | smallInt (value : Int)
  | constant (index : UInt16) (width : Nat)
  | load (kind : Kind) (slot : Nat)
  | store (kind : Kind) (slot : Nat)
  | ret (kind : Kind)
  | invoke (opcode : Opcode) (index : UInt16) (args returns : Nat)
  | field (opcode : Opcode) (index : UInt16) (width : Nat)
  | jump (opcode : Opcode) (target : Label)
  | lookupSwitch (default : Label) (pairs : List (Int × Label))
  | newLabel
  | place (label : Label)
  deriving DecidableEq

variable {items : List Item} {label : Label} {pc : Nat}

namespace BufferCall

def step : BufferCall → Emit Unit
  | .op opcode => .op opcode
  | .opByte opcode operand => .opByte opcode operand
  | .opWord opcode operand => .opWord opcode operand
  | .smallInt value => do let _ ← Emit.smallInt value
  | .constant index width => .constant index width
  | .load kind slot => .load kind slot
  | .store kind slot => .store kind slot
  | .ret kind => .ret kind
  | .invoke opcode index args returns => .invoke opcode index args returns
  | .field opcode index width => .field opcode index width
  | .jump opcode target => .jump opcode target
  | .lookupSwitch default pairs => .lookupSwitch default pairs
  | .newLabel => do let _ ← Emit.newLabel
  | .place label => .place label

def run : List BufferCall → Emit Unit
  | [] => return
  | call :: rest => do
    call.step
    run rest

def Proper : BufferCall → Prop
  | .op opcode => Instruction.operandLength? 0 opcode [] = some 0
  | .opByte opcode _ => opcode ∈ [Opcode.bipush, .newarray]
  | .opWord opcode _ => opcode ∈ [Opcode.sipush, .new, .anewarray, .checkcast, .instanceof]
  | .load kind slot => kind ≠ .void ∧ slot < 65536
  | .store kind slot => kind ≠ .void ∧ slot < 65536
  | .invoke opcode _ args _ =>
    opcode ∈ [Opcode.invokevirtual, .invokespecial, .invokestatic, .invokeinterface] ∧ args ≤ 254
  | .field opcode _ _ => opcode ∈ [Opcode.getstatic, .putstatic, .getfield, .putfield]
  | .jump opcode _ => opcode.isBranch = true
  | .lookupSwitch _ pairs => ∀ pair ∈ pairs, -2147483648 ≤ pair.1 ∧ pair.1 < 2147483648
  | .smallInt _ | .constant .. | .ret _ | .newLabel | .place _ => True

def writes : BufferCall → Bool
  | .smallInt value => -32768 ≤ value ∧ value ≤ 32767
  | .newLabel | .place _ => false
  | _ => true

-- The calls that wrote an instruction, each with the place where the buffer stood.
def written : CodeBuffer → List BufferCall → List (Nat × BufferCall)
  | _, [] => []
  | b, call :: rest =>
    (if b.alive && call.writes then [(b.pc, call)] else []) ++ written (leaves call.step b) rest

def lastPlace (label : Label) : CodeBuffer → List BufferCall → Option Nat
  | _, [] => none
  | b, call :: rest =>
    (lastPlace label (leaves call.step b) rest).or (if call = .place label then some b.pc else none)

def ReadsAs (placed : Label → Option Nat) (i : Instruction) : BufferCall → Prop
  | .op opcode => i.opcode = opcode ∧ i.operands = []
  | .opByte opcode operand => i.opcode = opcode ∧ i.operands = [operand]
  | .opWord opcode operand =>
    i.opcode = opcode ∧ i.operands.length = 2 ∧ i.wordOperand? = some operand
  | .smallInt value => i.pushedInt? = some value ∧ i.operands.length =
    if -1 ≤ value ∧ value ≤ 5 then 0 else if -128 ≤ value ∧ value ≤ 127 then 1 else 2
  | .constant index width => i.constant? = some (index, decide (width = 2)) ∧ i.operands.length =
    if width ≠ 2 ∧ index ≤ 255 then 1 else 2
  | .load kind slot => i.loaded? = some (kind, slot) ∧ i.operands.length =
    if slot ≤ 3 then 0 else if slot ≤ 255 then 1 else 3
  | .store kind slot => i.stored? = some (kind, slot) ∧ i.operands.length =
    if slot ≤ 3 then 0 else if slot ≤ 255 then 1 else 3
  | .ret kind => i.opcode.returned? = some kind ∧ i.operands = []
  | .invoke opcode index args _ =>
    i.opcode = opcode ∧ i.wordOperand? = some index ∧
      (i.operands.drop 2).map UInt8.toNat = if opcode = .invokeinterface then [args + 1, 0] else []
  | .field opcode index _ => i.opcode = opcode ∧ i.operands.length = 2 ∧ i.wordOperand? = some index
  | .jump opcode target => i.opcode = opcode ∧ i.operands.length = 2 ∧
    ∃ pc, placed target = some pc ∧ i.branchTarget? = some pc
  | .lookupSwitch default pairs => i.opcode = .lookupswitch ∧
    i.operands.take (Instruction.padding i.pc) = List.replicate (Instruction.padding i.pc) 0 ∧
    ∃ pc targets, placed default = some pc ∧
      List.Forall₂ (fun pair target => target.1 = pair.1 ∧ placed pair.2 = some target.2) pairs targets ∧
      i.switchTargets? = some (pc, targets)
  | .newLabel | .place _ => False

def item : BufferCall → Item
  | .op opcode => .plain opcode []
  | .opByte opcode operand => .plain opcode [operand]
  | .opWord opcode operand => .plain opcode (Bytes.u2 operand)
  | .smallInt value => .smallInt value
  | .constant index width => .constant index width
  | .load kind slot => .load kind slot
  | .store kind slot => .store kind slot
  | .ret kind => .plain kind.returnOpcode []
  | .invoke opcode index args _ => .invoke opcode index args
  | .field opcode index _ => .plain opcode (Bytes.u2 index)
  | .jump opcode target => .jump opcode target
  | .lookupSwitch default pairs => .switch default pairs
  | .newLabel | .place _ => .plain .nop []

variable {b later : CodeBuffer} {call : BufferCall} {calls : List BufferCall} {u : Unit}

theorem step_puts (proper : call.Proper) (writes : call.writes = true) : call.step.Puts call.item () := by
  cases call with
  | op opcode => exact Emit.puts_op proper
  | opByte opcode operand =>
    simp only [Proper, List.mem_cons, List.not_mem_nil, or_false] at proper
    rcases proper with rfl | rfl <;> exact Emit.puts_fixed rfl rfl
  | opWord opcode operand =>
    simp only [Proper, List.mem_cons, List.not_mem_nil, or_false] at proper
    rcases proper with rfl | rfl | rfl | rfl | rfl <;> exact Emit.puts_fixed rfl rfl
  | smallInt value =>
    have puts := @Emit.puts_smallInt value (by simpa [BufferCall.writes] using writes)
    refine ⟨puts.formed, fun b _ later h => ?_⟩
    simp only [step, bind_returns, pure_returns] at h
    obtain ⟨found, mid, run, -, rfl⟩ := h
    exact ⟨rfl, (puts.returns _ _ _ run).2⟩
  | constant index width => exact Emit.puts_constant
  | load kind slot => exact Emit.puts_load kind slot
  | store kind slot => exact Emit.puts_store kind slot
  | ret kind => exact Emit.puts_op (by cases kind <;> rfl)
  | invoke opcode index args returns => exact Emit.puts_invoke proper.1
  | field opcode index width => exact Emit.puts_field proper
  | jump opcode target => exact Emit.puts_jump proper target
  | lookupSwitch default pairs => exact ⟨trivial, fun b _ later h => ⟨rfl, _, _, Emit.lookupSwitch_returns h⟩⟩
  | newLabel | place label => cases writes

theorem step_silent (silent : call.writes = false) (h : call.step b = .ok u later) :
    (∃ value, call = .smallInt value ∧ later = b) ∨ (call = .newLabel ∧ later = b.withLabel) ∨
      ∃ label, call = .place label ∧ later = b.place label := by
  cases call with
  | smallInt value =>
    simp only [step, bind_returns, pure_returns] at h
    obtain ⟨found, mid, run, -, rfl⟩ := h
    simp only [BufferCall.writes, decide_eq_false_iff_not] at silent
    rcases Emit.smallInt_returns run with ⟨-, same, -⟩ | ⟨-, small, -⟩
    · exact .inl ⟨value, rfl, same⟩
    · exact absurd small silent
  | newLabel =>
    simp only [step, bind_returns, pure_returns, Emit.newLabel, modifyGet_returns] at h
    obtain ⟨label, mid, ⟨-, made⟩, -, same⟩ := h
    exact .inr (.inl ⟨rfl, same.symm.trans made.symm⟩)
  | place label =>
    simp only [step, Emit.place, modify_returns] at h
    exact .inr (.inr ⟨label, rfl, h.symm⟩)
  | _ => cases silent

theorem step_holds (proper : call.Proper) (h : call.step b = .ok u later) (holds : b.Holds items) :
    later.Holds (items ++ if b.alive && call.writes then [call.item] else []) := by
  cases writes : call.writes with
  | true =>
    have puts := step_puts proper writes
    obtain ⟨-, pops, pushes, ⟨dead, rfl⟩ | done⟩ := puts.returns _ _ _ h
    · simpa [dead] using holds
    · simpa [done.alive] using done.holds puts.formed holds
  | false =>
    rw [Bool.and_false, if_neg (by simp), List.append_nil]
    rcases step_silent writes h with ⟨-, -, rfl⟩ | ⟨-, rfl⟩ | ⟨label, -, rfl⟩
    · exact holds
    · exact holds.congr rfl rfl
    · refine holds.congr ?_ ?_ <;> rw [CodeBuffer.place_eq]

-- The calls after the first start from the buffer that it leaves.
theorem run_cons (h : run (call :: calls) b = .ok u later) :
    call.step b = .ok () (leaves call.step b) ∧ run calls (leaves call.step b) = .ok u later := by
  simp only [run, bind_returns] at h
  obtain ⟨_, mid, first, rest⟩ := h
  rw [leaves_of_returns first]
  exact ⟨first, rest⟩

theorem run_holds (proper : ∀ call ∈ calls, call.Proper) (h : run calls b = .ok u later) (holds : b.Holds items) :
    later.Holds (items ++ (written b calls).map (·.2.item)) ∧
      Item.listing b.pc ((written b calls).map (·.2.item)) =
        (written b calls).map (fun entry => (entry.1, entry.2.item)) := by
  induction calls generalizing b items with
  | nil =>
    obtain ⟨-, rfl⟩ := pure_returns.1 h
    simpa [written, Item.layout] using holds
  | cons call rest ih =>
    obtain ⟨first, h⟩ := run_cons h
    have next := step_holds (proper call (by simp)) first holds
    obtain ⟨done, listed⟩ := ih (fun call member => proper call (by simp [member])) h next
    simp only [written]
    cases live : b.alive && call.writes with
    | false =>
      have same : (leaves call.step b).pc = b.pc := by
        rw [next.pc_eq, holds.pc_eq, live]
        simp
      rw [live] at done
      rw [same] at listed
      exact ⟨by simpa using done, by simpa using listed⟩
    | true =>
      have after : (leaves call.step b).pc = b.pc + call.item.size b.pc := by
        rw [next.pc_eq, live, Item.endFrom_append, ← holds.pc_eq]
        rfl
      rw [live] at done
      rw [after] at listed
      refine ⟨by simpa using done, ?_⟩
      simpa [Item.layout] using listed

theorem step_pc (proper : call.Proper) (h : call.step b = .ok u later) : b.pc ≤ later.pc := by
  cases writes : call.writes with
  | true =>
    obtain ⟨-, pops, pushes, ⟨-, rfl⟩ | done⟩ := (step_puts proper writes).returns _ _ _ h
    · exact Nat.le_refl _
    · rw [done.pc]
      exact Nat.le_add_right _ _
  | false =>
    rcases step_silent writes h with ⟨-, -, rfl⟩ | ⟨-, rfl⟩ | ⟨label, -, rfl⟩
    · exact Nat.le_refl _
    · exact Nat.le_refl _
    · exact Nat.le_of_eq (by rw [CodeBuffer.place_eq]; rfl)

theorem run_pc (proper : ∀ call ∈ calls, call.Proper) (h : run calls b = .ok u later) : b.pc ≤ later.pc := by
  induction calls generalizing b with
  | nil =>
    obtain ⟨-, rfl⟩ := pure_returns.1 h
    exact Nat.le_refl _
  | cons call rest ih =>
    obtain ⟨first, h⟩ := run_cons h
    apply Nat.le_trans (step_pc (proper call (by simp)) first)
    exact ih (fun call member => proper call (by simp [member])) h

theorem lastPlace_le (proper : ∀ call ∈ calls, call.Proper) (h : run calls b = .ok u later)
    (placed : lastPlace label b calls = some pc) : pc ≤ later.pc := by
  induction calls generalizing b with
  | nil => cases placed
  | cons call rest ih =>
    have grows := run_pc proper h
    obtain ⟨first, h⟩ := run_cons h
    rw [lastPlace, Option.or_eq_some_iff] at placed
    rcases placed with further | ⟨-, here⟩
    · exact ih (fun call member => proper call (by simp [member])) h further
    · split_ifs at here
      rwa [← Option.some_inj.1 here]

theorem step_position (proper : call.Proper) (h : call.step b = .ok u later)
    (stands : CodeBuffer.position later.labels label = some pc) :
    (if call = .place label then some b.pc else none).or (CodeBuffer.position b.labels label) = some pc := by
  cases writes : call.writes with
  | true =>
    rw [if_neg (by rintro rfl; cases writes), Option.none_or]
    obtain ⟨-, pops, pushes, ⟨-, rfl⟩ | done⟩ := (step_puts proper writes).returns _ _ _ h
    · exact stands
    · rwa [done.labels, CodeBuffer.position_foldl_arriveAt] at stands
  | false =>
    rcases step_silent writes h with ⟨value, rfl, rfl⟩ | ⟨rfl, rfl⟩ | ⟨other, rfl, rfl⟩
    · rwa [if_neg (by simp), Option.none_or]
    · rwa [if_neg (by simp), Option.none_or, ← b.position_withLabel label]
    · rw [CodeBuffer.position_place] at stands
      by_cases same : label = other
      · subst same
        rw [if_pos rfl, Option.some_or]
        -- A label that the buffer does not know stands nowhere.
        have known : label.index < b.labels.size := by
          by_contra unknown
          rw [if_neg fun both => unknown both.2] at stands
          simp [CodeBuffer.position, unknown] at stands
        rwa [if_pos ⟨rfl, known⟩] at stands
      · rw [if_neg (fun both => same both.1)] at stands
        rwa [if_neg (by simpa using Ne.symm same), Option.none_or]

theorem run_position (proper : ∀ call ∈ calls, call.Proper) (h : run calls b = .ok u later)
    (stands : CodeBuffer.position later.labels label = some pc) :
    (lastPlace label b calls).or (CodeBuffer.position b.labels label) = some pc := by
  induction calls generalizing b with
  | nil =>
    obtain ⟨-, rfl⟩ := pure_returns.1 h
    simpa [lastPlace] using stands
  | cons call rest ih =>
    obtain ⟨first, h⟩ := run_cons h
    have found := ih (fun call member => proper call (by simp [member])) h
    rw [lastPlace]
    cases further : lastPlace label (leaves call.step b) rest with
    | some place => simpa [further] using found
    | none =>
      rw [further, Option.none_or] at found
      rw [Option.none_or]
      exact step_position (proper call (by simp)) first found

theorem mem_written {entry : Nat × BufferCall} (member : entry ∈ written b calls) :
    entry.2 ∈ calls ∧ entry.2.writes = true := by
  induction calls generalizing b with
  | nil => cases member
  | cons call rest ih =>
    rw [written, List.mem_append] at member
    rcases member with here | further
    · split_ifs at here with live
      · obtain rfl := List.mem_singleton.1 here
        exact ⟨List.mem_cons_self, (Bool.and_eq_true _ _ ▸ live).2⟩
      · cases here
    · obtain ⟨inside, writes⟩ := ih further
      exact ⟨List.mem_cons_of_mem _ inside, writes⟩

theorem readsAs_item {labels : Array LabelState} {placed : Label → Option Nat}
    (proper : call.Proper) (writes : call.writes = true) (resolved : CodeBuffer.Resolved labels pc call.item)
    (agree : ∀ label target, CodeBuffer.position labels label = some target →
      placed label = some target ∧ target < 65536)
    (fits : pc + call.item.size pc < 65536) :
    ReadsAs placed (call.item.instruction (CodeBuffer.placeOf labels) pc) call := by
  cases call with
  | op opcode | opByte opcode operand => exact ⟨rfl, rfl⟩
  | opWord opcode operand => exact ⟨rfl, rfl, Instruction.wordOperand_u2 operand []⟩
  | smallInt value =>
    simp only [BufferCall.writes, decide_eq_true_eq] at writes
    refine ⟨Item.pushedInt_smallInt _ pc writes.1 writes.2, ?_⟩
    simp only [item, Item.smallInt]
    split_ifs <;> rfl
  | constant index width =>
    refine ⟨Item.constant_constant _ pc index width, ?_⟩
    simp only [item, Item.constant]
    split_ifs <;> first | rfl | (exfalso; tauto)
  | load kind slot => exact ⟨Item.loaded_load _ pc proper.1 proper.2, Item.length_access _ pc⟩
  | store kind slot => exact ⟨Item.stored_store _ pc proper.1 proper.2, Item.length_access _ pc⟩
  | ret kind => exact ⟨Kind.returned_returnOpcode kind, rfl⟩
  | invoke opcode index args returns =>
    refine ⟨rfl, Instruction.wordOperand_u2 index _, ?_⟩
    have kept : (UInt8.ofNat (args + 1)).toNat = args + 1 := by
      rw [UInt8.toNat_ofNat']
      have := proper.2
      omega
    simp only [item, Item.invoke, Item.instruction, Item.operandsWith, Bytes.u2, List.cons_append,
      List.nil_append, List.drop_succ_cons, List.drop_zero]
    split_ifs
    · rw [List.map_cons, kept]
      rfl
    · rfl
  | field opcode index width => exact ⟨rfl, rfl, Instruction.wordOperand_u2 index []⟩
  | jump opcode target =>
    obtain ⟨low, high⟩ := resolved.2 opcode target rfl
    have stands := agree target _ (resolved.1 target (by simp [item, Item.targets]))
    exact ⟨rfl, rfl, _, stands.1, Item.branchTarget_jump proper low high⟩
  | lookupSwitch default pairs =>
    have size : pc + (1 + Instruction.padding pc + 8 + 8 * pairs.length) < 65536 := fits
    have stands {label : Label} (target : label ∈ (Item.switch default pairs).targets) :=
      agree label _ (resolved.1 label target)
    refine ⟨rfl, ?_, _, _, (stands (by simp [Item.targets])).1, ?_,
      Item.switchTargets_switch (by omega) (by omega) fun label target => (stands target).2⟩
    · simp [item, Item.instruction, Item.operandsWith]
    · rw [List.forall₂_map_right_iff, List.forall₂_same]
      intro pair member
      have key := proper pair member
      refine ⟨Int.bmod_eq_of_le (by omega) (by omega), (stands ?_).1⟩
      simp only [Item.targets, List.mem_cons, List.mem_map]
      exact .inr ⟨pair, member, rfl⟩
  | newLabel | place label => cases writes

theorem decode_finish_run {bytes : List UInt8} (proper : ∀ call ∈ calls, call.Proper)
    (h : run calls {} = .ok u b) (finished : b.finish = .ok bytes) :
    ∃ instructions, Instruction.decode bytes = .ok instructions ∧
      List.Forall₂ (fun entry i => i.pc = entry.1 ∧ ReadsAs (lastPlace · {} calls) i entry.2)
        (written {} calls) instructions := by
  have empty : ({} : CodeBuffer).Holds [] := ⟨.refl _, by simp⟩
  obtain ⟨holds, listed⟩ := run_holds proper h empty
  rw [List.nil_append] at holds
  have start : ({} : CodeBuffer).pc = 0 := rfl
  rw [start] at listed
  obtain ⟨decoded, -, small, resolved⟩ := CodeBuffer.finish_returns holds finished
  refine ⟨_, decoded, ?_⟩
  rw [Item.program, Item.layout_eq_flatMap, listed, ← List.map_eq_flatMap, List.map_map,
    List.forall₂_map_right_iff, List.forall₂_same]
  intro entry member
  obtain ⟨inside, writes⟩ := mem_written member
  have place : (entry.1, entry.2.item) ∈ Item.listing 0 ((written {} calls).map (·.2.item)) := by
    rw [listed]
    exact List.mem_map_of_mem member
  refine ⟨rfl, readsAs_item (proper _ inside) writes (resolved _ _ place) ?_ ?_⟩
  · intro label target stands
    have last := run_position proper h stands
    have nowhere : CodeBuffer.position ({} : CodeBuffer).labels label = none := rfl
    rw [nowhere, Option.or_none] at last
    exact ⟨last, by have := lastPlace_le proper h last; omega⟩
  · have := (Item.bounds_of_mem_listing place).2
    rw [← holds.pc_eq] at this
    exact Nat.lt_of_le_of_lt this (by omega)

def loopOnSwitch : List BufferCall :=
  [.newLabel, .newLabel, .newLabel, .smallInt 200, .store .int 2, .place ⟨0⟩, .load .int 2,
    .lookupSwitch ⟨1⟩ [(-7, ⟨2⟩)], .op .nop, .place ⟨2⟩, .jump .goto ⟨0⟩, .place ⟨1⟩, .constant 300 1,
    .ret .int]

theorem decode_finish_run_loopOnSwitch :
    ∃ instructions, Instruction.decode
        [17, 0, 200, 61, 28, 171, 0, 0, 0, 0, 0, 22, 0, 0, 0, 1, 255, 255, 255, 249, 0, 0, 0, 19,
          167, 255, 236, 19, 1, 44, 172] = .ok instructions ∧
      List.Forall₂ (fun entry i => i.pc = entry.1 ∧ ReadsAs (lastPlace · {} loopOnSwitch) i entry.2)
        (written {} loopOnSwitch) instructions := by
  have proper : ∀ call ∈ loopOnSwitch, call.Proper := by
    simp [loopOnSwitch, Proper]
    decide
  have ran : run loopOnSwitch {} = .ok () (leaves (run loopOnSwitch) {}) := rfl
  have finished : (leaves (run loopOnSwitch) {}).finish = .ok
      [17, 0, 200, 61, 28, 171, 0, 0, 0, 0, 0, 22, 0, 0, 0, 1, 255, 255, 255, 249, 0, 0, 0, 19,
        167, 255, 236, 19, 1, 44, 172] := by decide +kernel
  exact decode_finish_run proper ran finished

end BufferCall

end ClassForge
