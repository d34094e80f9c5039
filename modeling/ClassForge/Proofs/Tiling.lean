import ClassForge.Proofs.Decoding

set_option autoImplicit false

namespace ClassForge.Instruction

variable {pc : Nat} {opcode : Opcode} {operands rest other : List UInt8} {n : Nat}

def bytes (i : Instruction) : List UInt8 :=
  i.opcode :: i.operands

structure Tiles (bytes : List UInt8) (instructions : List Instruction) : Prop where
  first : ∀ i ∈ instructions.head?, i.pc = 0
  next : instructions.IsChain fun i j => j.pc = i.pc + 1 + i.operands.length
  last : ∀ i ∈ instructions.getLast?, i.pc + 1 + i.operands.length = bytes.length
  whole : instructions.flatMap Instruction.bytes = bytes

theorem switchLength_ge (h : switchLength? opcode rest = some n) : (if opcode = .lookupswitch then 8 else 12) ≤ n := by
  unfold switchLength? at h
  split_ifs at h ⊢ with isLookup
  · split at h
    · split_ifs at h
      cases h
      exact Nat.le_add_right 8 _
    · cases h
  · split at h
    · split_ifs at h
      cases h
      exact Nat.le_add_right 12 _
    · cases h

theorem switchLength_congr (same : rest.take n = other.take n)
    (enough : (if opcode = .lookupswitch then 8 else 12) ≤ n) :
    switchLength? opcode rest = switchLength? opcode other := by
  have cut {k : Nat} (less : k ≤ n) : rest.take k = other.take k := by
    simpa [List.take_take, Nat.min_eq_left less] using congrArg (List.take k) same
  unfold switchLength?
  split_ifs at enough ⊢ with isLookup
  · rw [cut enough]
  · rw [cut enough]

theorem operandLength_behind (h : operandLength? pc opcode (operands ++ rest) = some operands.length) :
    operandLength? pc opcode (operands ++ other) = some operands.length := by
  unfold operandLength? at h ⊢
  by_cases isWide : opcode = .wide
  · rw [if_pos isWide] at h ⊢
    cases operands with
    | nil =>
      obtain ⟨widened, -, length⟩ := Option.map_eq_some_iff.1 h
      split_ifs at length
    | cons widened more => exact h
  · rw [if_neg isWide] at h ⊢
    by_cases isSwitch : opcode = .tableswitch ∨ opcode = .lookupswitch
    · rw [if_pos isSwitch] at h ⊢
      obtain ⟨n, known, total⟩ := Option.map_eq_some_iff.1 h
      have inside (more : List UInt8) : ((operands ++ more).drop (padding pc)).take n = operands.drop (padding pc) := by
        rw [List.drop_append_of_le_length (by omega), List.take_left' (by rw [List.length_drop]; omega)]
      rw [← switchLength_congr ((inside rest).trans (inside other).symm) (switchLength_ge known)]
      exact h
    · rwa [if_neg isSwitch] at h ⊢

theorem length_of_splitExactly {α : Type} {l taken rest : List α}
    (h : Bytes.splitExactly n l = some (taken, rest)) : taken.length = n := by
  fun_induction Bytes.splitExactly n l generalizing taken rest with
  | case1 l =>
    cases h
    rfl
  | case2 | case4 => cases h
  | case3 n a l taken' rest' split ih =>
    cases h
    rw [List.length_cons, ih split]

def StandFrom : Nat → List Instruction → Prop
  | _, [] => True
  | pc, i :: rest => i.pc = pc ∧ StandFrom (pc + i.bytes.length) rest

theorem StandFrom.tiles {instructions : List Instruction} (stand : StandFrom pc instructions) :
    (∀ i ∈ instructions.head?, i.pc = pc) ∧
      (instructions.IsChain fun i j => j.pc = i.pc + 1 + i.operands.length) ∧
      ∀ i ∈ instructions.getLast?,
        i.pc + 1 + i.operands.length = pc + (instructions.flatMap Instruction.bytes).length := by
  induction instructions generalizing pc with
  | nil => simp
  | cons i rest ih =>
    obtain ⟨rfl, stand⟩ := stand
    obtain ⟨first, next, last⟩ := ih stand
    have length : i.pc + i.bytes.length = i.pc + 1 + i.operands.length := by
      rw [bytes, List.length_cons]
      omega
    refine ⟨by simp, List.isChain_cons.2 ⟨fun j head => (first j head).trans length, next⟩, ?_⟩
    rw [List.flatMap_cons, List.length_append, ← Nat.add_assoc]
    cases rest with
    | nil =>
      rintro j member
      cases member
      exact length.symm
    | cons j rest => simpa using last

theorem decodeFrom_takes (done : List Instruction) (pc : Nat) (bytes : List UInt8) :
    ∃ more later, more.flatMap Instruction.bytes ++ later = bytes ∧ StandFrom pc more ∧
      decodeFrom done pc (more.flatMap Instruction.bytes) = .ok (done.reverse ++ more) ∧
      (later = [] ∨ length? (pc + (more.flatMap Instruction.bytes).length) later = none ∧ later ≠ [] ∧
        decodeFrom done pc bytes = .error (.malformed (pc + (more.flatMap Instruction.bytes).length))) := by
  fun_induction decodeFrom done pc bytes with
  | case1 done pc => exact ⟨[], [], rfl, trivial, by simp [decodeFrom], .inl rfl⟩
  | case2 done pc opcode rest stuck =>
    refine ⟨[], opcode :: rest, rfl, trivial, by simp [decodeFrom], .inr ⟨?_, by simp, rfl⟩⟩
    simp [length?, stuck]
  | case3 done pc opcode rest operands later taken _ ih =>
    obtain ⟨more, left, rfl, stand, decoded, ends⟩ := ih
    obtain ⟨n, known, split⟩ := Option.bind_eq_some_iff.1 taken
    obtain rfl := (Bytes.append_of_splitExactly split).symm
    obtain rfl := length_of_splitExactly split
    have start : pc + 1 + operands.length = pc + (opcode :: operands).length := by
      rw [List.length_cons]
      omega
    have whole : ({ pc, opcode, operands } :: more : List Instruction).flatMap Instruction.bytes =
        opcode :: (operands ++ more.flatMap Instruction.bytes) := rfl
    have end' : pc + (opcode :: (operands ++ more.flatMap Instruction.bytes)).length =
        pc + 1 + operands.length + (more.flatMap Instruction.bytes).length := by
      simp only [List.length_cons, List.length_append]
      omega
    refine ⟨{ pc, opcode, operands } :: more, left, by simp [bytes], ⟨rfl, start ▸ stand⟩, ?_, ?_⟩
    · rw [whole, Item.decodeFrom_cons (operandLength_behind known), decoded]
      simp
    · rw [whole, end']
      exact ends

theorem decode_tiles (bytes : List UInt8) :
    (∃ instructions, decode bytes = .ok instructions ∧ Tiles bytes instructions) ∨
      ∃ pc, decode bytes = .error (.malformed pc) ∧ pc < bytes.length ∧
        length? pc (bytes.drop pc) = none ∧
        ∃ instructions, decode (bytes.take pc) = .ok instructions ∧ Tiles (bytes.take pc) instructions := by
  obtain ⟨more, later, rfl, stand, decoded, ends⟩ := decodeFrom_takes [] 0 bytes
  obtain ⟨first, next, last⟩ := stand.tiles
  have tiles : Tiles (more.flatMap Instruction.bytes) more := ⟨first, next, by simpa using last, rfl⟩
  rcases ends with rfl | ⟨stuck, some, failed⟩
  · rw [List.append_nil]
    exact .inl ⟨more, decoded, tiles⟩
  · rw [Nat.zero_add] at stuck failed
    refine .inr ⟨_, failed, ?_, by rwa [List.drop_left], more, ?_⟩
    · rw [List.length_append]
      exact Nat.lt_add_of_pos_right (List.length_pos_iff.2 some)
    · rw [List.take_left]
      exact ⟨decoded, tiles⟩

end ClassForge.Instruction
