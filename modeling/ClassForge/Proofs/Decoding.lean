import ClassForge.Proofs.Layout
import ClassForge.Proofs.Steps

set_option autoImplicit false

namespace ClassForge

namespace Bytes

theorem toU2_u2 (n : UInt16) : toU2 (n >>> 8).toUInt8 n.toUInt8 = n := by
  apply UInt16.toBitVec_inj.1
  apply BitVec.eq_of_getLsbD_eq
  intro i bound
  change ((BitVec.setWidth 16 (BitVec.setWidth 8 (n.toBitVec >>> 8)) <<< 8) |||
    BitVec.setWidth 16 (BitVec.setWidth 8 n.toBitVec)).getLsbD i = _
  simp only [BitVec.getLsbD_or, BitVec.getLsbD_shiftLeft, BitVec.getLsbD_setWidth,
    BitVec.getLsbD_ushiftRight, bound, decide_true, Bool.true_and]
  by_cases low : i < 8
  · simp [low]
  · have high : i - 8 < 8 ∧ i - 8 < 16 ∧ 8 + (i - 8) = i := by omega
    simp [low, high]

theorem toU4_u4 (n : UInt32) : toU4 (n >>> 24).toUInt8 (n >>> 16).toUInt8 (n >>> 8).toUInt8 n.toUInt8 = n := by
  apply UInt32.toBitVec_inj.1
  apply BitVec.eq_of_getLsbD_eq
  intro i bound
  change ((BitVec.setWidth 32 (BitVec.setWidth 8 (n.toBitVec >>> 24)) <<< 24) |||
    (BitVec.setWidth 32 (BitVec.setWidth 8 (n.toBitVec >>> 16)) <<< 16) |||
    (BitVec.setWidth 32 (BitVec.setWidth 8 (n.toBitVec >>> 8)) <<< 8) |||
    BitVec.setWidth 32 (BitVec.setWidth 8 n.toBitVec)).getLsbD i = _
  simp only [BitVec.getLsbD_or, BitVec.getLsbD_shiftLeft, BitVec.getLsbD_setWidth,
    BitVec.getLsbD_ushiftRight, bound, decide_true, Bool.true_and]
  -- Each byte covers eight bits, and the others are zero there.
  rcases (by omega : i < 8 ∨ (8 ≤ i ∧ i < 16) ∨ (16 ≤ i ∧ i < 24) ∨ 24 ≤ i) with h | h | h | h
  · have := show i < 16 ∧ i < 24 by omega
    simp [h, this]
  · have := show ¬ i < 8 ∧ i < 24 ∧ i - 8 < 8 ∧ i - 8 < 32 ∧ 8 + (i - 8) = i by omega
    simp [h, this]
  · have := show ¬ i < 8 ∧ ¬ i < 16 ∧ ¬ i - 8 < 8 ∧ i - 16 < 8 ∧ i - 16 < 32 ∧ 16 + (i - 16) = i by
      omega
    simp [h, this]
  · have := show ¬ i < 8 ∧ ¬ i < 16 ∧ ¬ i < 24 ∧ ¬ i - 8 < 8 ∧ ¬ i - 16 < 8 ∧ i - 24 < 8 ∧
      i - 24 < 32 ∧ 24 + (i - 24) = i by omega
    simp [this]

theorem toInt_u2 (n : Int) : (UInt16.ofInt n).toInt16.toInt = n.bmod (2 ^ 16) := by
  have bits : (UInt16.ofInt n).toBitVec = BitVec.ofInt 16 n := by
    apply BitVec.eq_of_toNat_eq
    simp only [UInt16.ofInt, UInt16.toBitVec_ofNat', BitVec.toNat_ofNat, BitVec.toNat_ofInt]
    omega
  change (UInt16.ofInt n).toBitVec.toInt = _
  rw [bits, BitVec.toInt_ofInt]

theorem toInt_u4 (n : Int) : (UInt32.ofInt n).toInt32.toInt = n.bmod (2 ^ 32) := by
  have bits : (UInt32.ofInt n).toBitVec = BitVec.ofInt 32 n := by
    apply BitVec.eq_of_toNat_eq
    simp only [UInt32.ofInt, UInt32.toBitVec_ofNat', BitVec.toNat_ofNat, BitVec.toNat_ofInt]
    omega
  change (UInt32.ofInt n).toBitVec.toInt = _
  rw [bits, BitVec.toInt_ofInt]

theorem splitExactly_append {α : Type} (taken rest : List α) :
    splitExactly taken.length (taken ++ rest) = some (taken, rest) := by
  induction taken with
  | nil => rfl
  | cons a taken ih => simp [splitExactly, ih]

end Bytes

variable {labels : Array LabelState} {bytes later : Array UInt8} {items : List Item} {item : Item}

namespace CodeBuffer

def position (labels : Array LabelState) (label : Label) : Option Nat :=
  (labels[label.index]?).bind (·.pc)

def placeOf (labels : Array LabelState) (label : Label) : Nat :=
  (position labels label).getD 0

def Placed (labels : Array LabelState) (label : Label) : Prop :=
  position labels label = some (placeOf labels label)

theorem toList_overwrite (front old new back : List UInt8) (same : old.length = new.length)
    (bytes : Array UInt8) (h : bytes.toList = front ++ (old ++ back)) :
    (overwrite bytes front.length new).toList = front ++ (new ++ back) := by
  induction new generalizing front old bytes with
  | nil =>
    obtain rfl := List.eq_nil_of_length_eq_zero same
    exact h
  | cons byte new ih =>
    obtain ⟨first, old, rfl⟩ := List.exists_cons_of_length_eq_add_one same
    have written : (bytes.setIfInBounds front.length byte).toList = (front ++ [byte]) ++ (old ++ back) := by
      simp [h]
    have := ih (front ++ [byte]) old (by simpa using same) _ written
    simpa [overwrite] using this

theorem patch_eq (f : Fixup) : patch labels bytes f =
    match f.defect? (position labels) with
    | some error => .error error
    | none => .ok (overwrite bytes f.operandPc (f.filling ((placeOf labels f.label : Int) - f.opcodePc))) := by
  unfold patch Fixup.defect? placeOf
  cases found : labels[f.label.index]? with
  | none => simp [position, found]
  | some state =>
    obtain ⟨_ | target, depth⟩ := state
    · simp [position, found]
    · simp only [position, found, Option.bind_some, Option.getD_some, Fixup.filling]
      cases f.isWide with
      | true => simp
      | false =>
        simp only [Bool.false_eq_true, if_false, true_and]
        split_ifs <;> rfl

-- The induction is on the chunks that are left; what stands before them is done.
theorem fold_patch {chunks : List Chunk} {front back : List UInt8}
    (blank : bytes.toList = front ++ (chunks.flatMap Chunk.blank ++ back)) :
    match (Chunk.fixups front.length chunks).findSome? (·.defect? (position labels)) with
    | some error => (Chunk.fixups front.length chunks).foldlM (patch labels) bytes = .error error
    | none => ∃ done, (Chunk.fixups front.length chunks).foldlM (patch labels) bytes = .ok done ∧
        done.toList = front ++ (chunks.flatMap (Chunk.filled (placeOf labels)) ++ back) := by
  induction chunks generalizing front bytes with
  | nil => exact ⟨bytes, rfl, blank⟩
  | cons chunk rest ih =>
    rw [List.flatMap_cons, List.append_assoc] at blank
    simp only [List.flatMap_cons, List.append_assoc]
    cases chunk with
    | code code =>
      have next := @ih bytes (front ++ code) (by rw [blank, List.append_assoc]; rfl)
      simp only [List.length_append, List.append_assoc] at next
      exact next
    | gap opcodePc label isWide =>
      let f : Fixup := { opcodePc, operandPc := front.length, label, isWide }
      have length := f.length_filling ((placeOf labels label : Int) - opcodePc)
      have written := toList_overwrite front _ (f.filling ((placeOf labels label : Int) - opcodePc)) _
        (by rw [Chunk.blank, List.length_replicate, length]; rfl) bytes blank
      have next := @ih (overwrite bytes front.length (f.filling ((placeOf labels label : Int) - opcodePc)))
        (front ++ f.filling ((placeOf labels label : Int) - opcodePc)) (by rw [List.append_assoc]; exact written)
      simp only [List.length_append, length, List.append_assoc] at next
      rw [Chunk.fixups, List.findSome?_cons, List.foldlM_cons, patch_eq]
      cases f.defect? (position labels) with
      | some error => rfl
      | none => exact next

theorem finish_adds {b : CodeBuffer} {chunks : List Chunk} (made : Adds chunks {} b) :
    b.finish = match (Chunk.fixups 0 chunks).findSome? (·.defect? (position b.labels)) with
      | some error => .error error
      | none => if 65535 < b.pc then .error .codeTooLarge else .ok (chunks.flatMap
        (Chunk.filled (placeOf b.labels))) := by
  have bytes : b.bytes.toList = chunks.flatMap Chunk.blank := made.bytes
  have fixups : b.fixups.toList = Chunk.fixups 0 chunks := made.fixups
  have folded := @fold_patch b.labels b.bytes chunks [] [] (by rw [bytes, List.nil_append, List.append_nil])
  rw [finish, ← Array.foldlM_toList, fixups]
  rw [List.length_nil] at folded
  split at folded
  next =>
    rw [folded]
    rfl
  next =>
    obtain ⟨done, run, filled⟩ := folded
    rw [List.nil_append, List.append_nil] at filled
    have size : done.size = b.pc := by
      rw [pc, ← Array.length_toList, ← Array.length_toList, filled, bytes, Chunk.length_filled]
    rw [run, ← filled, ← size]
    change (if done.size > 65535 then throw CodeError.codeTooLarge >>= fun _ =>
      pure done.toList else pure done.toList) = _
    split_ifs <;> rfl

def Resolved (labels : Array LabelState) (pc : Nat) (item : Item) : Prop :=
  (∀ label ∈ item.targets, Placed labels label) ∧
    ∀ opcode target, item = .jump opcode target →
      -32768 ≤ (placeOf labels target : Int) - pc ∧ (placeOf labels target : Int) - pc ≤ 32767

theorem resolved_of_sound {pc : Nat}
    (sound : ∀ f ∈ Chunk.fixups pc (item.chunks pc), f.defect? (position labels) = none) : Resolved labels pc item := by
  refine ⟨fun label member => ?_, ?_⟩
  · have jump := List.mem_map_of_mem (f := (pc, ·)) member
    rw [← Item.jumps_chunks pc pc item, List.mem_map] at jump
    obtain ⟨f, among, same⟩ := jump
    cases same
    obtain ⟨target, placed, -⟩ := Fixup.placed_of_sound (sound f among)
    rw [Placed, placeOf, placed]
    rfl
  · rintro opcode target rfl
    obtain ⟨_, placed, near⟩ := Fixup.placed_of_sound (sound _ (List.mem_singleton.2 rfl))
    rw [placeOf, placed]
    exact near rfl

end CodeBuffer

variable {place : Label → Nat} {pc : Nat} {pairs : List (Int × Label)} {i : Instruction} {opcode : Opcode}
  {default : Label} {b : CodeBuffer}

namespace Item

theorem ne_of_isBranch : ∀ opcode : Opcode, opcode.isBranch →
    opcode ≠ .wide ∧ ¬ (opcode = .tableswitch ∨ opcode = .lookupswitch) ∧
    ¬ (opcode = .bipush ∨ opcode = .ldc ∨ opcode.isIn .iload .aload ∨ opcode.isIn .istore .astore ∨
      opcode = .ret ∨ opcode = .newarray) := by
  decide +kernel

theorem operandLength_of_isBranch (branch : opcode.isBranch) (pc : Nat)
    (rest : List UInt8) : Instruction.operandLength? pc opcode rest = some 2 := by
  obtain ⟨notWide, notSwitch, notByte⟩ := ne_of_isBranch opcode branch
  rw [Instruction.operandLength?, if_neg notWide, if_neg notSwitch, if_neg notByte, if_pos]
  exact .inr (.inr (.inr (.inl branch)))

theorem words_u4 (n : UInt32) (rest : List UInt8) :
    Instruction.words (Bytes.u4 n ++ rest) = n.toInt32.toInt :: Instruction.words rest := by
  simp only [Bytes.u4, List.cons_append, List.nil_append, Instruction.words, Bytes.toI4]
  rw [Bytes.toU4_u4]

theorem toInt_pairCount {n : Nat} (few : n < 2147483648) : (UInt32.ofNat n).toInt32.toInt = n := by
  have : UInt32.ofNat n = UInt32.ofInt n := by
    rw [UInt32.ofInt]
    apply congrArg
    omega
  rw [this, Bytes.toInt_u4]
  exact Int.bmod_eq_of_le (by omega) (by omega)

theorem words_switch (few : pairs.length < 2147483648) :
    Instruction.words (((Item.switch default pairs).instruction place pc).operands.drop
        (Instruction.padding pc)) =
      ((place default : Int) - pc).bmod (2 ^ 32) :: pairs.length ::
        pairs.flatMap (fun pair =>
          [pair.1.bmod (2 ^ 32), ((place pair.2 : Int) - pc).bmod (2 ^ 32)]) := by
  have cut : ((Item.switch default pairs).instruction place pc).operands.drop (Instruction.padding pc) =
      longOffset place pc default ++ (Bytes.u4 (UInt32.ofNat pairs.length) ++
        pairBytes (longOffset place pc) pairs) := by
    simp [instruction, operandsWith]
  rw [cut, longOffset, words_u4, words_u4, Bytes.toInt_u4, toInt_pairCount few]
  congr 2
  clear few cut
  induction pairs with
  | nil => rfl
  | cons pair rest ih =>
    rw [pairBytes, List.flatMap_cons, List.flatMap_cons, List.append_assoc, words_u4, longOffset,
      words_u4, Bytes.toInt_u4, Bytes.toInt_u4]
    exact congrArg (_ :: _ :: ·) ih

theorem operandLength_of_switch (few : pairs.length < 2147483648) (rest : List UInt8) :
    Instruction.operandLength? pc .lookupswitch
        (((Item.switch default pairs).instruction place pc).operands ++ rest) =
      some ((Item.switch default pairs).instruction place pc).operands.length := by
  have words : Instruction.words (longOffset place pc default ++ Bytes.u4 (UInt32.ofNat pairs.length)) =
      [((place default : Int) - pc).bmod (2 ^ 32), pairs.length] := by
    rw [longOffset, words_u4, ← List.append_nil (Bytes.u4 (UInt32.ofNat pairs.length)), words_u4,
      toInt_pairCount few, Bytes.toInt_u4]
    rfl
  have length := length_instruction place pc (.switch default pairs)
  have cut : (((Item.switch default pairs).instruction place pc).operands ++ rest).drop
      (Instruction.padding pc) = (longOffset place pc default ++ Bytes.u4 (UInt32.ofNat pairs.length)) ++
        (pairBytes (longOffset place pc) pairs ++ rest) := by
    simp [instruction, operandsWith]
  rw [Instruction.operandLength?, if_neg (by decide), if_pos (.inr rfl), cut, Instruction.switchLength?,
    if_pos rfl, List.take_left' (show _ = 8 from rfl), words]
  simp only [size] at length
  simp
  omega

theorem operandLength_instruction (formed : item.WellFormed) (few : item.size pc < 2147483648) (rest : List UInt8) :
    Instruction.operandLength? pc item.opcode ((item.instruction place pc).operands ++ rest) =
      some (item.instruction place pc).operands.length := by
  cases item with
  | plain opcode operands => exact formed pc rest
  | jump opcode target => exact operandLength_of_isBranch formed pc _
  | switch default pairs =>
    simp only [size] at few
    exact operandLength_of_switch (by omega) rest

theorem decodeFrom_cons {operands rest : List UInt8}
    (length : Instruction.operandLength? pc opcode (operands ++ rest) = some operands.length)
    (done : List Instruction) :
    Instruction.decodeFrom done pc (opcode :: (operands ++ rest)) =
      Instruction.decodeFrom ({ pc, opcode, operands } :: done) (pc + 1 + operands.length) rest := by
  have taken : Instruction.operands? pc opcode (operands ++ rest) = some (operands, rest) := by
    rw [Instruction.operands?, length]
    exact Bytes.splitExactly_append _ _
  rw [Instruction.decodeFrom]
  split
  next h => simp [taken] at h
  next h =>
    rw [taken] at h
    cases h
    rfl

theorem decodeFrom_layout (formed : ∀ item ∈ items, item.WellFormed) (few : endFrom pc items < 2147483648)
    (done : List Instruction) :
    Instruction.decodeFrom done pc ((layout chunks pc items).flatMap (Chunk.filled place)) =
      .ok (done.reverse ++ layout (fun pc item => [item.instruction place pc]) pc items) := by
  induction items generalizing pc done with
  | nil => simp [layout, Instruction.decodeFrom]
  | cons item rest ih =>
    have length := length_instruction place pc item
    have bound := le_endFrom (pc + item.size pc) rest
    rw [endFrom] at few
    have next : pc + 1 + (item.instruction place pc).operands.length = pc + item.size pc := by omega
    rw [layout, List.flatMap_append, filled_chunks, List.cons_append,
      decodeFrom_cons (operandLength_instruction (formed item (by simp)) (by omega) _), next,
      ih (fun i member => formed i (by simp [member])) few]
    simp [layout, instruction]

theorem target_offset {target : Nat} (here : i.pc = pc) (near : pc < 65536)
    (small : target < 65536) : i.target? (((target : Int) - pc).bmod (2 ^ 32)) = some target := by
  have : ((target : Int) - pc).bmod (2 ^ 32) = target - pc :=
    Int.bmod_eq_of_le (by omega) (by omega)
  simp only [Instruction.target?, this, here]
  rw [if_neg (by omega)]
  congr 1
  omega

theorem branchTarget_jump {place : Label → Nat} {pc : Nat} {opcode : Opcode} {target : Label}
    (branch : opcode.isBranch) (low : -32768 ≤ (place target : Int) - pc) (high : (place target : Int) - pc ≤ 32767) :
    ((Item.jump opcode target).instruction place pc).branchTarget? = some (place target) := by
  have offset : ((place target : Int) - pc).bmod (2 ^ 16) = place target - pc :=
    Int.bmod_eq_of_le (by omega) (by omega)
  simp only [Instruction.branchTarget?, instruction, Item.opcode, operandsWith, branch, if_true,
    shortOffset, Bytes.u2, Bytes.toI2, Bytes.toU2_u2, Bytes.toInt_u2, offset, Instruction.target?]
  rw [if_neg (by omega)]
  congr 1
  omega

theorem switchPairs_offsets (here : i.pc = pc) (near : pc < 65536)
    (small : ∀ label ∈ pairs.map (·.2), place label < 65536) :
    i.switchPairs? (pairs.flatMap (fun pair =>
        [pair.1.bmod (2 ^ 32), ((place pair.2 : Int) - pc).bmod (2 ^ 32)])) =
      some (pairs.map (fun pair => (pair.1.bmod (2 ^ 32), place pair.2))) := by
  induction pairs with
  | nil => rfl
  | cons pair rest ih =>
    obtain ⟨first, small⟩ := List.forall_mem_cons.1 small
    simp only [List.flatMap_cons, List.cons_append, List.nil_append, Instruction.switchPairs?,
      target_offset here near first, ih small, List.map_cons]

theorem switchTargets_switch {place : Label → Nat} {pc : Nat} {default : Label}
    {pairs : List (Int × Label)} (few : pairs.length < 2147483648) (near : pc < 65536)
    (small : ∀ label ∈ (Item.switch default pairs).targets, place label < 65536) :
    ((Item.switch default pairs).instruction place pc).switchTargets? =
      some (place default, pairs.map (fun pair => (pair.1.bmod (2 ^ 32), place pair.2))) := by
  obtain ⟨first, small⟩ := List.forall_mem_cons.1 small
  have isSwitch : ((Item.switch default pairs).instruction place pc).opcode = .lookupswitch := rfl
  have start : ((Item.switch default pairs).instruction place pc).pc = pc := rfl
  rw [Instruction.switchTargets?, if_pos isSwitch, start, words_switch few]
  simp only [target_offset start near first, switchPairs_offsets start near small]

end Item

def Item.program (place : Label → Nat) (items : List Item) : List Instruction :=
  Item.layout (fun pc item => [item.instruction place pc]) 0 items

theorem Item.mem_program :
    i ∈ program place items ↔ ∃ pc item, (pc, item) ∈ listing 0 items ∧ i = item.instruction place pc := by
  rw [program, layout_eq_flatMap]
  simp only [List.mem_flatMap, List.mem_singleton, Prod.exists]

namespace CodeBuffer

structure Holds (b : CodeBuffer) (items : List Item) : Prop where
  made : Adds (Item.layout Item.chunks 0 items) {} b
  formed : ∀ item ∈ items, item.WellFormed

theorem Holds.congr {later : CodeBuffer} (holds : b.Holds items) (bytes : later.bytes = b.bytes)
    (fixups : later.fixups = b.fixups) : later.Holds items :=
  ⟨⟨bytes ▸ holds.made.bytes, fixups ▸ holds.made.fixups⟩, holds.formed⟩

theorem Holds.pc_eq (holds : b.Holds items) : b.pc = Item.endFrom 0 items := by
  rw [holds.made.pc, ← Item.length_layout]
  rfl

theorem finish_returns {bytes : List UInt8} (holds : b.Holds items) (h : b.finish = .ok bytes) :
    Instruction.decode bytes = .ok (Item.program (placeOf b.labels) items) ∧
      bytes.length = b.pc ∧ b.pc ≤ 65535 ∧
      ∀ pc item, (pc, item) ∈ Item.listing 0 items → Resolved b.labels pc item := by
  rw [finish_adds holds.made] at h
  split at h
  next => cases h
  next sound =>
    split_ifs at h with large
    cases h
    refine ⟨Item.decodeFrom_layout holds.formed (by rw [← holds.pc_eq]; omega) [], ?_, by omega,
      fun pc item member => ?_⟩
    · rw [Chunk.length_filled, holds.made.pc]
      exact (Nat.zero_add _).symm
    · rw [Item.fixups_layout] at sound
      refine resolved_of_sound fun f among => List.findSome?_eq_none_iff.1 sound f ?_
      exact List.mem_flatMap.2 ⟨_, member, among⟩

end CodeBuffer

end ClassForge
