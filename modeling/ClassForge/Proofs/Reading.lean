import ClassForge.Proofs.Writing

set_option autoImplicit false

namespace ClassForge

def Kind.ofFamily? : Nat → Option Kind
  | 0 => some .int
  | 1 => some .long
  | 2 => some .float
  | 3 => some .double
  | 4 => some .reference
  | _ => none

def Opcode.returned? (opcode : Opcode) : Option Kind :=
  if opcode = .vreturn then some .void
  else if opcode.isReturn then Kind.ofFamily? (opcode - ireturn).toNat
  else none

theorem Kind.returned_returnOpcode (kind : Kind) : kind.returnOpcode.returned? = some kind := by
  cases kind <;> decide

namespace Instruction

def pushedInt? (i : Instruction) : Option Int :=
  if i.opcode.isIn (.iconst0 - 1) .iconst5 then some ((i.opcode.toNat : Int) - Opcode.iconst0.toNat)
  else match i.operands with
    | [a] => if i.opcode = .bipush then some a.toInt8.toInt else none
    | [a, b] => if i.opcode = .sipush then some (Bytes.toI2 a b) else none
    | _ => none

def constant? (i : Instruction) : Option (UInt16 × Bool) :=
  match i.operands with
  | [a] => if i.opcode = .ldc then some (a.toUInt16, false) else none
  | [a, b] =>
    if i.opcode = .ldcW then some (Bytes.toU2 a b, false)
    else if i.opcode = .ldc2W then some (Bytes.toU2 a b, true)
    else none
  | _ => none

def access? (base shortBase : Opcode) (i : Instruction) : Option (Kind × Nat) :=
  match i.operands with
  | [] =>
    if i.opcode.isIn shortBase (shortBase + 19) then
      (Kind.ofFamily? ((i.opcode - shortBase).toNat / 4)).map (·, (i.opcode - shortBase).toNat % 4)
    else none
  | [slot] =>
    if i.opcode.isIn base (base + 4) then
      (Kind.ofFamily? (i.opcode - base).toNat).map (·, slot.toNat)
    else none
  | [widened, a, b] =>
    if i.opcode = .wide ∧ Opcode.isIn widened base (base + 4) then
      (Kind.ofFamily? (widened - base).toNat).map (·, (Bytes.toU2 a b).toNat)
    else none
  | _ => none

def loaded? (i : Instruction) : Option (Kind × Nat) :=
  i.access? .iload .iload0

def stored? (i : Instruction) : Option (Kind × Nat) :=
  i.access? .istore .istore0

theorem wordOperand_u2 {pc : Nat} {opcode : Opcode} (index : UInt16) (rest : List UInt8) :
    ({ pc, opcode, operands := Bytes.u2 index ++ rest } : Instruction).wordOperand? = some index := by
  simp [wordOperand?, Bytes.u2, Bytes.toU2_u2]

end Instruction

variable {value : Int}

namespace Bytes

theorem toInt8_ofInt (low : -128 ≤ value) (high : value ≤ 127) : (UInt8.ofInt value).toInt8.toInt = value := by
  have bits : (UInt8.ofInt value).toBitVec = BitVec.ofInt 8 value := by
    apply BitVec.eq_of_toNat_eq
    simp only [UInt8.ofInt, UInt8.toBitVec_ofNat', BitVec.toNat_ofNat, BitVec.toNat_ofInt]
    omega
  change (UInt8.ofInt value).toBitVec.toInt = _
  rw [bits, BitVec.toInt_ofInt]
  exact Int.bmod_eq_of_le (by omega) (by omega)

theorem toI2_ofInt (low : -32768 ≤ value) (high : value ≤ 32767) :
    toI2 (UInt16.ofInt value >>> 8).toUInt8 (UInt16.ofInt value).toUInt8 = value := by
  rw [toI2, toU2_u2, toInt_u2]
  exact Int.bmod_eq_of_le (by omega) (by omega)

end Bytes

variable {kind : Kind} {slot : Nat} {shortBase base : Opcode}

namespace Item

variable (place : Label → Nat) (pc : Nat)

theorem pushedInt_smallInt (low : -32768 ≤ value) (high : value ≤ 32767) :
    ((Item.smallInt value).instruction place pc).pushedInt? = some value := by
  unfold Item.smallInt
  split_ifs with tiny byte
  · obtain ⟨low, high⟩ := tiny
    interval_cases value <;> rfl
  · simp only [instruction, operandsWith, Item.opcode, Instruction.pushedInt?, Bytes.toInt8_ofInt byte.1 byte.2]
    rfl
  · simp only [instruction, operandsWith, Item.opcode, Instruction.pushedInt?, Bytes.u2, Bytes.toI2_ofInt low high]
    rfl

theorem constant_constant (index : UInt16) (width : Nat) :
    ((Item.constant index width).instruction place pc).constant? = some (index, decide (width = 2)) := by
  unfold Item.constant
  split_ifs with wide short
  · simp [instruction, operandsWith, Item.opcode, Instruction.constant?, Bytes.u2, Bytes.toU2_u2, wide,
      Opcode.ldc2W, Opcode.ldcW]
  · have kept : index.toUInt8.toUInt16 = index := by
      have bound : index.toNat ≤ 255 := UInt16.le_iff_toNat_le.1 short
      apply UInt16.toNat.inj
      simp only [UInt8.toNat_toUInt16, UInt16.toNat_toUInt8]
      omega
    simp [instruction, operandsWith, Item.opcode, Instruction.constant?, kept, wide]
  · simp [instruction, operandsWith, Item.opcode, Instruction.constant?, Bytes.u2, Bytes.toU2_u2, wide]

-- A short form counts up from its base, first by slot, then by kind.
theorem short_offset (family : shortBase = .iload0 ∨ shortBase = .istore0) (value : kind ≠ .void) : ∀ slot < 4,
    (shortBase + UInt8.ofNat (kind.familyOffset * 4 + slot)).isIn shortBase (shortBase + 19) = true ∧
      Kind.ofFamily? ((shortBase + UInt8.ofNat (kind.familyOffset * 4 + slot) - shortBase).toNat / 4) =
        some kind ∧
      (shortBase + UInt8.ofNat (kind.familyOffset * 4 + slot) - shortBase).toNat % 4 = slot := by
  rcases family with rfl | rfl <;> cases kind <;> first | exact absurd rfl value | decide

theorem access_access (family : (base = .iload ∧ shortBase = .iload0) ∨ (base = .istore ∧ shortBase = .istore0))
    (value : kind ≠ .void) (small : slot < 65536) :
    ((Item.access base shortBase kind slot).instruction place pc).access? base shortBase = some (kind, slot) := by
  unfold Item.access
  split_ifs with short byte
  · obtain ⟨inside, family, rest⟩ :=
      short_offset (family.imp And.right And.right) value slot (by omega)
    simp only [instruction, operandsWith, Item.opcode, Instruction.access?, inside, if_true, family, rest,
      Option.map_some]
  · have kept : (UInt8.ofNat slot).toNat = slot := by
      rw [UInt8.toNat_ofNat']
      exact Nat.mod_eq_of_lt (by omega)
    simp only [instruction, operandsWith, Item.opcode, Instruction.access?, kept]
    rcases family with ⟨rfl, rfl⟩ | ⟨rfl, rfl⟩ <;> cases kind <;> first | exact absurd rfl value | rfl
  · have kept : (UInt16.ofNat slot).toNat = slot := by
      rw [UInt16.toNat_ofNat']
      exact Nat.mod_eq_of_lt small
    simp only [instruction, operandsWith, Item.opcode, Instruction.access?, Bytes.u2, Bytes.toU2_u2, kept]
    rcases family with ⟨rfl, rfl⟩ | ⟨rfl, rfl⟩ <;> cases kind <;> first | exact absurd rfl value | rfl

theorem length_access :
    ((Item.access base shortBase kind slot).instruction place pc).operands.length =
      if slot ≤ 3 then 0 else if slot ≤ 255 then 1 else 3 := by
  unfold Item.access
  split_ifs <;> rfl

theorem loaded_load (value : kind ≠ .void) (small : slot < 65536) :
    ((Item.load kind slot).instruction place pc).loaded? = some (kind, slot) :=
  access_access place pc (.inl ⟨rfl, rfl⟩) value small

theorem stored_store (value : kind ≠ .void) (small : slot < 65536) :
    ((Item.store kind slot).instruction place pc).stored? = some (kind, slot) :=
  access_access place pc (.inr ⟨rfl, rfl⟩) value small

end Item

end ClassForge
