import ClassForge.Proofs.Constants
import ClassForge.Proofs.Reading

set_option autoImplicit false

namespace ClassForge

inductive Operation where
  | load (kind : Kind) (slot : Nat)
  | pushInt (value : Int)
  | pushText (text : String)
  | create (owner : String)
  | createArray (element : String)
  | dup
  | storeElement
  | special (owner name descriptor : String)
  | access (opcode : Opcode) (owner name descriptor : String)
  | leave
  deriving DecidableEq, Repr

def Operation.Fits : Operation → Prop
  | .load kind slot => kind ≠ .void ∧ slot < 65536
  | .pushInt value => -2147483648 ≤ value ∧ value < 2147483648
  | _ => True

def ConstantPool.pushed? (pool : ConstantPool) (index : UInt16) : Option Operation :=
  match pool.get? index with
  | some (.integer value) => some (.pushInt value.toInt)
  | some (.string text) => (pool.utf8? text).map .pushText
  | _ => none

namespace Opcode

def bare? (opcode : Opcode) : Option Operation :=
  if opcode = .dup then some .dup
  else if opcode = .aastore then some .storeElement
  else if opcode = .vreturn then some .leave
  else none

def naming? (pool : ConstantPool) (opcode : Opcode) (index : UInt16) : Option Operation :=
  if opcode = .new then (pool.className? index).map .create
  else if opcode = .anewarray then (pool.className? index).map .createArray
  else if opcode = .invokespecial then
    (pool.memberRef? index).map fun (owner, name, descriptor) => .special owner name descriptor
  else if opcode.isIn .getstatic .putfield then
    (pool.memberRef? index).map fun (owner, name, descriptor) => .access opcode owner name descriptor
  else none

end Opcode

-- A load counts in its shortest form only.
def Instruction.shortLoad? (i : Instruction) : Option (Kind × Nat) :=
  i.loaded?.filter fun (_, slot) => i.operands.length = if slot ≤ 3 then 0 else if slot ≤ 255 then 1 else 3

def Instruction.operation? (pool : ConstantPool) (i : Instruction) : Option Operation :=
  (i.shortLoad?.map fun (kind, slot) => .load kind slot) <|> i.pushedInt?.map .pushInt <|>
    (i.constant?.bind fun (index, _) => pool.pushed? index) <|> i.opcode.bare? <|>
    i.wordOperand?.bind (i.opcode.naming? pool)

namespace Item

def Does (pool : ConstantPool) (item : Item) (operation : Operation) : Prop :=
  ∀ later, pool.Extends later → operation.Fits → ∀ place pc,
    (item.instruction place pc).operation? later = some operation

variable {pool later : ConstantPool} {index : UInt16} {owner name descriptor : String} {operation : Operation}
  {value : Int} {opcode : Opcode}

theorem Does.mono {item : Item} (does : item.Does pool operation)
    (grown : pool.Extends later) : item.Does later operation :=
  fun final extended => does final (grown.trans extended)

theorem does_load (kind : Kind) (slot : Nat) : (Item.load kind slot).Does pool (.load kind slot) := by
  intro later _ fits place pc
  have short : ((Item.load kind slot).instruction place pc).shortLoad? = some (kind, slot) := by
    rw [Instruction.shortLoad?, loaded_load place pc fits.1 fits.2, Option.filter_some, if_pos]
    exact decide_eq_true (length_access place pc)
  simp [Instruction.operation?, short]

theorem does_smallInt (small : -32768 ≤ value ∧ value ≤ 32767) : (Item.smallInt value).Does pool (.pushInt value) := by
  intro later _ _ place pc
  have unloaded : ((Item.smallInt value).instruction place pc).loaded? = none := by
    unfold Item.smallInt
    split_ifs with tiny
    · obtain ⟨low, high⟩ := tiny
      interval_cases value <;> rfl
    · rfl
    · rfl
  simp [Instruction.operation?, Instruction.shortLoad?, unloaded, pushedInt_smallInt place pc small.1 small.2]

theorem constant_reads (operation : Operation) (pushed : pool.pushed? index = some operation) (place : Label → Nat)
    (pc : Nat) : ((Item.constant index 1).instruction place pc).operation? pool = some operation := by
  have other : ((Item.constant index 1).instruction place pc).loaded? = none ∧
      ((Item.constant index 1).instruction place pc).pushedInt? = none := by
    unfold Item.constant
    rw [if_neg (by decide)]
    split_ifs <;> exact ⟨rfl, rfl⟩
  simp [Instruction.operation?, Instruction.shortLoad?, other, constant_constant, pushed]

theorem does_integer (known : pool.get? index = some (.integer (Int32.ofInt value))) :
    (Item.constant index 1).Does pool (.pushInt value) := by
  intro later grown fits place pc
  refine constant_reads _ ?_ place pc
  have same : (Int32.ofInt value).toInt = value := by
    rw [Int32.toInt_ofInt]
    exact Int.bmod_eq_of_le (by simpa using fits.1) (by simpa using fits.2)
  simp [ConstantPool.pushed?, grown _ _ known, same]

theorem does_text {text : UInt16} {value : String} (known : pool.get? index = some (.string text))
    (spelled : pool.utf8? text = some value) : (Item.constant index 1).Does pool (.pushText value) := by
  intro later grown _ place pc
  refine constant_reads _ ?_ place pc
  simp [ConstantPool.pushed?, grown _ _ known, grown.utf8? spelled]

theorem does_bare (bare : opcode.bare? = some operation) : (Item.plain opcode []).Does pool operation := by
  intro later _ _ place pc
  have family : opcode ∈ [Opcode.dup, .aastore, .vreturn] := by
    unfold Opcode.bare? at bare
    grind
  fin_cases family <;> exact bare

theorem word_reads (family : opcode ∈ [Opcode.new, .anewarray, .invokespecial, .getstatic,
    .putstatic, .getfield, .putfield]) (place : Label → Nat) (pc : Nat) :
    ((Item.plain opcode (Bytes.u2 index)).instruction place pc).operation? pool = opcode.naming? pool index := by
  have other : ((Item.plain opcode (Bytes.u2 index)).instruction place pc).loaded? = none ∧
      ((Item.plain opcode (Bytes.u2 index)).instruction place pc).pushedInt? = none ∧
      ((Item.plain opcode (Bytes.u2 index)).instruction place pc).constant? = none ∧ opcode.bare? = none := by
    fin_cases family <;> exact ⟨rfl, rfl, rfl, rfl⟩
  have word : ((Item.plain opcode (Bytes.u2 index)).instruction place pc).wordOperand? = some index :=
    Instruction.wordOperand_u2 index []
  have same : ((Item.plain opcode (Bytes.u2 index)).instruction place pc).opcode = opcode := rfl
  simp [Instruction.operation?, Instruction.shortLoad?, other, word, same]

theorem does_create (named : pool.className? index = some owner) :
    (Item.plain .new (Bytes.u2 index)).Does pool (.create owner) := by
  intro later grown _ place pc
  rw [word_reads (by simp)]
  simp [Opcode.naming?, grown.className? named]

theorem does_createArray (named : pool.className? index = some owner) :
    (Item.plain .anewarray (Bytes.u2 index)).Does pool (.createArray owner) := by
  intro later grown _ place pc
  rw [word_reads (by simp)]
  simp [Opcode.naming?, grown.className? named, Opcode.new, Opcode.anewarray]

theorem does_special {args : Nat} (ref : pool.memberRef? index = some (owner, name, descriptor)) :
    (Item.invoke .invokespecial index args).Does pool (.special owner name descriptor) := by
  intro later grown _ place pc
  refine (word_reads (by simp) place pc).trans ?_
  simp [Opcode.naming?, grown.memberRef? ref, Opcode.new, Opcode.anewarray, Opcode.invokespecial]

theorem does_access (isAccess : opcode ∈ [Opcode.getstatic, .putstatic, .getfield, .putfield])
    (ref : pool.memberRef? index = some (owner, name, descriptor)) :
    (Item.plain opcode (Bytes.u2 index)).Does pool (.access opcode owner name descriptor) := by
  intro later grown _ place pc
  rw [word_reads (by fin_cases isAccess <;> simp), Opcode.naming?, grown.memberRef? ref]
  fin_cases isAccess <;> rfl

end Item

end ClassForge
