import ClassForge.Bytes
import ClassForge.Error
import ClassForge.Opcode

set_option autoImplicit false

namespace ClassForge

structure Instruction where
  pc : Nat
  opcode : Opcode
  -- All bytes after the opcode, the padding of a switch included.
  operands : List UInt8
  deriving DecidableEq, Repr

namespace Instruction

def padding (pc : Nat) : Nat :=
  3 - pc % 4

def words : List UInt8 → List Int
  | a :: b :: c :: d :: rest => Bytes.toI4 a b c d :: words rest
  | _ => []

-- Number of bytes of a switch after its padding: the words up to the count, then those it announces.
def switchLength? (opcode : Opcode) (operands : List UInt8) : Option Nat :=
  if opcode = .lookupswitch then
    match words (operands.take 8) with
    | [_, pairs] => if pairs < 0 then none else some (8 + pairs.toNat * 8)
    | _ => none
  else
    match words (operands.take 12) with
    | [_, low, high] => if high - low + 1 < 0 then none else some (12 + (high - low + 1).toNat * 4)
    | _ => none

def operandLength? (pc : Nat) (opcode : Opcode) (rest : List UInt8) : Option Nat :=
  if opcode = .wide then rest.head?.map (fun widened => if widened = Opcode.iinc then 5 else 3)
  else if opcode = .tableswitch ∨ opcode = .lookupswitch then
    (switchLength? opcode (rest.drop (padding pc))).map (padding pc + ·)
  else if opcode = .bipush ∨ opcode = .ldc ∨ opcode.isIn .iload .aload ∨ opcode.isIn .istore .astore ∨
      opcode = .ret ∨ opcode = .newarray then some 1
  else if opcode = .sipush ∨ opcode.isIn .ldcW .ldc2W ∨ opcode = .iinc ∨ opcode.isBranch ∨
      opcode.isIn .getstatic .invokestatic ∨ opcode = .new ∨ opcode = .anewarray ∨
      opcode.isIn .checkcast .instanceof then some 2
  else if opcode = .multianewarray then some 3
  else if opcode.isIn .invokeinterface .invokedynamic ∨ opcode.isIn .gotoW .jsrW then some 4
  else if opcode ≤ .jsrW then some 0
  else none

def operands? (pc : Nat) (opcode : Opcode) (rest : List UInt8) : Option (List UInt8 × List UInt8) :=
  (operandLength? pc opcode rest).bind (Bytes.splitExactly · rest)

def length? (pc : Nat) : List UInt8 → Option Nat
  | [] => none
  | opcode :: rest => (operands? pc opcode rest).map (fun (operands, _) => operands.length + 1)

theorem length_operands?_le {pc : Nat} {opcode : Opcode} {rest operands later : List UInt8}
    (h : operands? pc opcode rest = some (operands, later)) : later.length ≤ rest.length := by
  obtain ⟨n, _, h⟩ := Option.bind_eq_some_iff.1 h
  have := congrArg List.length (Bytes.append_of_splitExactly h)
  simp at this
  omega

-- Cuts bytes that start at `pc` into instructions, after those already cut, which stand in reverse.
def decodeFrom (done : List Instruction) (pc : Nat) (bytes : List UInt8) :
    Except CodeError (List Instruction) :=
  match bytes with
  | [] => .ok done.reverse
  | opcode :: rest =>
    match h : operands? pc opcode rest with
    | none => .error (.malformed pc)
    | some (operands, later) =>
      have := length_operands?_le h
      decodeFrom ({ pc, opcode, operands } :: done) (pc + 1 + operands.length) later
termination_by bytes.length

def decode (bytes : List UInt8) : Except CodeError (List Instruction) :=
  decodeFrom [] 0 bytes

def byteOperand? (i : Instruction) : Option UInt8 :=
  i.operands.head?

def wordOperand? (i : Instruction) : Option UInt16 :=
  match i.operands with
  | a :: b :: _ => some (Bytes.toU2 a b)
  | _ => none

def target? (i : Instruction) (offset : Int) : Option Nat :=
  let target := (i.pc : Int) + offset
  if target < 0 then none else some target.toNat

def branchTarget? (i : Instruction) : Option Nat :=
  if i.opcode.isBranch then
    match i.operands with
    | a :: b :: _ => i.target? (Bytes.toI2 a b)
    | _ => none
  else none

def switchPairs? (i : Instruction) : List Int → Option (List (Int × Nat))
  | key :: offset :: rest =>
    match i.target? offset, switchPairs? i rest with
    | some target, some pairs => some ((key, target) :: pairs)
    | _, _ => none
  | _ => some []

def switchTargets? (i : Instruction) : Option (Nat × List (Int × Nat)) :=
  if i.opcode = .lookupswitch then
    match words (i.operands.drop (padding i.pc)) with
    | default :: _ :: pairs =>
      match i.target? default, i.switchPairs? pairs with
      | some default, some pairs => some (default, pairs)
      | _, _ => none
    | _ => none
  else none

end Instruction

end ClassForge
