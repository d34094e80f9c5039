import ClassForge.Bytes
import ClassForge.Descriptor
import ClassForge.Error
import ClassForge.Opcode

set_option autoImplicit false

namespace ClassForge

def Opcode.ofFamily (base : Opcode) (kind : Kind) : Opcode :=
  base + UInt8.ofNat kind.familyOffset

def Kind.returnOpcode : Kind → Opcode
  | .void => .vreturn
  | kind => Opcode.ireturn.ofFamily kind

structure Label where
  index : Nat
  deriving DecidableEq, Repr

structure LabelState where
  pc : Option Nat := none
  depth : Option Nat := none
  deriving DecidableEq, Repr

structure Fixup where
  opcodePc : Nat
  operandPc : Nat
  label : Label
  isWide : Bool
  deriving DecidableEq, Repr

structure CodeBuffer where
  bytes : Array UInt8 := #[]
  depth : Nat := 0
  maxDepth : Nat := 0
  alive : Bool := true
  labels : Array LabelState := #[]
  fixups : Array Fixup := #[]
  deriving DecidableEq, Repr

/-- A step of writing code. A step that fails keeps what it wrote before it failed. -/
abbrev Emit (α : Type) := EStateM CodeError CodeBuffer α

namespace CodeBuffer

def pc (b : CodeBuffer) : Nat :=
  b.bytes.size

def append (b : CodeBuffer) (bytes : List UInt8) : CodeBuffer :=
  { b with bytes := b.bytes ++ bytes }

def push (b : CodeBuffer) (slots : Nat) : CodeBuffer :=
  { b with depth := b.depth + slots, maxDepth := max b.maxDepth (b.depth + slots) }

def kill (b : CodeBuffer) : CodeBuffer :=
  { b with alive := false }

def recordArrival (b : CodeBuffer) (label : Label) : CodeBuffer :=
  let depth := b.depth
  { b with labels := b.labels.modify label.index (fun s => { s with depth := s.depth.or (some depth) }) }

-- Dead code comes back to life at a label that a jump leads to.
def arrive (b : CodeBuffer) (label : Label) : CodeBuffer :=
  if b.alive then b.recordArrival label
  else match b.labels[label.index]? with
    | some { depth := some depth, .. } => { b with depth, alive := true }
    | _ => b

def place (b : CodeBuffer) (label : Label) : CodeBuffer :=
  let b := b.arrive label
  let pc := b.pc
  { b with labels := b.labels.modify label.index (fun s => { s with pc := some pc }) }

def addFixup (b : CodeBuffer) (fixup : Fixup) : CodeBuffer :=
  { b with fixups := b.fixups.push fixup }

def overwrite (bytes : Array UInt8) (start : Nat) : List UInt8 → Array UInt8
  | [] => bytes
  | byte :: rest => overwrite (bytes.setIfInBounds start byte) (start + 1) rest

def patch (labels : Array LabelState) (bytes : Array UInt8) (fixup : Fixup) :
    Except CodeError (Array UInt8) :=
  match labels[fixup.label.index]? with
  | some { pc := some target, .. } =>
    let offset := (target : Int) - fixup.opcodePc
    if fixup.isWide then .ok (overwrite bytes fixup.operandPc (Bytes.u4 (UInt32.ofInt offset)))
    else if -32768 ≤ offset ∧ offset ≤ 32767 then
      .ok (overwrite bytes fixup.operandPc (Bytes.u2 (UInt16.ofInt offset)))
    else .error (.branchTooFar offset)
  | _ => .error (.unplacedLabel fixup.label.index)

def finish (b : CodeBuffer) : Except CodeError (List UInt8) := do
  let bytes ← b.fixups.foldlM (patch b.labels) b.bytes
  if bytes.size > 65535 then throw .codeTooLarge
  return bytes.toList

end CodeBuffer

namespace Emit

def newLabel : Emit Label :=
  modifyGet (fun b => ({ index := b.labels.size }, { b with labels := b.labels.push {} }))

def place (label : Label) : Emit Unit :=
  modify (·.place label)

def whenAlive (step : Emit Unit) : Emit Unit := do
  if (← get).alive then step else return

def append (bytes : List UInt8) : Emit Unit :=
  modify (·.append bytes)

def pop (slots : Nat) : Emit Unit := do
  if (← get).depth < slots then throw .stackUnderflow
  else modify (fun b => { b with depth := b.depth - slots })

-- The counter of the stack has sixteen bits. Past them it has no value of its own: such an addition stops the
-- program or wraps around, by how it was built, and here it is an error.
def push (slots : Nat) : Emit Unit := do
  if 65535 < (← get).depth + slots then throw .depthOverflow
  else modify (·.push slots)

def effect (pops pushes : Nat) : Emit Unit := do
  pop pops
  push pushes

def stackEffect (opcode : Opcode) : Emit (Nat × Nat) :=
  match opcode.stackEffect? with
  | some effect => return effect
  | none => throw (.needsOperands opcode)

def endPath (opcode : Opcode) : Emit Unit :=
  if opcode.isReturn || opcode = .athrow || opcode = .goto then modify (·.kill) else return

def fixed (opcode : Opcode) (operands : List UInt8) : Emit Unit := do
  let (pops, pushes) ← stackEffect opcode
  append (opcode :: operands)
  effect pops pushes

def op (opcode : Opcode) : Emit Unit :=
  whenAlive do
    fixed opcode []
    endPath opcode

def opByte (opcode : Opcode) (operand : UInt8) : Emit Unit :=
  whenAlive (fixed opcode [operand])

def opWord (opcode : Opcode) (operand : UInt16) : Emit Unit :=
  whenAlive (fixed opcode (Bytes.u2 operand))

def smallInt (value : Int) : Emit Bool := do
  if -1 ≤ value ∧ value ≤ 5 then
    op (.iconst0 + UInt8.ofInt value)
    return true
  else if -128 ≤ value ∧ value ≤ 127 then
    opByte .bipush (UInt8.ofInt value)
    return true
  else if -32768 ≤ value ∧ value ≤ 32767 then
    opWord .sipush (UInt16.ofInt value)
    return true
  else return false

def constant (index : UInt16) (width : Nat) : Emit Unit :=
  whenAlive do
    if width = 2 then append (Opcode.ldc2W :: Bytes.u2 index)
    else if index ≤ 0xff then append [Opcode.ldc, index.toUInt8]
    else append (Opcode.ldcW :: Bytes.u2 index)
    push width

-- The shortest form of a load or store: slots up to 3 are part of the opcode.
def localAccess (base shortBase : Opcode) (kind : Kind) (slot : Nat) : List UInt8 :=
  if slot ≤ 3 then [shortBase + UInt8.ofNat (kind.familyOffset * 4 + slot)]
  else if slot ≤ 255 then [base.ofFamily kind, UInt8.ofNat slot]
  else Opcode.wide :: base.ofFamily kind :: Bytes.u2 (UInt16.ofNat slot)

def load (kind : Kind) (slot : Nat) : Emit Unit :=
  whenAlive do
    append (localAccess .iload .iload0 kind slot)
    push kind.width

def store (kind : Kind) (slot : Nat) : Emit Unit :=
  whenAlive do
    append (localAccess .istore .istore0 kind slot)
    pop kind.width

def ret (kind : Kind) : Emit Unit :=
  op kind.returnOpcode

-- A call; `args` counts the slots of the arguments without the receiver.
def invoke (opcode : Opcode) (index : UInt16) (args returns : Nat) : Emit Unit :=
  whenAlive do
    append (opcode :: Bytes.u2 index)
    if opcode = .invokeinterface then append [UInt8.ofNat (args + 1), 0]
    effect (if opcode = .invokestatic then args else args + 1) returns

def fieldEffect (opcode : Opcode) (width : Nat) : Nat × Nat :=
  if opcode = .getstatic then (0, width)
  else if opcode = .putstatic then (width, 0)
  else if opcode = .getfield then (1, width)
  else (width + 1, 0)

def field (opcode : Opcode) (index : UInt16) (width : Nat) : Emit Unit :=
  whenAlive do
    append (opcode :: Bytes.u2 index)
    effect (fieldEffect opcode width).1 (fieldEffect opcode width).2

def jump (opcode : Opcode) (label : Label) : Emit Unit :=
  whenAlive do
    let (pops, _) ← stackEffect opcode
    modify (fun b =>
      let opcodePc := b.pc
      let fixup := { opcodePc, operandPc := opcodePc + 1, label, isWide := false }
      (b.append [opcode, 0, 0]).addFixup fixup)
    pop pops
    modify (·.recordArrival label)
    endPath opcode

def switchTarget (opcodePc : Nat) (label : Label) : Emit Unit :=
  modify (fun b =>
    let fixup := { opcodePc, operandPc := b.pc, label, isWide := true }
    ((b.addFixup fixup).append [0, 0, 0, 0]).recordArrival label)

def lookupSwitch (default : Label) (pairs : List (Int × Label)) : Emit Unit :=
  whenAlive do
    let opcodePc := (← get).pc
    append (Opcode.lookupswitch :: List.replicate (3 - opcodePc % 4) 0)
    pop 1
    switchTarget opcodePc default
    append (Bytes.u4 (UInt32.ofNat pairs.length))
    pairs.forM (fun (key, label) => do
      append (Bytes.u4 (UInt32.ofInt key))
      switchTarget opcodePc label)
    modify (·.kill)

end Emit

end ClassForge
