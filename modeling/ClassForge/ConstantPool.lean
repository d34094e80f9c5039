import Std.Data.TreeMap
import ClassForge.Bytes
import ClassForge.Error
import ClassForge.Text.ModifiedUtf8

set_option autoImplicit false

namespace ClassForge

/-- An entry of a constant pool. Floating-point numbers are held as their bits, so that entries are
equal exactly when their bytes are. -/
inductive Constant where
  | utf8 (text : String)
  | integer (value : Int32)
  | float (bits : UInt32)
  | long (value : Int64)
  | double (bits : UInt64)
  | classRef (name : UInt16)
  | string (text : UInt16)
  | fieldRef (owner member : UInt16)
  | methodRef (owner member : UInt16)
  | interfaceMethodRef (owner member : UInt16)
  | nameAndType (name descriptor : UInt16)
  deriving DecidableEq, Repr

namespace Constant

def tag : Constant → UInt8
  | .utf8 _ => 1
  | .integer _ => 3
  | .float _ => 4
  | .long _ => 5
  | .double _ => 6
  | .classRef _ => 7
  | .string _ => 8
  | .fieldRef .. => 9
  | .methodRef .. => 10
  | .interfaceMethodRef .. => 11
  | .nameAndType .. => 12

def width : Constant → Nat
  | .long _ => 2
  | .double _ => 2
  | _ => 1

def payload : Constant → List UInt8
  | .utf8 text =>
    let encoded := Text.modifiedUtf8 text
    Bytes.u2 (UInt16.ofNat encoded.length) ++ encoded
  | .integer value => Bytes.u4 value.toUInt32
  | .float bits => Bytes.u4 bits
  | .long value => Bytes.u8 value.toUInt64
  | .double bits => Bytes.u8 bits
  | .classRef name => Bytes.u2 name
  | .string text => Bytes.u2 text
  | .fieldRef owner member => Bytes.u2 owner ++ Bytes.u2 member
  | .methodRef owner member => Bytes.u2 owner ++ Bytes.u2 member
  | .interfaceMethodRef owner member => Bytes.u2 owner ++ Bytes.u2 member
  | .nameAndType name descriptor => Bytes.u2 name ++ Bytes.u2 descriptor

def bytes (c : Constant) : List UInt8 :=
  c.tag :: c.payload

def text : Constant → String
  | .utf8 text => text
  | _ => ""

def code (c : Constant) : Nat :=
  let number := match c with
    | .utf8 _ => 0
    | .integer value => value.toUInt32.toNat
    | .float bits => bits.toNat
    | .long value => value.toUInt64.toNat
    | .double bits => bits.toNat
    | .classRef name => name.toNat
    | .string text => text.toNat
    | .fieldRef a b => a.toNat * 65536 + b.toNat
    | .methodRef a b => a.toNat * 65536 + b.toNat
    | .interfaceMethodRef a b => a.toNat * 65536 + b.toNat
    | .nameAndType a b => a.toNat * 65536 + b.toNat
  number * 16 + c.tag.toNat

def order : Constant → Constant → Ordering :=
  compareLex (compareOn code) (compareOn text)

end Constant

/-- Constants by index, counted from one; the index after a long or double constant is empty. -/
structure ConstantPool where
  slots : Array (Option Constant) := #[]
  indices : Std.TreeMap Constant UInt16 Constant.order := {}

abbrev Pooled (α : Type) := EStateM PoolError ConstantPool α

namespace ConstantPool

def index? (pool : ConstantPool) (c : Constant) : Option UInt16 :=
  pool.indices[c]?

def hasRoom (pool : ConstantPool) (width : Nat) : Bool :=
  pool.slots.size + width < 65535

def append (pool : ConstantPool) (c : Constant) : ConstantPool :=
  let index := UInt16.ofNat (pool.slots.size + 1)
  let slots := pool.slots.push (some c)
  { slots := if c.width = 2 then slots.push none else slots
    indices := pool.indices.insert c index }

def get? (pool : ConstantPool) (index : UInt16) : Option Constant :=
  if index = 0 then none else (pool.slots[index.toNat - 1]?).join

def utf8? (pool : ConstantPool) (index : UInt16) : Option String :=
  match pool.get? index with
  | some (.utf8 text) => some text
  | _ => none

def className? (pool : ConstantPool) (index : UInt16) : Option String :=
  match pool.get? index with
  | some (.classRef name) => pool.utf8? name
  | _ => none

def memberRef? (pool : ConstantPool) (index : UInt16) : Option (String × String × String) := do
  let (owner, member) ← match ← pool.get? index with
    | .fieldRef owner member => some (owner, member)
    | .methodRef owner member => some (owner, member)
    | .interfaceMethodRef owner member => some (owner, member)
    | _ => none
  match ← pool.get? member with
  | .nameAndType name descriptor =>
    return (← pool.className? owner, ← pool.utf8? name, ← pool.utf8? descriptor)
  | _ => none

def count (pool : ConstantPool) : Nat :=
  pool.slots.size + 1

def constants (pool : ConstantPool) : List Constant :=
  pool.slots.toList.filterMap id

def entries (pool : ConstantPool) : List (Nat × Constant) :=
  (pool.slots.toList.zipIdx 1).filterMap (fun (slot, index) => slot.map (index, ·))

def bytes (pool : ConstantPool) : List UInt8 :=
  Bytes.u2 (UInt16.ofNat pool.count) ++ pool.constants.flatMap Constant.bytes

end ConstantPool

namespace Pooled

def add (c : Constant) : Pooled UInt16 := fun pool =>
  match pool.index? c with
  | some index => .ok index pool
  | none =>
    if pool.hasRoom c.width then
      let index := UInt16.ofNat (pool.slots.size + 1)
      .ok index (pool.append c)
    else .error .outOfSpace pool

def utf8 (text : String) : Pooled UInt16 :=
  add (.utf8 text)

def classRef (internalName : String) : Pooled UInt16 := do
  add (.classRef (← utf8 internalName))

def string (text : String) : Pooled UInt16 := do
  add (.string (← utf8 text))

def nameAndType (name descriptor : String) : Pooled UInt16 := do
  let name ← utf8 name
  let descriptor ← utf8 descriptor
  add (.nameAndType name descriptor)

def fieldRef (owner name descriptor : String) : Pooled UInt16 := do
  let owner ← classRef owner
  let member ← nameAndType name descriptor
  add (.fieldRef owner member)

def methodRef (owner name descriptor : String) : Pooled UInt16 := do
  let owner ← classRef owner
  let member ← nameAndType name descriptor
  add (.methodRef owner member)

def interfaceMethodRef (owner name descriptor : String) : Pooled UInt16 := do
  let owner ← classRef owner
  let member ← nameAndType name descriptor
  add (.interfaceMethodRef owner member)

end Pooled

end ClassForge
