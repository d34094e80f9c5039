import ClassForge.ConstantPool

set_option autoImplicit false

namespace ClassForge

structure Attribute where
  name : UInt16
  info : List UInt8
  deriving DecidableEq, Repr

structure CodeAttribute where
  name : UInt16
  maxStack : UInt16
  maxLocals : UInt16
  code : List UInt8
  attributes : List Attribute := []
  deriving DecidableEq, Repr

structure FieldInfo where
  flags : UInt16
  name : UInt16
  descriptor : UInt16
  attributes : List Attribute := []
  deriving DecidableEq, Repr

structure MethodInfo where
  flags : UInt16
  name : UInt16
  descriptor : UInt16
  code : Option CodeAttribute := none
  attributes : List Attribute := []
  deriving DecidableEq, Repr

structure Contents where
  thisClass : UInt16 := 0
  superClass : UInt16 := 0
  interfaces : List UInt16 := []
  fields : List FieldInfo := []
  methods : List MethodInfo := []
  attributes : List Attribute := []
  deriving DecidableEq, Repr

structure ClassFile extends Contents where
  magic : UInt32 := 0xcafebabe
  minor : UInt16 := 0
  major : UInt16
  pool : ConstantPool := {}
  flags : UInt16 := 0

namespace Attribute

def text? (pool : ConstantPool) (a : Attribute) : Option String :=
  match a.info with
  | [high, low] => pool.utf8? (Bytes.toU2 high low)
  | _ => none

def find? (pool : ConstantPool) (name : String) (attributes : List Attribute) : Option String :=
  (attributes.find? (fun a => pool.utf8? a.name = some name)).bind (text? pool)

def bytes (a : Attribute) : List UInt8 :=
  Bytes.u2 a.name ++ Bytes.u4 (UInt32.ofNat a.info.length) ++ a.info

def listBytes (attributes : List Attribute) : List UInt8 :=
  Bytes.u2 (UInt16.ofNat attributes.length) ++ attributes.flatMap bytes

end Attribute

namespace CodeAttribute

def info (c : CodeAttribute) : List UInt8 :=
  Bytes.u2 c.maxStack ++ Bytes.u2 c.maxLocals ++ Bytes.u4 (UInt32.ofNat c.code.length) ++ c.code ++
    Bytes.u2 0 ++ Attribute.listBytes c.attributes

def bytes (c : CodeAttribute) : List UInt8 :=
  Attribute.bytes { name := c.name, info := c.info }

end CodeAttribute

def FieldInfo.bytes (f : FieldInfo) : List UInt8 :=
  Bytes.u2 f.flags ++ Bytes.u2 f.name ++ Bytes.u2 f.descriptor ++ Attribute.listBytes f.attributes

def MethodInfo.bytes (m : MethodInfo) : List UInt8 :=
  Bytes.u2 m.flags ++ Bytes.u2 m.name ++ Bytes.u2 m.descriptor ++
    Bytes.u2 (UInt16.ofNat (m.attributes.length + m.code.toList.length)) ++
    m.code.toList.flatMap CodeAttribute.bytes ++ m.attributes.flatMap Attribute.bytes

namespace ClassFile

def thisName? (c : ClassFile) : Option String :=
  c.pool.className? c.thisClass

def superName? (c : ClassFile) : Option String :=
  c.pool.className? c.superClass

def interfaceNames (c : ClassFile) : List String :=
  c.interfaces.filterMap c.pool.className?

def signature? (c : ClassFile) : Option String :=
  Attribute.find? c.pool "Signature" c.attributes

def sourceFile? (c : ClassFile) : Option String :=
  Attribute.find? c.pool "SourceFile" c.attributes

def bytes (c : ClassFile) : List UInt8 :=
  Bytes.u4 c.magic ++ Bytes.u2 c.minor ++ Bytes.u2 c.major ++ c.pool.bytes ++
    Bytes.u2 c.flags ++ Bytes.u2 c.thisClass ++ Bytes.u2 c.superClass ++
    Bytes.u2 (UInt16.ofNat c.interfaces.length) ++ c.interfaces.flatMap Bytes.u2 ++
    Bytes.u2 (UInt16.ofNat c.fields.length) ++ c.fields.flatMap FieldInfo.bytes ++
    Bytes.u2 (UInt16.ofNat c.methods.length) ++ c.methods.flatMap MethodInfo.bytes ++
    Attribute.listBytes c.attributes

end ClassFile

end ClassForge
