import ClassForge.Assembly.Class

set_option autoImplicit false

namespace ClassForge.Assembly.Record

structure Component where
  name : String
  type : Descriptor
  generic : Option String
  deriving DecidableEq, Repr

-- Stores arguments in their fields, the first one from slot `slot`; the answer is the slot after the last one.
def store (t : Target) (slot : Nat) : List Component → Gen Nat
  | [] => return slot
  | c :: rest => do
    Gen.emit (.load .reference 0)
    Gen.emit (.load c.type.kind slot)
    let field ← Gen.pooled (.fieldRef t.self c.name c.type.text)
    Gen.emit (.field .putfield field c.type.width)
    store t (slot + c.type.width) rest

def constructorCode (t : Target) (components : List Component) : Build CodeAttribute :=
  Gen.run do
    Gen.emit (.load .reference 0)
    let init ← Gen.pooled (.methodRef "java/lang/Object" constructorName noArguments.text)
    Gen.emit (.invoke .invokespecial init 0 0)
    let maxLocals ← store t 1 components
    Gen.emit (.ret .void)
    Gen.finish maxLocals

def accessorCode (t : Target) (c : Component) : Build CodeAttribute :=
  Gen.method 1 do
    Gen.emit (.load .reference 0)
    let field ← Gen.pooled (.fieldRef t.self c.name c.type.text)
    Gen.emit (.field .getfield field c.type.width)
    Gen.emit (.ret c.type.kind)

def component (t : Target) (f : Field) : Build (Component × FieldInfo) := do
  let type ← t.checkAt f.line (t.scope.descriptor f.type)
  let generic ← t.checkAt f.line (t.scope.fieldSignature f.type)
  let field ← Build.field t.options (AccessFlags.ofField f.modifier) f.name type generic
  return ({ name := f.name, type, generic }, field)

def accessor (t : Target) (c : Component) : Build MethodInfo := do
  let code ← accessorCode t c
  Build.method t.options AccessFlags.isPublic c.name (.of [] c.type) (some code)
    (c.generic.map ("()" ++ ·))

def contents (t : Target) (fields : List Field) : Build Contents := do
  let head ← Build.header t.self "java/lang/Object" []
  let generic ← t.check (t.scope.classSignature none [])
  let attributes ← Build.signature t.options generic
  let components ← fields.mapM (component t)
  let code ← constructorCode t (components.map (·.1))
  let type := MethodDescriptor.of (components.map (·.1.type)) .void
  let init ← Build.method t.options AccessFlags.isPublic constructorName type (some code) none
  let accessors ← components.mapM (fun c => accessor t c.1)
  return { head with fields := components.map (·.2), methods := init :: accessors, attributes }

end ClassForge.Assembly.Record
