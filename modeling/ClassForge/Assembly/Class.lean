import ClassForge.ClassFile.Flags
import ClassForge.Lowering.Member
import ClassForge.Signature

set_option autoImplicit false

namespace ClassForge.Assembly

def staticInitName : String := "<clinit>"

def noArguments : MethodDescriptor :=
  .of [] .void

structure Target where
  program : Program
  decl : Decl
  options : Options

namespace Target

def scope (t : Target) : Scope :=
  t.program.scopeOf t.decl

def self (t : Target) : String :=
  t.decl.internalName

def selfType (t : Target) : Descriptor :=
  .ofClass t.self

def check {α : Type} (t : Target) (result : Except Cause α) : Build α :=
  Build.check (located t.decl.location result)

def checkAt {α : Type} (t : Target) (line : Nat) (result : Except Cause α) : Build α :=
  Build.check (located (t.decl.locationAt line) result)

def field (t : Target) (f : Field) : Build FieldInfo := do
  let d ← t.checkAt f.line (t.scope.descriptor f.type)
  let generic ← t.checkAt f.line (t.scope.fieldSignature f.type)
  Build.field t.options (AccessFlags.ofField f.modifier) f.name d generic

def constructor (t : Target) (c : Constructor) : Build MethodInfo := do
  let d ← t.checkAt c.line (t.scope.methodDescriptor c.params none)
  let generic ← t.checkAt c.line (t.scope.methodSignature [] c.params none)
  let code ← t.program.constructorCode t.decl c t.options.superclass
  Build.method t.options (AccessFlags.ofMethod c.modifier) constructorName d (some code) generic

def method (t : Target) (m : Method) (flags : UInt16) : Build MethodInfo := do
  let scope := { t.scope with typeParams := m.typeParams }
  let d ← t.checkAt m.line (scope.methodDescriptor m.params m.returns)
  let generic ← t.checkAt m.line (scope.methodSignature m.typeParams m.params m.returns)
  let code ←
    if t.decl.isInterface || m.modifier.has .abstract || m.modifier.has .native then pure none
    else some <$> t.program.methodCode t.decl m
  Build.method t.options flags m.name d code generic

def staticInit (t : Target) : Build (List MethodInfo) := do
  match ← t.program.staticInitCode t.decl with
  | none => return []
  | some code =>
    return [← Build.method t.options AccessFlags.isStatic staticInitName noArguments (some code) none]

def members {α β : Type} (t : Target) (line : α → Nat) (step : α → Build β) (items : List α) :
    Build (List β) :=
  items.mapM (fun item => (step item).located (t.decl.locationAt (line item)))

def classContents (t : Target) (body : ClassBody) : Build Contents := do
  let superclass ← t.check (
    match body.superclass with
    | some name => t.scope.internalName name
    | none => .ok t.options.superclass)
  let interfaces ← t.check (body.interfaces.mapM t.scope.internalName)
  let contents ← Build.header t.self superclass interfaces
  let generic ← t.check (t.scope.classSignature body.superclass body.interfaces)
  let attributes ← Build.signature t.options generic
  let fields ← t.members (·.line) t.field body.fields
  let constructors ← t.members (·.line) t.constructor body.constructors
  let methods ← t.members (·.line) (fun m => t.method m (AccessFlags.ofMethod m.modifier)) body.methods
  let staticInit ← t.staticInit
  return { contents with fields, methods := constructors ++ methods ++ staticInit, attributes }

def interfaceContents (t : Target) (parents : List TypeName) (methods : List Method) :
    Build Contents := do
  let interfaces ← t.check (parents.mapM t.scope.internalName)
  let contents ← Build.header t.self "java/lang/Object" interfaces
  let generic ← t.check (t.scope.classSignature none parents)
  let attributes ← Build.signature t.options generic
  let methods ← t.members (·.line)
    (fun m => t.method m (AccessFlags.ofInterfaceMethod m.modifier)) methods
  return { contents with methods, attributes }

end Target

end ClassForge.Assembly
