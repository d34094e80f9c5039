import ClassForge.ClassFile.Basic
import ClassForge.Descriptor

set_option autoImplicit false

namespace ClassForge

structure Options where
  -- 49 is the last version that loads without stack maps.
  major : UInt16 := 49
  debug : Bool := false
  signatures : Bool := true
  superclass : String := "java/lang/Object"
  deriving DecidableEq, Repr

/-- A step of building a class file. A step that fails keeps the constants it added. -/
abbrev Build (α : Type) := EStateM CompileError ConstantPool α

namespace Build

def pooled {α : Type} (step : Pooled α) : Build α := fun pool =>
  match step pool with
  | .ok a pool => .ok a pool
  | .error error pool => .error { cause := .pool error } pool

def check {α : Type} : Except CompileError α → Build α
  | .ok a => return a
  | .error error => throw error

def located {α : Type} (location : Location) (step : Build α) : Build α := fun pool =>
  match step pool with
  | .ok a pool => .ok a pool
  | .error error pool => .error (error.locate location) pool

def textAttribute (name text : String) : Build Attribute := do
  let index ← pooled (.utf8 text)
  let name ← pooled (.utf8 name)
  return { name, info := Bytes.u2 index }

def signature (options : Options) : Option String → Build (List Attribute)
  | none => return []
  | some text => do
    if ¬ options.signatures then return []
    return [← textAttribute "Signature" text]

def field (options : Options) (flags : UInt16) (name : String) (d : Descriptor)
    (generic : Option String) : Build FieldInfo := do
  let name ← pooled (.utf8 name)
  let descriptor ← pooled (.utf8 d.text)
  return { flags, name, descriptor, attributes := ← signature options generic }

def method (options : Options) (flags : UInt16) (name : String) (d : MethodDescriptor)
    (code : Option CodeAttribute) (generic : Option String) : Build MethodInfo := do
  let name ← pooled (.utf8 name)
  let descriptor ← pooled (.utf8 d.text)
  return { flags, name, descriptor, code, attributes := ← signature options generic }

def header (self superclass : String) (interfaces : List String) : Build Contents := do
  let thisClass ← pooled (.classRef self)
  let superClass ← pooled (.classRef superclass)
  let interfaces ← interfaces.mapM (fun name => pooled (.classRef name))
  return { thisClass, superClass, interfaces }

end Build

end ClassForge
