import ClassForge.CodeBuffer
import ClassForge.ConstantPool
import ClassForge.Scope
import ClassForge.Slots

set_option autoImplicit false

namespace ClassForge

structure Site where
  scope : Scope
  isStatic : Bool
  isInitializer : Bool
  returns : Descriptor

structure Context extends Site where
  slots : Slots

namespace Site

def program (site : Site) : Program :=
  site.scope.program

def self (site : Site) : String :=
  site.scope.decl.internalName

def location (site : Site) (line : Nat) : Location :=
  site.scope.decl.locationAt line

end Site

structure FieldTarget where
  owner : String
  name : String
  descriptor : Descriptor
  isStatic : Bool
  isFinal : Bool
  isPrivate : Bool
  deriving DecidableEq, Repr

structure MethodTarget where
  owner : String
  name : String
  descriptor : MethodDescriptor
  params : List Descriptor
  returns : Descriptor
  isStatic : Bool
  isPrivate : Bool
  onInterface : Bool
  deriving DecidableEq, Repr

def MethodTarget.invokeOpcode (m : MethodTarget) : Opcode :=
  if m.isStatic then .invokestatic
  else if m.onInterface then .invokeinterface
  else if m.isPrivate then .invokespecial
  else .invokevirtual

inductive Place where
  | this
  | variable (name : String) (slot : Nat) (descriptor : Descriptor) (isFinal : Bool)
  | staticField (field : FieldTarget)
  | field (receiver : Place) (field : FieldTarget)
  | length (array : Place)
  deriving DecidableEq, Repr

inductive Referent where
  | type (internalName : String)
  | value (place : Place)
  deriving DecidableEq, Repr

structure Workspace where
  pool : ConstantPool
  code : CodeBuffer := {}
  slots : Slots := {}

abbrev Gen (α : Type) := EStateM Cause Workspace α

abbrev Lower (α : Type) := EStateM CompileError Workspace α

namespace Gen

def emit {α : Type} (step : Emit α) : Gen α
  | { pool, code, slots } =>
    match step code with
    | .ok a code => .ok a { pool, code, slots }
    | .error error code => .error (.code error) { pool, code, slots }

def pooled {α : Type} (step : Pooled α) : Gen α
  | { pool, code, slots } =>
    match step pool with
    | .ok a pool => .ok a { pool, code, slots }
    | .error error pool => .error (.pool error) { pool, code, slots }

def check {α : Type} : Except Cause α → Gen α
  | .ok a => return a
  | .error cause => throw cause

def located {α : Type} (location : Location) (step : Gen α) : Lower α := fun w =>
  match step w with
  | .ok a w => .ok a w
  | .error cause w => .error { cause, location := some location } w

def unlocated {α : Type} (step : Gen α) : Lower α := fun w =>
  match step w with
  | .ok a w => .ok a w
  | .error cause w => .error { cause } w

end Gen

end ClassForge
