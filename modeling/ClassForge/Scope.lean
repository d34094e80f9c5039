import ClassForge.Hierarchy

set_option autoImplicit false

namespace ClassForge

inductive BaseType where
  | primitive (p : Primitive)
  | param (name : String) (bound : Option TypeName)
  | named (qualified : String)
  deriving DecidableEq, Repr

structure TypeRef where
  dims : Nat
  base : BaseType
  deriving DecidableEq, Repr

namespace TypeRef

def isGeneric (t : TypeRef) : Bool :=
  match t.base with
  | .param .. => true
  | _ => false

def isPrimitive (t : TypeRef) : Bool :=
  match t with
  | { dims := 0, base := .primitive _ } => true
  | _ => false

def className? (t : TypeRef) : Option String :=
  match t with
  | { dims := 0, base := .named qualified } => some qualified
  | _ => none

end TypeRef

structure Scope where
  program : Program
  decl : Decl
  typeParams : List TypeParam := []

namespace Scope

def typeParam? (scope : Scope) (name : String) : Option TypeParam :=
  (scope.typeParams ++ scope.decl.typeParams).find? (·.name = name)

def resolve (scope : Scope) (t : TypeName) : Except Cause TypeRef :=
  match Primitive.ofKeyword? t.base, scope.typeParam? t.base, scope.decl.uses.find? t.base with
  | some p, _, _ => .ok { dims := t.dims, base := .primitive p }
  | none, some param, _ => .ok { dims := t.dims, base := .param param.name param.bounds.head? }
  | none, none, some qualified => .ok { dims := t.dims, base := .named qualified }
  | none, none, none => .error (.unknownType t.base)

def brackets (dims : Nat) : String :=
  String.ofList (List.replicate dims '[')

-- The descriptor of a type, where a type parameter counts as its first bound. A bound can name another type
-- parameter, at most `fuel` times.
def erase (scope : Scope) : (fuel : Nat) → TypeName → Except Cause Descriptor
  | 0, t => .error (.unknownType t.base)
  | fuel + 1, t => do
    let ref ← scope.resolve t
    let base ← match ref.base with
      | .primitive p => pure (Descriptor.ofPrimitive p)
      | .named qualified => pure (.ofClass (scope.program.internalName qualified))
      | .param _ none => pure Descriptor.object
      | .param _ (some bound) => erase scope fuel bound
    return ⟨brackets ref.dims ++ base.text⟩

def descriptor (scope : Scope) (t : TypeName) : Except Cause Descriptor :=
  scope.erase (scope.typeParams.length + scope.decl.typeParams.length + 2) t

def resultDescriptor (scope : Scope) : Option TypeName → Except Cause Descriptor
  | some t => scope.descriptor t
  | none => .ok .void

def methodDescriptor (scope : Scope) (params : List Param) (returns : Option TypeName) :
    Except Cause MethodDescriptor := do
  let params ← params.mapM (fun p => scope.descriptor p.type)
  let returns ← scope.resultDescriptor returns
  return .of params returns

def internalName (scope : Scope) (t : TypeName) : Except Cause String := do
  let d ← scope.descriptor t
  return d.className?.getD d.text

end Scope

end ClassForge
