import ClassForge.Scope

set_option autoImplicit false

namespace ClassForge

namespace TypeRef

def signature (program : Program) (t : TypeRef) : String :=
  Scope.brackets t.dims ++
    match t.base with
    | .primitive p => p.code
    | .named qualified => (Descriptor.ofClass (program.internalName qualified)).text
    | .param name _ => "T" ++ name ++ ";"

end TypeRef

namespace Scope

def boundSignature (scope : Scope) (isFirst : Bool) (bound : TypeName) : Except Cause String := do
  let t ← scope.resolve bound
  let isInterface := t.className?.any scope.program.isInterface
  return (if isFirst && isInterface then "::" else ":") ++ t.signature scope.program

def typeParamSignature (scope : Scope) (param : TypeParam) : Except Cause String :=
  match param.bounds with
  | [] => .ok (param.name ++ ":" ++ Descriptor.object.text)
  | first :: others => do
    let first ← scope.boundSignature true first
    let others ← others.mapM (scope.boundSignature false)
    return param.name ++ first ++ String.join others

def typeParamsSignature (scope : Scope) (params : List TypeParam) : Except Cause String := do
  let params ← params.mapM scope.typeParamSignature
  return "<" ++ String.join params ++ ">"

def classSignature (scope : Scope) (superclass : Option TypeName) (interfaces : List TypeName) :
    Except Cause (Option String) :=
  match scope.decl.typeParams with
  | [] => .ok none
  | params => do
    let params ← scope.typeParamsSignature params
    let superclass ← match superclass with
      | some t => do pure ((← scope.resolve t).signature scope.program)
      | none => pure Descriptor.object.text
    let interfaces ← interfaces.mapM scope.resolve
    return some (params ++ superclass ++
      String.join (interfaces.map (·.signature scope.program)))

def methodSignature (scope : Scope) (typeParams : List TypeParam) (params : List Param)
    (returns : Option TypeName) : Except Cause (Option String) := do
  let types ← params.mapM (fun p => scope.resolve p.type)
  let result ← returns.mapM scope.resolve
  if typeParams.isEmpty && ¬ (types ++ result.toList).any (·.isGeneric) then return none
  let formals ← if typeParams.isEmpty then pure "" else scope.typeParamsSignature typeParams
  let result := match result with
    | some t => t.signature scope.program
    | none => Descriptor.void.text
  return some (formals ++ "(" ++ String.join (types.map (·.signature scope.program)) ++ ")" ++ result)

def fieldSignature (scope : Scope) (t : TypeName) : Except Cause (Option String) := do
  let ref ← scope.resolve t
  return if ref.isGeneric then some (ref.signature scope.program) else none

end Scope

end ClassForge
