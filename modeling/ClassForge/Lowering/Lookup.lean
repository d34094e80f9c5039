import ClassForge.Lowering.Basic

set_option autoImplicit false

namespace ClassForge

namespace Decl

def fields (d : Decl) : List Field :=
  match d.shape with
  | .record components => components
  | .plainClass body => body.fields
  | _ => []

def values (d : Decl) : List String :=
  match d.shape with
  | .enumeration values => values
  | _ => []

def superclass? (d : Decl) : Option TypeName :=
  d.classBody?.bind (·.superclass)

end Decl

namespace Program

def scopeOf (program : Program) (d : Decl) : Scope :=
  { program, decl := d }

def ownField? (program : Program) (d : Decl) (name : String) : Except Cause (Option FieldTarget) :=
  if name ∈ d.values then
    .ok (some {
      owner := d.internalName, name, descriptor := .ofClass d.internalName
      isStatic := true, isFinal := true, isPrivate := false })
  else match d.fields.find? (·.name = name) with
    | none => .ok none
    | some field => do
      let descriptor ← (program.scopeOf d).descriptor field.type
      return some {
        owner := d.internalName, name, descriptor
        isStatic := field.modifier.has .static
        isFinal := field.modifier.has .final || field.modifier.has .const
        isPrivate := field.modifier.access = .declarer }

-- The field of this name that a class has or inherits within the file, at most `fuel` classes up.
def searchField (program : Program) (name : String) :
    (fuel : Nat) → (owner : String) → Except Cause (Option FieldTarget)
  | 0, _ => .ok none
  | fuel + 1, owner =>
    match program.findInternal? owner with
    | none => .ok none
    | some d => do
      match ← program.ownField? d name with
      | some field => return some field
      | none =>
        match d.superclass? with
        | none => return none
        | some superclass =>
          let parent ← (program.scopeOf d).internalName superclass
          searchField program name fuel parent

def findField (program : Program) (owner name : String) : Except Cause (Option FieldTarget) :=
  program.searchField name (List.length program + 1) owner

def accepts (program : Program) (params arguments : List Descriptor) : Bool :=
  params.length = arguments.length &&
    (arguments.zip params).all (fun (argument, param) =>
      match program.coercion? argument param with
      | some (.convert _) => true
      | _ => false)

-- Of several candidates, the one whose parameters are exactly the arguments, else the first that accepts them.
def select? {α : Type} (program : Program) (params : α → List Descriptor) (candidates : List α)
    (arguments : List Descriptor) : Option α :=
  (candidates.find? (fun c => params c = arguments)).or
    (candidates.find? (fun c => program.accepts (params c) arguments))

end Program

namespace MethodTarget

def make (owner name : String) (descriptor : MethodDescriptor) (isStatic isPrivate onInterface : Bool) :
    Except Cause MethodTarget :=
  match descriptor.split? with
  | some (params, returns) =>
    .ok { owner, name, descriptor, params, returns, isStatic, isPrivate, onInterface }
  | none => .error (.lowering (.malformedDescriptor descriptor.text))

def ofEnumeration? (owner name : String) : Option (MethodDescriptor × Bool) :=
  let self := Descriptor.ofClass owner
  match name with
  | "values" => some (.of [] self.arrayOf, true)
  | "valueOf" => some (.of [.string] self, true)
  | "name" => some (.of [] .string, false)
  | "ordinal" => some (.of [] .int, false)
  | _ => none

end MethodTarget

namespace Program

def methodTarget (program : Program) (d : Decl) (m : Method) : Except Cause MethodTarget := do
  let scope := { program.scopeOf d with typeParams := m.typeParams }
  let descriptor ← scope.methodDescriptor m.params m.returns
  MethodTarget.make d.internalName m.name descriptor (m.modifier.has .static)
    (m.modifier.access = .declarer) d.isInterface

def ownMethods (program : Program) (d : Decl) (name : String) : Except Cause (List MethodTarget) :=
  match d.shape with
  | .enumeration _ =>
    match MethodTarget.ofEnumeration? d.internalName name with
    | some (descriptor, isStatic) => do
      return [← MethodTarget.make d.internalName name descriptor isStatic false false]
    | none => .ok []
  | .record components =>
    match components.find? (·.name = name) with
    | some component => do
      let returns ← (program.scopeOf d).descriptor component.type
      return [← MethodTarget.make d.internalName name (.of [] returns) false false false]
    | none => .ok []
  | _ => (d.methods.filter (·.name = name)).mapM (program.methodTarget d)

def searchMethod (program : Program) (name : String) (arguments : List Descriptor) :
    List String → Except Cause (Option MethodTarget)
  | [] => .ok none
  | owner :: rest =>
    match program.findInternal? owner with
    | none => searchMethod program name arguments rest
    | some d => do
      let candidates ← program.ownMethods d name
      match program.select? MethodTarget.params candidates arguments with
      | some m => return some m
      | none => searchMethod program name arguments rest

def findMethod (program : Program) (owner name : String) (arguments : List Descriptor) :
    Except Cause (Option MethodTarget) :=
  program.searchMethod name arguments (program.ancestors owner)

def constructorParams (program : Program) (d : Decl) : Except Cause (List (List Descriptor)) :=
  let scope := program.scopeOf d
  match d.shape with
  | .plainClass body =>
    body.constructors.mapM (fun c => c.params.mapM (fun p => scope.descriptor p.type))
  | .record components => do
    return [← components.mapM (fun f => scope.descriptor f.type)]
  | _ => .error (.lowering (.notInstantiable d.name))

-- Parameters of the constructor that takes these arguments. Classes of other files are taken to have one that
-- fits.
def constructorFor (program : Program) (internalName : String) (arguments : List Descriptor)
    (instantiates : Bool) : Except Cause (List Descriptor) :=
  match program.findInternal? internalName with
  | none => .ok (arguments.map (fun a => if a = .null then .object else a))
  | some d => do
    if instantiates && d.classBody?.isSome && d.modifier.has .abstract then
      throw (.lowering (.abstractInstance d.name))
    let candidates ← program.constructorParams d
    match program.select? id candidates arguments with
    | some params => return params
    | none => throw (.lowering (.noConstructor d.name (arguments.map Descriptor.display)))

end Program

def displayClass (internalName : String) : String :=
  (Descriptor.ofClass internalName).display

namespace Context

def checkField (ctx : Context) (field : FieldTarget) : Except Cause FieldTarget :=
  if field.isPrivate && field.owner ≠ ctx.self then
    .error (.lowering (.privateAccess field.name (displayClass field.owner)))
  else .ok field

def descriptorOf (ctx : Context) : Place → Descriptor
  | .this => .ofClass ctx.self
  | .variable _ _ descriptor _ => descriptor
  | .staticField field => field.descriptor
  | .field _ field => field.descriptor
  | .length _ => .int

def ownPlace (ctx : Context) (name : String) (field : FieldTarget) : Except Cause Place := do
  let field ← ctx.checkField field
  if field.isStatic then return .staticField field
  if ctx.isStatic then throw (.lowering (.staticContext "variable" name))
  return .field .this field

-- A bare name: `this`, else a variable, else a field, else a type.
def resolveName (ctx : Context) (name : String) : Except Cause Referent :=
  if name = "this" then
    if ctx.isStatic then .error (.lowering (.staticContext "variable" "this")) else .ok (.value .this)
  else match ctx.slots.lookup? name with
    | some b => .ok (.value (.variable name b.offset (b.descriptor.getD .object) b.isFinal))
    | none => do
      match ← ctx.program.findField ctx.self name with
      | some field => return .value (← ctx.ownPlace name field)
      | none =>
        match ctx.scope.resolve (.plain name) with
        | .ok { dims := 0, base := .named qualified } => return .type (ctx.program.internalName qualified)
        | _ => throw (.lowering (.unknownSymbol name))

def fieldOf (ctx : Context) (owner name : String) : Except Cause FieldTarget := do
  match ← ctx.program.findField owner name with
  | some field => ctx.checkField field
  | none => throw (.lowering (.unknownMember name (displayClass owner)))

def resolveMember (ctx : Context) (name : String) : Referent → Except Cause Place
  | .type owner => do
    let field ← ctx.fieldOf owner name
    if field.isStatic then return .staticField field
    throw (.lowering (.staticContext "variable" name))
  | .value place => do
    let descriptor := ctx.descriptorOf place
    if descriptor.element?.isSome ∧ name = "length" then return .length place
    match descriptor.className? with
    | none => throw (.lowering (.noMembers name descriptor.display))
    | some owner =>
      let field ← ctx.fieldOf owner name
      return if field.isStatic then .staticField field else .field place field

def resolveHead (ctx : Context) : Head → Except Cause (Option Referent)
  | .implicit => .ok none
  | .self => do return some (← ctx.resolveName "this")
  | .named id => do return some (← ctx.resolveName id)
  | .member owner id => do return some (.value (← ctx.resolveMember id (← ctx.resolveName owner)))

def receiverClass (name : String) (descriptor : Descriptor) : Except Cause String :=
  match descriptor.className? with
  | some owner => .ok owner
  | none => .error (.lowering (.noCalls name descriptor.display))

def headClass (ctx : Context) (name : String) : Option Referent → Except Cause String
  | none => .ok ctx.self
  | some (.type owner) => .ok owner
  | some (.value place) => receiverClass name (ctx.descriptorOf place)

def needsStatic (ctx : Context) : Option Referent → Bool
  | none => ctx.isStatic
  | some (.type _) => true
  | some (.value _) => false

def methodOf (ctx : Context) (owner name : String) (arguments : List Descriptor) :
    Except Cause MethodTarget := do
  match ← ctx.program.findMethod owner name arguments with
  | none =>
    throw (.lowering (.unknownMethod name (arguments.map Descriptor.display) (displayClass owner)))
  | some m =>
    if m.isPrivate && m.owner ≠ ctx.self then
      throw (.lowering (.privateAccess m.name (displayClass m.owner)))
    return m

def firstMethod (ctx : Context) (base : Option Referent) (name : String) (arguments : List Descriptor) :
    Except Cause MethodTarget := do
  let owner ← ctx.headClass name base
  let m ← ctx.methodOf owner name arguments
  if ctx.needsStatic base && !m.isStatic then throw (.lowering (.staticContext "method" m.name))
  return m

def nextMethod (ctx : Context) (previous : Descriptor) (name : String) (arguments : List Descriptor) :
    Except Cause MethodTarget := do
  let owner ← receiverClass name previous
  ctx.methodOf owner name arguments

end Context

end ClassForge
