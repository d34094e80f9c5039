import ClassForge.Scope

set_option autoImplicit false

namespace ClassForge

namespace Review

-- A private nested declaration is accessible from the declaration that encloses it and from the others nested
-- there.
def isAccessible (target viewer : Decl) : Bool :=
  match target.outer with
  | none => true
  | some outer =>
    target.modifier.access ≠ .declarer || viewer.qualified = outer || viewer.outer = some outer

def checkStaticUse (d : Decl) (short : String) : Except Cause Unit :=
  match d.uses.find? short with
  | some qualified =>
    if Primitive.isKeyword qualified then .error (.invalidStaticUse short) else .ok ()
  | none => .error (.invalidStaticUse short)

def checkUse (program : Program) (d : Decl) (short qualified : String) : Except Cause Unit :=
  match program.find? qualified with
  | some target => if isAccessible target d then .ok () else .error (.inaccessibleClass short)
  | none =>
    if (Platform.isInterface? qualified).isSome then .ok () else .error (.unknownType qualified)

def checkUses (program : Program) (d : Decl) : Except Cause Unit := do
  d.staticUses.forM (checkStaticUse d)
  d.uses.forM (fun (short, qualified) => checkUse program d short qualified)

def checkBound (scope : Scope) (param : String) (bound : TypeName) : Except Cause Unit := do
  let t ← scope.resolve bound
  match t.className? with
  | some _ => return
  | none => throw (.review (.illegalBound param bound.spelling))

def checkBounds (scope : Scope) (params : List TypeParam) : Except Cause Unit :=
  params.forM (fun param => param.bounds.forM (checkBound scope param.name))

def rejectVoid (what name : String) (t : TypeName) : Except Cause Unit :=
  if t.base = Primitive.void.keyword then .error (.review (.voidType what name)) else .ok ()

def checkKnown (scope : Scope) (t : TypeName) : Except Cause Unit := do
  let _ ← scope.resolve t

def checkParam (scope : Scope) (p : Param) : Except Cause Unit := do
  rejectVoid "parameter" p.name p.type
  checkKnown scope p.type

def checkComponent (scope : Scope) (f : Field) : Except Cause Unit := do
  rejectVoid "component" f.name f.type
  checkKnown scope f.type

def checkMethod (scope : Scope) (m : Method) : Except Cause Unit := do
  let scope := { scope with typeParams := m.typeParams }
  checkBounds scope m.typeParams
  m.returns.toList.forM (checkKnown scope)
  m.params.forM (checkParam scope)

def checkMembers (program : Program) (d : Decl) : Except CompileError Unit := do
  let scope : Scope := { program, decl := d }
  match d.shape with
  | .enumeration _ => return
  | .record components =>
    components.forM (fun f => located (d.locationAt f.line) (checkComponent scope f))
  | .interface _ methods =>
    methods.forM (fun m => located (d.locationAt m.line) (checkMethod scope m))
  | .plainClass body =>
    body.fields.forM (fun f => located (d.locationAt f.line) (checkKnown scope f.type))
    body.methods.forM (fun m => located (d.locationAt m.line) (checkMethod scope m))
    body.constructors.forM (fun c =>
      located (d.locationAt c.line) (c.params.forM (checkParam scope)))

def superclassObstacle? (program : Program) (t : TypeRef) : Option String :=
  match t with
  | { dims := _ + 1, base := _ } => some "it is an array type"
  | { dims := 0, base := .primitive _ } => some "it is a primitive type"
  | { dims := 0, base := .param .. } => some "it is a generic parameter"
  | { dims := 0, base := .named qualified } =>
    match program.find? qualified with
    | some target =>
      if target.isInterface then some "it is an interface"
      else if target.isFinal then some "it is final"
      else none
    | none => if Platform.isInterface? qualified = some true then some "it is an interface" else none

def checkSuperclass (scope : Scope) (superclass : TypeName) : Except Cause Unit := do
  let t ← scope.resolve superclass
  match superclassObstacle? scope.program t with
  | some reason => throw (.review (.cannotExtend scope.decl.name superclass.spelling reason))
  | none => return

def checkInterface (scope : Scope) (parent : TypeName) : Except Cause Unit := do
  let t ← scope.resolve parent
  if t.className?.any scope.program.isInterface then return
  throw (.review (.notAnInterface scope.decl.name parent.spelling))

def checkSuperCall (d : Decl) (expected : String) (c : Constructor) : Except CompileError Unit :=
  match c.superCall with
  | some call =>
    if call.target = expected then .ok ()
    else located (d.locationAt c.line) (.error (.typeMismatch expected call.target))
  | none => .ok ()

def checkClass (scope : Scope) (body : ClassBody) : Except Cause Unit := do
  let d := scope.decl
  if d.modifier.has .abstract && d.modifier.has .final then
    throw (.review (.abstractAndFinal d.name))
  body.superclass.toList.forM (checkSuperclass scope)
  body.interfaces.forM (checkInterface scope)
  match body.methods.find? (·.modifier.has .abstract) with
  | some m =>
    if d.modifier.has .abstract then return
    throw (.review (.abstractMethod d.name m.name))
  | none => return

def checkShape (program : Program) (d : Decl) : Except CompileError Unit := do
  let scope : Scope := { program, decl := d }
  match d.shape with
  | .plainClass body =>
    located d.location (checkClass scope body)
    let expected := (body.superclass.map TypeName.spelling).getD "Object"
    body.constructors.forM (checkSuperCall d expected)
  | .interface parents _ => located d.location (parents.forM (checkInterface scope))
  | _ => return

def check (program : Program) (d : Decl) : Except CompileError Unit := do
  located d.location (checkUses program d)
  located d.location (checkBounds { program, decl := d } d.typeParams)
  checkMembers program d
  checkShape program d

def defaultConstructor (d : Decl) : Constructor :=
  { params := [], body := [], modifier := { access := d.modifier.access }, superCall := none,
    line := d.line }

def complete (d : Decl) : Decl :=
  match d.shape with
  | .plainClass body =>
    if body.constructors.isEmpty then
      { d with shape := .plainClass { body with constructors := [defaultConstructor d] } }
    else d
  | _ => d

end Review

def Program.review (program : Program) : Except CompileError Program := do
  List.forM program (Review.check program)
  return List.map Review.complete program

end ClassForge
