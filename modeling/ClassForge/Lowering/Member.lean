import ClassForge.ClassFile.Build
import ClassForge.Lowering.Stmt
import ClassForge.Stmt.Parse

set_option autoImplicit false

namespace ClassForge

def Gen.finish (maxLocals : Nat) : Gen CodeAttribute := do
  let buffer := (← get).code
  match buffer.finish with
  | .error error => throw (.code error)
  | .ok code =>
    let name ← pooled (.utf8 "Code")
    return {
      name, code
      maxStack := UInt16.ofNat buffer.maxDepth
      maxLocals := UInt16.ofNat maxLocals }

namespace Lower

def finish (wrap : Gen CodeAttribute → Lower CodeAttribute) : Lower CodeAttribute := do
  (Gen.emit (.ret .void)).unlocated
  let maxLocals := (← get).slots.maxSize
  wrap (Gen.finish maxLocals)

def run {α : Type} (slots : Slots) (step : Lower α) : Build α := fun pool =>
  match step { pool, slots } with
  | .ok a w => .ok a w.pool
  | .error error w => .error error w.pool

end Lower

namespace Gen

def run {α : Type} (step : Gen α) : Build α :=
  Lower.run {} step.unlocated

def method (maxLocals : Nat) (step : Gen Unit) : Build CodeAttribute :=
  run do
    step
    finish maxLocals

end Gen

def Scope.paramSlots (scope : Scope) (isStatic : Bool) (params : List Param) : Except Cause Slots := do
  match Slots.ofMethod isStatic (params.map (fun p => (p.name, p.type.slotWidth))) with
  | .error error => throw (.code error)
  | .ok slots =>
    params.foldlM (fun slots p => do return slots.setDescriptor p.name (← scope.descriptor p.type)) slots

def Field.lowerInits (site : Site) : List Field → Lower Unit
  | [] => return
  | field :: rest => do
    (lowerInit field).located (site.location field.line)
    Field.lowerInits site rest
where
  lowerInit (field : Field) : Gen Unit :=
    match field.init with
    | none => return
    | some value => do
      let d ← Gen.check (site.scope.descriptor field.type)
      let isStatic := field.modifier.has .static
      if ¬ isStatic then Gen.place .this
      site.within fun ctx => value.codeAs ctx d
      let index ← Gen.pooled (.fieldRef site.self field.name d.text)
      Gen.emit (.field (if isStatic then .putstatic else .putfield) index d.width)

def Gen.superCall (site : Site) (superclass : String) (arguments : List Expr) : Gen Unit := do
  Gen.place .this
  site.within fun ctx => do
    let types ← check (Expr.typesIn ctx arguments)
    let params ← check (ctx.program.constructorFor superclass types false)
    ArgCode.all (Expr.argCodes ctx arguments) params
    invokeMethod .invokespecial superclass constructorName params .void

namespace Program

def methodCode (program : Program) (d : Decl) (m : Method) : Build CodeAttribute := do
  let here := d.locationAt m.line
  match m.body with
  | none => throw { cause := .lowering (.noBody m.name), location := some here }
  | some lines =>
    let statements ← Build.check (Stmt.parseBody d.path lines)
    let scope : Scope := { program, decl := d, typeParams := m.typeParams }
    let isStatic := m.modifier.has .static
    let slots ← Build.check (located here (scope.paramSlots isStatic m.params))
    let returns ← Build.check (located here (scope.resultDescriptor m.returns))
    let site : Site := { scope, isStatic, isInitializer := false, returns }
    Lower.run slots do
      Stmt.lowerAll site statements
      if returns ≠ .void ∧ ¬ Stmt.lastTerminates statements then
        throw { cause := .lowering .missingReturn, location := some here }
      Lower.finish (Gen.located here)

def constructorCode (program : Program) (d : Decl) (c : Constructor) (defaultSuperclass : String) :
    Build CodeAttribute := do
  match d.shape with
  | .plainClass body =>
    let here := d.locationAt c.line
    let scope := program.scopeOf d
    let slots ← Build.check (located here (scope.paramSlots false c.params))
    let statements ← Build.check (Stmt.parseBody d.path c.body)
    let superclass ← Build.check (located here (
      match body.superclass with
      | some t => scope.internalName t
      | none => .ok defaultSuperclass))
    let site : Site := { scope, isStatic := false, isInitializer := true, returns := .void }
    Lower.run slots do
      let arguments := (c.superCall.map (·.arguments)).getD []
      (Gen.superCall site superclass arguments).located here
      Field.lowerInits site (body.fields.filter (fun f => ¬ f.modifier.has .static))
      Stmt.lowerAll site statements
      Lower.finish (Gen.located here)
  | _ => throw { cause := .lowering (.noConstructors d.name) }

def staticInitCode (program : Program) (d : Decl) : Build (Option CodeAttribute) := do
  let statics := d.fields.filter (fun f => f.modifier.has .static && f.init.isSome)
  if d.classBody?.isNone || statics.isEmpty then return none
  let site : Site :=
    { scope := program.scopeOf d, isStatic := true, isInitializer := true, returns := .void }
  let code ← Lower.run {} do
    Field.lowerInits site statics
    Lower.finish Gen.unlocated
  return some code

end Program

end ClassForge
