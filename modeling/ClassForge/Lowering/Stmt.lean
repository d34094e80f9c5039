import ClassForge.Lowering.Expr
import ClassForge.Stmt.Basic

set_option autoImplicit false

namespace ClassForge

namespace Site

def context (site : Site) : Gen Context := do
  return { toSite := site, slots := (← get).slots }

def within {α : Type} (site : Site) (step : Context → Gen α) : Gen α := do
  step (← site.context)

end Site

namespace Gen

def returnValue (site : Site) : Option Expr → Gen Unit
  | none => do
    if site.returns ≠ .void then throw (.lowering .missingReturnValue)
    emit (.ret .void)
  | some value => do
    if site.returns = .void then throw (.lowering .voidReturnsValue)
    site.within fun ctx => value.codeAs ctx site.returns
    emit (.ret site.returns.kind)

def raise (site : Site) (value : Expr) : Gen Unit := do
  let d ← site.within fun ctx => (value.code ctx).value none
  if ¬ d.isReferenceOrNull then throw (.typeMismatch "Throwable" d.display)
  op .athrow

def evaluate (site : Site) (value : Expr) : Gen Unit := do
  let d ← site.within fun ctx => (value.code ctx).value none
  popValue d

def jumpUnless (site : Site) (condition : Expr) (target : Label) : Gen Unit :=
  site.within fun ctx => (condition.code ctx).jump false target

def bind (name : String) (d : Descriptor) (isFinal : Bool) : Gen Nat := fun w =>
  match w.slots.bind name d with
  | .ok (slot, slots) => .ok slot { w with slots := if isFinal then slots.setFinal name else slots }
  | .error error => .error (.code error) w

def declare (site : Site) (isFinal : Bool) (type : TypeName) (name : String) (value : Expr) :
    Gen Unit := do
  if ((← get).slots.lookup? name).isSome then throw (.redefinition .variable name)
  let d ← check (site.scope.descriptor type)
  if d = .void then throw (.lowering (.voidVariable name))
  site.within fun ctx => value.codeAs ctx d
  let slot ← bind name d isFinal
  emit (.store d.kind slot)

-- Final fields of the class may be assigned while it or its instance is set up, without a detour over another
-- object.
def mayAssign (site : Site) (field : FieldTarget) (isDirect : Bool) : Bool :=
  !field.isFinal ||
    (site.isInitializer && field.owner = site.self && isDirect && field.isStatic = site.isStatic)

def assignField (site : Site) (ctx : Context) (field : FieldTarget) (isDirect : Bool)
    (receiver : Gen Unit) (value : Expr) : Gen Unit := do
  if ¬ mayAssign site field isDirect then throw (.lowering (.finalAssigned field.name))
  receiver
  value.codeAs ctx field.descriptor
  place.access (if field.isStatic then .putstatic else .putfield) field

def assign (site : Site) (target : Head) (value : Expr) : Gen Unit :=
  site.within fun ctx => do
    match ← check (ctx.resolveHead target) with
    | some (.value (.variable name slot d isFinal)) =>
      if isFinal then throw (.lowering (.finalAssigned name))
      value.codeAs ctx d
      emit (.store d.kind slot)
    | some (.value (.staticField field)) => assignField site ctx field true (pure ()) value
    | some (.value (.field receiver field)) =>
      assignField site ctx field (receiver = .this) (place receiver) value
    | _ => throw (.lowering (.notAssignable target.text))

def scrutinee (site : Site) (value : Expr) : Gen Unit := do
  let d ← site.within fun ctx => (value.code ctx).value none
  if ¬ d.isIntFamily then throw (.typeMismatch Primitive.int.keyword d.display)

def newLabels : Nat → Gen (List Label)
  | 0 => return []
  | n + 1 => do
    let label ← emit .newLabel
    let labels ← newLabels n
    return label :: labels

def checkReachable : Gen Unit := do
  if ¬ (← get).code.alive then throw (.lowering .unreachable)

end Gen

def Lower.block (body : Lower Unit) : Lower Unit := do
  modify (fun w => { w with slots := w.slots.openScope })
  body
  modify (fun w => { w with slots := w.slots.closeScope })

def Branch.targets (branches : List Branch) (labels : List Label) : List (Int × Label) :=
  (Branch.cases branches).filterMap (fun (key, index) => (labels[index]?).map (key, ·))

mutual

def Stmt.lower (site : Site) : Stmt → Lower Unit
  | .mk line action => do
    let here := site.location line
    Gen.checkReachable.located here
    action.lower site here

def Stmt.lowerAll (site : Site) : List Stmt → Lower Unit
  | [] => return
  | stmt :: rest => do
    stmt.lower site
    Stmt.lowerAll site rest

def Action.lower (site : Site) (here : Location) : Action → Lower Unit
  | .ret value => (Gen.returnValue site value).located here
  | .raise value => (Gen.raise site value).located here
  | .eval value => (Gen.evaluate site value).located here
  | .declare isFinal type name value => (Gen.declare site isFinal type name value).located here
  | .assign target value => (Gen.assign site target value).located here
  | .cond chain => do
    let done ← (Gen.emit .newLabel).located here
    chain.lower site here done
    (Gen.emit (.place done)).located here
  | .loop condition body => do
    let top ← (Gen.emit .newLabel).located here
    let done ← (Gen.emit .newLabel).located here
    (Gen.emit (.place top)).located here
    (Gen.jumpUnless site condition done).located here
    Lower.block (Stmt.lowerAll site body)
    (Gen.emit (.jump .goto top)).located here
    (Gen.emit (.place done)).located here
  | .select value branches none => do
    (Gen.scrutinee site value).located here
    let done ← (Gen.emit .newLabel).located here
    let labels ← (Gen.newLabels branches.length).located here
    (Gen.emit (.lookupSwitch done (Branch.targets branches labels))).located here
    Branch.lowerAll site here done labels branches
    (Gen.emit (.place done)).located here
  | .select value branches (some body) => do
    (Gen.scrutinee site value).located here
    let done ← (Gen.emit .newLabel).located here
    let labels ← (Gen.newLabels branches.length).located here
    let otherwise ← (Gen.emit .newLabel).located here
    (Gen.emit (.lookupSwitch otherwise (Branch.targets branches labels))).located here
    Branch.lowerAll site here done labels branches
    (Gen.emit (.place otherwise)).located here
    Lower.block (Stmt.lowerAll site body)
    (Gen.emit (.place done)).located here

def IfChain.lower (site : Site) (here : Location) (done : Label) : IfChain → Lower Unit
  | .mk condition body next => do
    let otherwise ← (Gen.emit .newLabel).located here
    (Gen.jumpUnless site condition otherwise).located here
    Lower.block (Stmt.lowerAll site body)
    next.lower site here done otherwise

-- What is done when a condition fails; the block before it has just ended.
def Otherwise.lower (site : Site) (here : Location) (done otherwise : Label) : Otherwise → Lower Unit
  | .skip => (Gen.emit (.place otherwise)).located here
  | .elif chain => do
    (Gen.emit (.jump .goto done)).located here
    (Gen.emit (.place otherwise)).located here
    chain.lower site here done
  | .block body => do
    (Gen.emit (.jump .goto done)).located here
    (Gen.emit (.place otherwise)).located here
    Lower.block (Stmt.lowerAll site body)

-- The branches of a switch, each at its label; none runs on into the next.
def Branch.lowerAll (site : Site) (here : Location) (done : Label) :
    List Label → List Branch → Lower Unit
  | label :: labels, .mk _ body :: rest => do
    (Gen.emit (.place label)).located here
    Lower.block (Stmt.lowerAll site body)
    (Gen.emit (.jump .goto done)).located here
    Branch.lowerAll site here done labels rest
  | _, _ => return

end

end ClassForge
