import ClassForge.Proofs.DeclarationHeads
import ClassForge.Proofs.NamesInSight

set_option autoImplicit false

namespace ClassForge

-- Two ways in which a step can end: with the same result, or with errors that belong together.
inductive SameEnd {ε σ α : Type} (E : ε → ε → Prop) : EStateM.Result ε σ α → EStateM.Result ε σ α → Prop
  | ok (a : α) (s : σ) : SameEnd E (.ok a s) (.ok a s)
  | error {e e' : ε} (same : E e e') (s : σ) : SameEnd E (.error e s) (.error e' s)

def SameSteps {ε σ α : Type} (E : ε → ε → Prop) (x y : EStateM ε σ α) : Prop :=
  ∀ s, SameEnd E (x s) (y s)

namespace SameSteps

variable {ε σ α β : Type} {E : ε → ε → Prop}

theorem pure (a : α) : SameSteps E (Pure.pure a : EStateM ε σ α) (Pure.pure a) :=
  fun s => .ok a s

theorem throw {e e' : ε} (same : E e e') : SameSteps E (MonadExcept.throw e : EStateM ε σ α) (MonadExcept.throw e') :=
  fun s => .error same s

theorem bind {x y : EStateM ε σ α} {f g : α → EStateM ε σ β} (first : SameSteps E x y)
    (second : ∀ a, SameSteps E (f a) (g a)) : SameSteps E (x >>= f) (y >>= g) := by
  intro s
  change SameEnd E (EStateM.bind x f s) (EStateM.bind y g s)
  unfold EStateM.bind
  have ends := first s
  generalize x s = r at ends ⊢
  generalize y s = r' at ends ⊢
  cases ends with
  | ok a later => exact second a later
  | error same later => exact .error same later

theorem map {x y : EStateM ε σ α} (g : α → β) (same : SameSteps E x y) : SameSteps E (g <$> x) (g <$> y) :=
  same.bind fun a => pure (g a)

theorem mapM {γ : Type} (m : γ → γ) {f g : γ → EStateM ε σ α} (each : ∀ c, SameSteps E (f c) (g (m c))) (cs : List γ) :
    SameSteps E (cs.mapM f) ((cs.map m).mapM g) := by
  induction cs with
  | nil => exact pure []
  | cons c cs ih =>
    rw [List.map_cons, List.mapM_cons, List.mapM_cons]
    exact (each c).bind fun a => ih.bind fun as => pure (a :: as)

theorem eq {x y : EStateM ε σ α} (same : SameSteps Eq x y) : x = y := by
  funext s
  have ends := same s
  generalize x s = r at ends ⊢
  generalize y s = r' at ends ⊢
  cases ends with
  | ok a later => rfl
  | error same later => rw [same]

theorem block {E : CompileError → CompileError → Prop} {x y : Lower Unit} (same : SameSteps E x y) :
    SameSteps E (Lower.block x) (Lower.block y) :=
  SameSteps.bind (fun _ => .ok () _) fun _ => same.bind fun _ _ => .ok () _

end SameSteps

-- Names mean the same at two sites, and errors at the line `f` says belong to those at the line itself.
structure Site.Matches (E : CompileError → CompileError → Prop) (f : Nat → Nat) (site site' : Site) : Prop where
  alike : ∀ slots names, Context.Alike ⟨site, slots⟩ ⟨site', slots⟩ names
  returns : site'.returns = site.returns
  isInitializer : site'.isInitializer = site.isInitializer
  errors : ∀ cause line,
    E { cause, location := some (site.location line) } { cause, location := some (site'.location (f line)) }

section Generators

variable {E : CompileError → CompileError → Prop} {f : Nat → Nat} {site site' : Site} (sites : site.Matches E f site')
include sites

theorem Site.Matches.step {α : Type} {step : Gen α} {line : Nat} :
    SameSteps E (step.located (site.location line)) (step.located (site'.location (f line))) := by
  intro w
  unfold Gen.located
  cases step w with
  | ok a later => exact .ok a later
  | error cause later => exact .error (sites.errors cause line) later

theorem Site.Matches.descriptor (t : TypeName) : site'.scope.descriptor t = site.scope.descriptor t :=
  (sites.alike {} []).descriptor t

omit sites in
theorem Site.within_eq {α : Type} {step step' : Context → Gen α}
    (same : ∀ slots, step' ⟨site', slots⟩ = step ⟨site, slots⟩) : site'.within step' = site.within step :=
  funext fun w => congrFun (same w.slots) w

namespace Gen

theorem codeAs_matches (value : Expr) (d : Descriptor) :
    (site'.within fun ctx => value.bare.codeAs ctx d) = site.within fun ctx => value.codeAs ctx d :=
  Site.within_eq fun slots => Expr.codeAs_bare (sites.alike slots _) d

theorem value_matches (value : Expr) :
    (site'.within fun ctx => (value.bare.code ctx).value none) = site.within fun ctx => (value.code ctx).value none :=
  Site.within_eq fun slots => by rw [Expr.code_bare value (sites.alike slots _)]

theorem jumpUnless_matches (condition : Expr) : jumpUnless site' condition.bare = jumpUnless site condition :=
  funext fun _ => Site.within_eq fun slots => by rw [Expr.code_bare condition (sites.alike slots _)]

theorem returnValue_matches (value : Option Expr) :
    returnValue site' (value.map Expr.bare) = returnValue site value := by
  cases value with
  | none => simp only [returnValue, Option.map_none, sites.returns]
  | some value => simp only [returnValue, Option.map_some, sites.returns, codeAs_matches sites]

theorem declare_matches (isFinal : Bool) (type : TypeName) (name : String) (value : Expr) :
    declare site' isFinal type name value.bare = declare site isFinal type name value := by
  simp only [declare, codeAs_matches sites, sites.descriptor]

theorem assign_matches (target : Head) (value : Expr) : assign site' target value.bare = assign site target value := by
  refine Site.within_eq fun slots => ?_
  have self : site'.self = site.self := (sites.alike {} []).self
  have isStatic : site'.isStatic = site.isStatic := (sites.alike {} []).isStatic
  simp only [(sites.alike slots _).resolveHead, Expr.codeAs_bare (sites.alike slots _), assignField, mayAssign,
    sites.isInitializer, self, isStatic]
  rfl

theorem superCall_matches (superclass : String) (arguments : List Expr) :
    superCall site' superclass (Expr.bares arguments) = superCall site superclass arguments := by
  refine congrArg (place .this >>= ·) (funext fun _ => Site.within_eq fun slots => ?_)
  have known := sites.alike slots (Expr.allNames arguments)
  simp only [Expr.typesIn_bares _ known, known.constructor, Expr.argCodes_bares _ known]

end Gen

end Generators

section Statements

variable (f : Nat → Nat)

theorem Branch.cases_allMoved (branches : List Branch) :
    Branch.cases (Branch.allMoved f branches) = Branch.cases branches := by
  unfold Branch.cases
  rw [Branch.allMoved_eq_map, List.zipIdx_map, List.flatMap_map]
  simp only [Prod.map, id, Branch.labels_moved]

theorem Branch.targets_allMoved (branches : List Branch) (labels : List Label) :
    Branch.targets (Branch.allMoved f branches) labels = Branch.targets branches labels := by
  unfold Branch.targets
  rw [Branch.cases_allMoved]

theorem Branch.length_allMoved (branches : List Branch) : (Branch.allMoved f branches).length = branches.length := by
  rw [Branch.allMoved_eq_map, List.length_map]

variable {f} {E : CompileError → CompileError → Prop} {site site' : Site} (sites : site.Matches E f site')
include sites

set_option linter.unusedSectionVars false in
mutual

theorem Stmt.lower_matches : (stmt : Stmt) → SameSteps E (stmt.lower site) ((stmt.moved f).lower site')
  | .mk line action => by
    rw [Stmt.moved, Stmt.lower, Stmt.lower]
    exact sites.step.bind fun _ => Action.lower_matches line action
termination_by structural x => x

theorem Stmt.lowerAll_matches : (stmts : List Stmt) →
    SameSteps E (Stmt.lowerAll site stmts) (Stmt.lowerAll site' (Stmt.allMoved f stmts))
  | [] => by
    rw [Stmt.allMoved, Stmt.lowerAll, Stmt.lowerAll]
    exact .pure ()
  | stmt :: rest => by
    rw [Stmt.allMoved, Stmt.lowerAll, Stmt.lowerAll]
    exact (Stmt.lower_matches stmt).bind fun _ => Stmt.lowerAll_matches rest
termination_by structural x => x

theorem Action.lower_matches (line : Nat) : (action : Action) →
    SameSteps E (action.lower site (site.location line)) ((action.moved f).lower site' (site'.location (f line)))
  | .ret value => by
    rw [Action.moved, Action.lower, Action.lower, Gen.returnValue_matches sites]
    exact sites.step
  | .raise value => by
    rw [Action.moved, Action.lower, Action.lower]
    simp only [Gen.raise, Gen.value_matches sites]
    exact sites.step
  | .eval value => by
    rw [Action.moved, Action.lower, Action.lower]
    simp only [Gen.evaluate, Gen.value_matches sites]
    exact sites.step
  | .declare isFinal type name value => by
    rw [Action.moved, Action.lower, Action.lower, Gen.declare_matches sites]
    exact sites.step
  | .assign target value => by
    rw [Action.moved, Action.lower, Action.lower, Gen.assign_matches sites]
    exact sites.step
  | .cond chain => by
    rw [Action.moved, Action.lower, Action.lower]
    exact sites.step.bind fun done => (IfChain.lower_matches line done chain).bind fun _ => sites.step
  | .loop condition body => by
    rw [Action.moved, Action.lower, Action.lower, Gen.jumpUnless_matches sites]
    exact sites.step.bind fun top => sites.step.bind fun done => sites.step.bind fun _ => sites.step.bind fun _ =>
      (Stmt.lowerAll_matches body).block.bind fun _ => sites.step.bind fun _ => sites.step
  | .select value branches none => by
    rw [Action.moved, Action.lower, Action.lower, Branch.length_allMoved]
    simp only [Gen.scrutinee, Gen.value_matches sites, Branch.targets_allMoved]
    exact sites.step.bind fun _ => sites.step.bind fun done => sites.step.bind fun labels => sites.step.bind fun _ =>
      (Branch.lowerAll_matches line done labels branches).bind fun _ => sites.step
  | .select value branches (some body) => by
    rw [Action.moved, Action.lower, Action.lower, Branch.length_allMoved]
    simp only [Gen.scrutinee, Gen.value_matches sites, Branch.targets_allMoved]
    exact sites.step.bind fun _ => sites.step.bind fun done => sites.step.bind fun labels =>
      sites.step.bind fun otherwise =>
      sites.step.bind fun _ => (Branch.lowerAll_matches line done labels branches).bind fun _ =>
        sites.step.bind fun _ =>
      (Stmt.lowerAll_matches body).block.bind fun _ => sites.step
termination_by structural x => x

theorem IfChain.lower_matches (line : Nat) (done : Label) : (chain : IfChain) →
    SameSteps E (chain.lower site (site.location line) done)
      ((chain.moved f).lower site' (site'.location (f line)) done)
  | .mk condition body next => by
    rw [IfChain.moved, IfChain.lower, IfChain.lower, Gen.jumpUnless_matches sites]
    exact sites.step.bind fun otherwise => sites.step.bind fun _ =>
      (Stmt.lowerAll_matches body).block.bind fun _ => Otherwise.lower_matches line done otherwise next
termination_by structural x => x

theorem Otherwise.lower_matches (line : Nat) (done otherwise : Label) : (next : Otherwise) →
    SameSteps E (next.lower site (site.location line) done otherwise)
      ((next.moved f).lower site' (site'.location (f line)) done otherwise)
  | .skip => by
    rw [Otherwise.moved, Otherwise.lower, Otherwise.lower]
    exact sites.step
  | .elif chain => by
    rw [Otherwise.moved, Otherwise.lower, Otherwise.lower]
    exact sites.step.bind fun _ => sites.step.bind fun _ => IfChain.lower_matches line done chain
  | .block body => by
    rw [Otherwise.moved, Otherwise.lower, Otherwise.lower]
    exact sites.step.bind fun _ => sites.step.bind fun _ => (Stmt.lowerAll_matches body).block
termination_by structural x => x

theorem Branch.lowerAll_matches (line : Nat) (done : Label) : (labels : List Label) → (branches : List Branch) →
    SameSteps E (Branch.lowerAll site (site.location line) done labels branches)
      (Branch.lowerAll site' (site'.location (f line)) done labels (Branch.allMoved f branches))
  | label :: labels, .mk keys body :: rest => by
    rw [Branch.allMoved, Branch.moved, Branch.lowerAll, Branch.lowerAll]
    exact sites.step.bind fun _ => (Stmt.lowerAll_matches body).block.bind fun _ => sites.step.bind fun _ =>
      Branch.lowerAll_matches line done labels rest
  | [], branches => by
    simp only [Branch.lowerAll]
    exact .pure ()
  | label :: labels, [] => by
    simp only [Branch.allMoved, Branch.lowerAll]
    exact .pure ()
termination_by structural _ branches => branches

end

theorem Field.lowerInits_matches (fields : List Field) :
    SameSteps E (Field.lowerInits site fields) (Field.lowerInits site' (fields.map (Field.moved f))) := by
  have each (field : Field) : lowerInits.lowerInit site' (field.moved f) = lowerInits.lowerInit site field := by
    have self : site'.self = site.self := (sites.alike {} []).self
    obtain ⟨name, type, modifier, line, init⟩ := field
    cases init with
    | none => rfl
    | some value =>
      simp only [lowerInits.lowerInit, Field.moved, Option.map_some, sites.descriptor, self, Gen.codeAs_matches sites]
      rfl
  induction fields with
  | nil => exact .pure ()
  | cons field rest ih =>
    rw [List.map_cons, Field.lowerInits, Field.lowerInits, each]
    exact sites.step.bind fun _ => ih

end Statements

end ClassForge
