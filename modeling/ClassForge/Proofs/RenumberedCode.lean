import ClassForge.Proofs.AlikeSites
import ClassForge.Proofs.DeclarationReading
import ClassForge.Proofs.Faces
import ClassForge.Proofs.StraightCode

set_option autoImplicit false

namespace ClassForge

open Text (SourcePath)

section Declarations

variable (f : Nat → Nat) (d : Decl)

theorem Shape.face_moved (shape : Shape) : (shape.moved f).face = shape.face := by
  cases shape with
  | enumeration values => rfl
  | record components => exact congrArg Shape.record (List.map_map ..)
  | interface parents methods => exact congrArg (Shape.interface parents) (List.map_map ..)
  | plainClass body =>
    simp only [Shape.moved, ClassBody.moved, Shape.face, List.map_map]
    rfl

theorem Decl.sameFace_moved : d.SameFace (d.moved f) := by
  unfold SameFace face moved
  rw [Shape.face_moved]

theorem Decl.fields_moved : (d.moved f).fields = d.fields.map (Field.moved f) := by
  obtain ⟨header, shape⟩ := d
  cases shape <;> rfl

theorem Decl.classBody?_moved : (d.moved f).classBody? = d.classBody?.map (ClassBody.moved f) := by
  obtain ⟨header, shape⟩ := d
  cases shape <;> rfl

theorem Program.find?_moved (program : Program) (qualified : String) :
    (program.moved f).find? qualified = (program.find? qualified).map (Decl.moved f) := by
  unfold find? moved
  rw [List.find?_map]
  rfl

theorem Program.answers_moved (program : Program) : program.Answers (program.moved f) where
  find name := by
    rw [find?_moved]
    cases program.find? name with
    | none => exact .none
    | some d => exact .some (d.sameFace_moved f)
  internal name := by
    have found : (program.moved f).findInternal? name = (program.findInternal? name).map (Decl.moved f) := by
      unfold findInternal? moved
      rw [List.find?_map]
      rfl
    rw [found]
    cases program.findInternal? name with
    | none => exact .none
    | some d => exact .some (d.sameFace_moved f)
  length := List.length_map _
  total weight := by
    have faces (d : Decl) : (d.moved f).face = d.face := d.sameFace_moved f
    unfold moved
    simp only [List.foldr_map, faces]

end Declarations

def Scope.moved (f : Nat → Nat) (scope : Scope) : Scope :=
  { program := scope.program.moved f, decl := scope.decl.moved f, typeParams := scope.typeParams }

namespace Scope

variable (f : Nat → Nat) (scope : Scope)

theorem descriptor_moved (t : TypeName) : (scope.moved f).descriptor t = scope.descriptor t :=
  (scope.program.answers_moved f).descriptor (scope.decl.sameFace_moved f) _ t

theorem internalName_moved (t : TypeName) : (scope.moved f).internalName t = scope.internalName t :=
  (scope.program.answers_moved f).className (scope.decl.sameFace_moved f) _ t

theorem methodDescriptor_moved (params : List Param) (returns : Option TypeName) :
    (scope.moved f).methodDescriptor params returns = scope.methodDescriptor params returns :=
  (scope.program.answers_moved f).methodDescriptor (scope.decl.sameFace_moved f) _ params returns

theorem classSignature_moved (superclass : Option TypeName) (interfaces : List TypeName) :
    (scope.moved f).classSignature superclass interfaces = scope.classSignature superclass interfaces :=
  (scope.program.answers_moved f).classSignature (scope.decl.sameFace_moved f) _ superclass interfaces

theorem methodSignature_moved (typeParams : List TypeParam) (params : List Param) (returns : Option TypeName) :
    (scope.moved f).methodSignature typeParams params returns = scope.methodSignature typeParams params returns :=
  (scope.program.answers_moved f).methodSignature (scope.decl.sameFace_moved f) _ typeParams params returns

theorem fieldSignature_moved (t : TypeName) : (scope.moved f).fieldSignature t = scope.fieldSignature t :=
  (scope.program.answers_moved f).fieldSignature (scope.decl.sameFace_moved f) _ t

end Scope

def Site.moved (f : Nat → Nat) (site : Site) : Site :=
  { site with scope := site.scope.moved f }

def Context.moved (f : Nat → Nat) (ctx : Context) : Context :=
  { toSite := ctx.toSite.moved f, slots := ctx.slots }

section Trees

variable (f : Nat → Nat) (ctx : Context)

theorem Context.alike_moved (names : List String) : ctx.Alike (ctx.moved f) names :=
  Context.alike_of (ctx.program.answers_moved f) (ctx.scope.decl.sameFace_moved f) names

end Trees

section Steps

variable {α β : Type} {f : Nat → Nat} {path : SourcePath}

theorem CompileError.Moved.unlocated (cause : Cause) : CompileError.Moved f path { cause } { cause } :=
  ⟨Cause.Same.refl cause, rfl, by simp⟩

abbrev Lower.Moved (f : Nat → Nat) (path : SourcePath) (x y : Lower α) : Prop :=
  SameSteps (CompileError.Moved f path) x y

abbrev Build.Moved (f : Nat → Nat) (path : SourcePath) (x y : Build α) : Prop :=
  SameSteps (CompileError.Moved f path) x y

theorem Gen.moved_located (step : Gen α) (location : Location) :
    Lower.Moved f location.path (step.located location) (step.located (location.moved f)) := by
  intro w
  unfold Gen.located
  cases step w with
  | ok a later => exact .ok a later
  | error cause later => exact .error (movedAt_at f location).toMoved later

theorem Gen.moved_unlocated (step : Gen α) : Lower.Moved f path step.unlocated step.unlocated := by
  intro w
  unfold Gen.unlocated
  cases step w with
  | ok a later => exact .ok a later
  | error cause later => exact .error (.unlocated cause) later

end Steps

theorem Site.matches_moved (f : Nat → Nat) (site : Site) :
    site.Matches (CompileError.Moved f site.scope.decl.path) f (site.moved f) where
  alike slots := Context.alike_moved f ⟨site, slots⟩
  returns := rfl
  isInitializer := rfl
  errors _ line := (movedAt_at f (site.location line)).toMoved

section Termination

variable (f : Nat → Nat)

theorem Expr.isTrue_bare (tree : Expr) : tree.bare.isTrue = tree.isTrue := by
  fun_induction Expr.isTrue tree with
  | case1 token _ => rfl
  | case2 inner _ ih => exact ih
  | case3 tree literal nested =>
    match tree with
    | .binary .. => rfl
    | .operand (.atom (.literal token) none) grouped => exact (literal token grouped rfl).elim
    | .operand (.atom (.nested inner) none) grouped => exact (nested inner grouped rfl).elim
    | .operand (.atom (.literal _) (some _)) _ => rfl
    | .operand (.atom (.nested _) (some _)) _ => rfl
    | .operand (.atom (.load ..) none) _ => rfl
    | .operand (.atom (.load ..) (some _)) _ => rfl
    | .operand (.cast ..) _ => rfl
    | .operand (.array _) _ => rfl
    | .operand (.create ..) _ => rfl

mutual

theorem Stmt.terminates_moved : (stmt : Stmt) → (stmt.moved f).terminates = stmt.terminates
  | .mk _ action => Action.terminates_moved action
termination_by structural x => x

theorem Action.terminates_moved : (action : Action) → (action.moved f).terminates = action.terminates
  | .ret _ => rfl
  | .raise _ => rfl
  | .eval _ => rfl
  | .declare .. => rfl
  | .assign .. => rfl
  | .cond chain => IfChain.terminates_moved chain
  | .loop condition _ => Expr.isTrue_bare condition
  | .select _ branches none => rfl
  | .select _ branches (some body) => by
    rw [Action.moved, Action.terminates, Action.terminates, Stmt.lastTerminates_moved body,
      Branch.allTerminate_moved branches]
termination_by structural x => x

theorem IfChain.terminates_moved : (chain : IfChain) → (chain.moved f).terminates = chain.terminates
  | .mk _ body otherwise => by
    rw [IfChain.moved, IfChain.terminates, IfChain.terminates, Stmt.lastTerminates_moved body,
      Otherwise.terminates_moved otherwise]
termination_by structural x => x

theorem Otherwise.terminates_moved : (next : Otherwise) → (next.moved f).terminates = next.terminates
  | .skip => rfl
  | .elif chain => IfChain.terminates_moved chain
  | .block body => Stmt.lastTerminates_moved body
termination_by structural x => x

theorem Branch.allTerminate_moved : (branches : List Branch) →
    Branch.allTerminate (Branch.allMoved f branches) = Branch.allTerminate branches
  | [] => rfl
  | .mk _ body :: rest => by
    rw [Branch.allMoved, Branch.moved, Branch.allTerminate, Branch.allTerminate, Stmt.lastTerminates_moved body,
      Branch.allTerminate_moved rest]
termination_by structural x => x

theorem Stmt.lastTerminates_moved : (stmts : List Stmt) →
    Stmt.lastTerminates (Stmt.allMoved f stmts) = Stmt.lastTerminates stmts
  | [] => rfl
  | [stmt] => Stmt.terminates_moved stmt
  | _ :: stmt :: rest => Stmt.lastTerminates_moved (stmt :: rest)
termination_by structural x => x

end

end Termination

section Members

variable {α β γ : Type} {f : Nat → Nat} {path : SourcePath}

theorem Lower.moved_run (slots : Slots) {x y : Lower α} (same : Lower.Moved f path x y) :
    Build.Moved f path (Lower.run slots x) (Lower.run slots y) := by
  intro pool
  unfold Lower.run
  have ends := same { pool, slots }
  generalize x { pool, slots } = r at ends ⊢
  generalize y { pool, slots } = r' at ends ⊢
  cases ends with
  | ok a later => exact .ok a later.pool
  | error moved later => exact .error moved later.pool

theorem Lower.moved_finish {wrap wrap' : Gen CodeAttribute → Lower CodeAttribute}
    (same : ∀ step, Lower.Moved f path (wrap step) (wrap' step)) :
    Lower.Moved f path (Lower.finish wrap) (Lower.finish wrap') :=
  (Gen.moved_unlocated _).bind fun _ => SameSteps.bind (fun w => .ok w w) fun _ => same _

theorem Build.moved_self {step : Build α} (only : FailsOnly (fun e => e.location = none) step) :
    Build.Moved f path step step := by
  intro pool
  cases run : step pool with
  | ok a later => exact .ok a later
  | error error later =>
    obtain ⟨cause, location⟩ := error
    cases only _ _ _ run
    exact .error (.unlocated cause) later

theorem Build.moved_check {R : α → β → Prop} {x : Except CompileError α} {y : Except CompileError β}
    {k : α → Build γ} {k' : β → Build γ} (alike : Alike (CompileError.Moved f path) R x y)
    (next : ∀ a b, R a b → Build.Moved f path (k a) (k' b)) :
    Build.Moved f path (Build.check x >>= k) (Build.check y >>= k') := by
  cases alike with
  | ok same => exact next _ _ same
  | error moved => exact .throw moved

theorem Build.moved_located {x y : Build α} (same : Build.Moved f path x y) (line : Nat) :
    Build.Moved f path (x.located { path, line }) (y.located { path, line := f line }) := by
  intro pool
  unfold Build.located
  have ends := same pool
  generalize x pool = r at ends ⊢
  generalize y pool = r' at ends ⊢
  cases ends with
  | ok a later => exact .ok a later
  | error moved later => exact .error (moved.locate line).toMoved later

theorem alike_located {x y : Except Cause α} (same : y = x) (line : Nat) :
    Alike (CompileError.Moved f path) Eq (located { path, line } x) (located { path, line := f line } y) := by
  subst same
  exact ((Alike.refl Cause.Same.refl).located line).anywhere

end Members

section Code

variable (f : Nat → Nat) (program : Program) (d : Decl)

theorem Program.methodCode_moved (m : Method) :
    Build.Moved f d.path (program.methodCode d m) ((program.moved f).methodCode (d.moved f) (m.moved f)) := by
  obtain ⟨name, returns, params, body, modifier, typeParams, line⟩ := m
  cases body with
  | none => exact .throw (movedAt_error line (Cause.Same.refl _)).toMoved
  | some lines =>
    let scope : Scope := { program, decl := d, typeParams }
    have alike := program.answers_moved f
    have same := d.sameFace_moved f
    refine Build.moved_check (Stmt.parseBody_moved f d.path lines).anywhere ?_
    rintro statements _ rfl
    refine Build.moved_check (alike_located (alike.paramSlots same typeParams _ params) line) ?_
    rintro slots _ rfl
    refine Build.moved_check (alike_located (alike.resultDescriptor same typeParams returns) line) ?_
    rintro returns _ rfl
    refine Lower.moved_run slots ?_
    let site : Site := { scope, isStatic := modifier.has .static, isInitializer := false, returns }
    refine (Stmt.lowerAll_matches (site.matches_moved f) statements).bind fun _ => ?_
    rw [Stmt.lastTerminates_moved]
    by_cases missing : returns ≠ .void ∧ ¬ Stmt.lastTerminates statements = true
    · rw [if_pos missing, if_pos missing]
      exact .throw (movedAt_error line (Cause.Same.refl _)).toMoved
    · rw [if_neg missing, if_neg missing]
      exact Lower.moved_finish fun step => Gen.moved_located step { path := d.path, line }

theorem Program.constructorCode_moved (c : Constructor) (defaultSuperclass : String) :
    Build.Moved f d.path (program.constructorCode d c defaultSuperclass)
      ((program.moved f).constructorCode (d.moved f) (c.moved f) defaultSuperclass) := by
  obtain ⟨header, shape⟩ := d
  obtain ⟨params, lines, modifier, superCall, line⟩ := c
  cases shape with
  | enumeration values | record components | interface parents methods => exact .throw (.unlocated _)
  | plainClass body =>
    let d : Decl := { toHeader := header, shape := .plainClass body }
    let scope := program.scopeOf d
    refine Build.moved_check (alike_located
      ((program.answers_moved f).paramSlots (d.sameFace_moved f) [] _ params) line) ?_
    rintro slots _ rfl
    refine Build.moved_check (Stmt.parseBody_moved f d.path lines).anywhere ?_
    rintro statements _ rfl
    refine Build.moved_check (alike_located ?_ line) ?_
    · obtain ⟨superclass, interfaces, fields, constructors, methods⟩ := body
      cases superclass with
      | none => rfl
      | some t => exact scope.internalName_moved f t
    rintro superclass _ rfl
    refine Lower.moved_run slots ?_
    let site : Site := { scope, isStatic := false, isInitializer := true, returns := .void }
    have arguments : ((superCall.map SuperCall.bare).map (·.arguments)).getD [] =
        Expr.bares ((superCall.map (·.arguments)).getD []) := by
      cases superCall <;> rfl
    have call : Gen.superCall (site.moved f) superclass (((superCall.map SuperCall.bare).map (·.arguments)).getD []) =
        Gen.superCall site superclass ((superCall.map (·.arguments)).getD []) := by
      rw [arguments, Gen.superCall_matches (site.matches_moved f)]
    have inits := Field.lowerInits_matches (site.matches_moved f)
      (body.fields.filter (fun field => ¬ field.modifier.has .static))
    rw [show (body.fields.filter (fun field => ¬ field.modifier.has .static)).map (Field.moved f) =
      (body.fields.map (Field.moved f)).filter (fun field => ¬ field.modifier.has .static) by
        rw [List.filter_map]; rfl] at inits
    have first : Lower.Moved f d.path
        ((Gen.superCall site superclass ((superCall.map (·.arguments)).getD [])).located { path := d.path, line })
        ((Gen.superCall (site.moved f) superclass
          (((superCall.map SuperCall.bare).map (·.arguments)).getD [])).located
            { path := d.path, line := f line }) := by
      rw [call]
      exact Gen.moved_located _ { path := d.path, line }
    exact first.bind fun _ => inits.bind fun _ =>
      (Stmt.lowerAll_matches (site.matches_moved f) statements).bind fun _ =>
      Lower.moved_finish fun step => Gen.moved_located step { path := d.path, line }

theorem Program.staticInitCode_moved :
    Build.Moved f d.path (program.staticInitCode d) ((program.moved f).staticInitCode (d.moved f)) := by
  have statics : ((d.moved f).fields.filter (fun field => field.modifier.has .static && field.init.isSome)) =
      (d.fields.filter (fun field => field.modifier.has .static && field.init.isSome)).map (Field.moved f) := by
    rw [Decl.fields_moved, List.filter_map]
    congr 2
    funext field
    simp [Field.moved]
  unfold staticInitCode
  dsimp only
  rw [statics, Decl.classBody?_moved, Option.isNone_map, List.isEmpty_map]
  split
  · exact .pure none
  · let site : Site := { scope := program.scopeOf d, isStatic := true, isInitializer := true, returns := .void }
    exact (Lower.moved_run {} ((Field.lowerInits_matches (site.matches_moved f) _).bind fun _ =>
      Lower.moved_finish fun step => Gen.moved_unlocated step)).bind fun _ => .pure _

end Code

namespace Assembly

open Build (moved_self failsOnly_method failsOnly_field failsOnly_header failsOnly_signature)

variable (f : Nat → Nat) (t : Target) {α : Type}

def Target.moved : Target :=
  { t with program := t.program.moved f, decl := t.decl.moved f }

namespace Target

theorem moved_checkAt {x y : Except Cause α} (same : y = x) (line : Nat) :
    Build.Moved f t.decl.path (t.checkAt line x) ((t.moved f).checkAt (f line) y) := by
  have alike : Alike (CompileError.Moved f t.decl.path) Eq (located (t.decl.locationAt line) x)
      (located ((t.moved f).decl.locationAt (f line)) y) := alike_located same line
  unfold checkAt
  generalize located (t.decl.locationAt line) x = r at alike ⊢
  generalize located ((t.moved f).decl.locationAt (f line)) y = r' at alike ⊢
  cases alike with
  | ok same =>
    subst same
    exact .pure _
  | error moved => exact .throw moved

theorem moved_check {x y : Except Cause α} (same : y = x) :
    Build.Moved f t.decl.path (t.check x) ((t.moved f).check y) :=
  t.moved_checkAt f same t.decl.line

theorem moved_members {β : Type} (m : α → α) (line : α → Nat) (moves : ∀ a, line (m a) = f (line a))
    {step step' : α → Build β} (each : ∀ a, Build.Moved f t.decl.path (step a) (step' (m a))) (items : List α) :
    Build.Moved f t.decl.path (t.members line step items) ((t.moved f).members line step' (items.map m)) := by
  refine SameSteps.mapM m (fun a => ?_) items
  rw [moves]
  exact Build.moved_located (each a) (line a)

theorem moved_field (field : Field) : Build.Moved f t.decl.path (t.field field) ((t.moved f).field (field.moved f)) :=
  (t.moved_checkAt f (t.scope.descriptor_moved f field.type) field.line).bind fun _ =>
    (t.moved_checkAt f (t.scope.fieldSignature_moved f field.type) field.line).bind fun _ =>
      moved_self (failsOnly_field fun _ => rfl)

theorem moved_constructor (c : Constructor) :
    Build.Moved f t.decl.path (t.constructor c) ((t.moved f).constructor (c.moved f)) :=
  (t.moved_checkAt f (t.scope.methodDescriptor_moved f c.params none) c.line).bind fun _ =>
    (t.moved_checkAt f (t.scope.methodSignature_moved f [] c.params none) c.line).bind fun _ =>
      (Program.constructorCode_moved f t.program t.decl c t.options.superclass).bind fun _ =>
        moved_self (failsOnly_method fun _ => rfl)

theorem moved_method (m : Method) (flags : UInt16) :
    Build.Moved f t.decl.path (t.method m flags) ((t.moved f).method (m.moved f) flags) := by
  let scope : Scope := { t.scope with typeParams := m.typeParams }
  refine (t.moved_checkAt f (scope.methodDescriptor_moved f m.params m.returns) m.line).bind fun _ => ?_
  refine (t.moved_checkAt f (scope.methodSignature_moved f m.typeParams m.params m.returns) m.line).bind fun _ => ?_
  have interface : (t.moved f).decl.isInterface = t.decl.isInterface :=
    (t.decl.sameFace_moved f).eq Decl.isInterface_face
  have modifier : (m.moved f).modifier = m.modifier := rfl
  rw [interface, modifier]
  split
  · exact moved_self (failsOnly_method fun _ => rfl)
  · exact ((Program.methodCode_moved f t.program t.decl m).map some).bind fun _ =>
      moved_self (failsOnly_method fun _ => rfl)

theorem moved_staticInit : Build.Moved f t.decl.path t.staticInit (t.moved f).staticInit := by
  refine (Program.staticInitCode_moved f t.program t.decl).bind fun code => ?_
  cases code with
  | none => exact .pure []
  | some code => exact (moved_self (failsOnly_method fun _ => rfl)).bind fun _ => .pure _

theorem moved_superclass (name? : Option TypeName) :
    (match name? with | some name => (t.moved f).scope.internalName name | none => .ok t.options.superclass) =
      (match name? with | some name => t.scope.internalName name | none => .ok t.options.superclass) := by
  rw [show (t.moved f).scope.internalName = t.scope.internalName from funext (t.scope.internalName_moved f)]

theorem moved_classContents (body : ClassBody) :
    Build.Moved f t.decl.path (t.classContents body) ((t.moved f).classContents (body.moved f)) := by
  have names : (t.moved f).scope.internalName = t.scope.internalName := funext (t.scope.internalName_moved f)
  have interfaces : (body.moved f).interfaces.mapM (t.moved f).scope.internalName =
      body.interfaces.mapM t.scope.internalName := by
    rw [names]
    rfl
  exact (t.moved_check f (t.moved_superclass f body.superclass)).bind fun _ =>
    (t.moved_check f interfaces).bind fun _ =>
    (moved_self (failsOnly_header fun _ => rfl)).bind fun _ =>
    (t.moved_check f (t.scope.classSignature_moved f body.superclass body.interfaces)).bind fun _ =>
    (moved_self (failsOnly_signature fun _ => rfl)).bind fun _ =>
    (t.moved_members f (Field.moved f) _ (fun _ => rfl) (t.moved_field f) body.fields).bind fun _ =>
    (t.moved_members f (Constructor.moved f) _ (fun _ => rfl) (t.moved_constructor f) body.constructors).bind fun _ =>
    (t.moved_members f (Method.moved f) _ (fun _ => rfl) (fun m => t.moved_method f m _) body.methods).bind fun _ =>
    (t.moved_staticInit f).bind fun _ => .pure _

theorem moved_interfaceContents (parents : List TypeName) (methods : List Method) :
    Build.Moved f t.decl.path (t.interfaceContents parents methods)
      ((t.moved f).interfaceContents parents (methods.map (Method.moved f))) := by
  have names : (t.moved f).scope.internalName = t.scope.internalName := funext (t.scope.internalName_moved f)
  have interfaces : parents.mapM (t.moved f).scope.internalName = parents.mapM t.scope.internalName := by rw [names]
  exact (t.moved_check f interfaces).bind fun _ => (moved_self (failsOnly_header fun _ => rfl)).bind fun _ =>
    (t.moved_check f (t.scope.classSignature_moved f none parents)).bind fun _ =>
    (moved_self (failsOnly_signature fun _ => rfl)).bind fun _ =>
    (t.moved_members f (Method.moved f) _ (fun _ => rfl) (fun m => t.moved_method f m _) methods).bind fun _ => .pure _

end Target

theorem Enumeration.moved_contents (values : List String) :
    Build.Moved f t.decl.path (Enumeration.contents t values) (Enumeration.contents (t.moved f) values) :=
  moved_self ((Enumeration.isLimit_contents t values).mono fun _ limit => limit.1)

theorem Record.moved_component (field : Field) :
    Build.Moved f t.decl.path (Record.component t field) (Record.component (t.moved f) (field.moved f)) :=
  (t.moved_checkAt f (t.scope.descriptor_moved f field.type) field.line).bind fun _ =>
    (t.moved_checkAt f (t.scope.fieldSignature_moved f field.type) field.line).bind fun _ =>
      (moved_self (failsOnly_field fun _ => rfl)).bind fun _ => .pure _

theorem Record.store_moved (slot : Nat) (components : List Record.Component) :
    Record.store (t.moved f) slot components = Record.store t slot components := by
  induction components generalizing slot with
  | nil => rfl
  | cons c rest ih =>
    unfold Record.store
    simp only [ih]
    rfl

theorem Record.moved_constructorCode (components : List Record.Component) :
    Build.Moved f t.decl.path (Record.constructorCode t components)
      (Record.constructorCode (t.moved f) components) := by
  have same : Record.constructorCode (t.moved f) components = Record.constructorCode t components := by
    simp only [Record.constructorCode, Record.store_moved]
  rw [same]
  exact moved_self ((Record.isLimit_constructorCode t components).mono fun _ limit => limit.1)

theorem Record.moved_accessors (components : List (Record.Component × FieldInfo)) :
    Build.Moved f t.decl.path (components.mapM fun c => Record.accessor t c.1)
      (components.mapM fun c => Record.accessor (t.moved f) c.1) :=
  moved_self (failsOnly_mapM fun c _ => failsOnly_bind
    ((Record.isLimit_accessorCode t c.1).mono fun _ limit => limit.1)
    fun _ => failsOnly_method fun _ => rfl)

theorem Record.moved_contents (fields : List Field) :
    Build.Moved f t.decl.path (Record.contents t fields)
      (Record.contents (t.moved f) (fields.map (Field.moved f))) := by
  refine (moved_self (failsOnly_header fun _ => rfl)).bind fun _ => ?_
  refine (t.moved_check f (t.scope.classSignature_moved f none [])).bind fun _ => ?_
  refine (moved_self (failsOnly_signature fun _ => rfl)).bind fun _ => ?_
  refine (SameSteps.mapM (Field.moved f) (Record.moved_component f t) fields).bind fun components => ?_
  refine (Record.moved_constructorCode f t _).bind fun _ => ?_
  refine (moved_self (failsOnly_method fun _ => rfl)).bind fun _ => ?_
  exact (Record.moved_accessors f t components).bind fun _ => .pure _

theorem Target.moved_build : Build.Moved f t.decl.path t.build (t.moved f).build := by
  have contents : Build.Moved f t.decl.path t.contents (t.moved f).contents := by
    obtain ⟨program, ⟨header, shape⟩, options⟩ := t
    cases shape with
    | enumeration values => exact Enumeration.moved_contents f _ values
    | record components => exact Record.moved_contents f _ components
    | interface parents methods => exact Target.moved_interfaceContents f _ parents methods
    | plainClass body => exact Target.moved_classContents f _ body
  have sourceFile : Build.Moved f t.decl.path t.sourceFile (t.moved f).sourceFile := by
    change Build.Moved f t.decl.path (ite ..) (ite ..)
    have options : (t.moved f).options = t.options := rfl
    rw [options]
    split
    · exact .pure []
    · exact (moved_self (Build.failsOnly_textAttribute fun _ => rfl)).bind fun _ => .pure _
  exact contents.bind fun _ => sourceFile.bind fun _ => .pure _

end Assembly

end ClassForge
