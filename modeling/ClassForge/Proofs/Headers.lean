import ClassForge.Proofs.Erasure
import ClassForge.Proofs.MemberGrowth
import ClassForge.Proofs.StraightCode

set_option autoImplicit false

namespace ClassForge

variable {location : Location} {e : CompileError} {β : Type} {params : List Param}

section Locations

variable {α : Type} {P : Cause → Prop} {step : Gen α} {result : Except Cause α} {next : α → Build β}

theorem Gen.located_fails {w later : Workspace} :
    step.located location w = .error e later ↔
      ∃ cause, step w = .error cause later ∧ { cause, location := some location } = e := by
  unfold Gen.located
  cases step w <;> simp [and_comm]

theorem failsOnly_located (only : FailsOnly P step) (location : Location) :
    FailsOnly (P ·.cause) (step.located location) := by
  intro s e t h
  obtain ⟨cause, run, rfl⟩ := Gen.located_fails.1 h
  exact only s cause t run

theorem failsOnly_unlocated (only : FailsOnly P step) : FailsOnly (P ·.cause) step.unlocated := by
  intro s e t h
  unfold Gen.unlocated at h
  cases run : step s with
  | ok a u =>
    rw [run] at h
    cases h
  | error cause u =>
    rw [run] at h
    cases h
    exact only s cause t run

theorem failsOnly_check (only : ∀ cause, result = .error cause → P cause) : FailsOnly P (Gen.check result) := by
  cases result with
  | ok a => exact failsOnly_pure a
  | error cause => exact failsOnly_throw (only cause rfl)

theorem Build.failsOnly_check {result : Except CompileError α}
    (only : ∀ e, result = .error e → P e.cause) (rest : ∀ a, result = .ok a → FailsOnly (P ·.cause) (next a)) :
    FailsOnly (P ·.cause) (Build.check result >>= next) := by
  cases result with
  | ok a => exact rest a rfl
  | error e => exact failsOnly_throw (only e rfl)

theorem Build.failsOnly_checkAt
    (only : ∀ cause, result = .error cause → P cause) (rest : ∀ a, result = .ok a → FailsOnly (P ·.cause) (next a)) :
    FailsOnly (P ·.cause) (Build.check (ClassForge.located location result) >>= next) := by
  cases result with
  | ok a => exact rest a rfl
  | error cause => exact failsOnly_throw (only cause rfl)

theorem Build.failsOnly_passes (passes : ∃ a, result = .ok a) (rest : ∀ a, FailsOnly (P ·.cause) (next a)) :
    FailsOnly (P ·.cause) (Build.check (ClassForge.located location result) >>= next) := by
  obtain ⟨a, rfl⟩ := passes
  exact rest a

theorem Build.failsOnly_located {step : Build α} (only : FailsOnly (P ·.cause) step) (location : Location) :
    FailsOnly (P ·.cause) (step.located location) := by
  intro s e t h
  unfold Build.located at h
  cases run : step s with
  | ok a u =>
    rw [run] at h
    cases h
  | error e' u =>
    rw [run] at h
    cases h
    have := only s e' t run
    unfold CompileError.locate
    cases e'.location <;> exact this

theorem Lower.failsOnly_run {step : Lower α} {slots : Slots}
    (only : ∀ pool e w, step { pool, slots } = .error e w → P e.cause) :
    FailsOnly (P ·.cause) (Lower.run slots step) := by
  intro pool e t h
  unfold Lower.run at h
  cases run : step { pool, slots } with
  | ok a w =>
    rw [run] at h
    cases h
  | error e' w =>
    rw [run] at h
    cases h
    exact only pool e w run

end Locations

namespace Scope

variable {scope : Scope} {t : TypeName}

theorem IsClass.resolves (isClass : scope.IsClass t) : scope.Resolves t := by
  obtain ⟨_, named⟩ := isClass
  exact ⟨_, named⟩

-- The type has every form that a class file asks for. Its erasure needs no limit.
structure Describes (scope : Scope) (t : TypeName) : Prop where
  resolves : scope.Resolves t
  descriptor : ∃ d, scope.descriptor t = .ok d ∧ scope.Erases t d
  internalName : ∃ name, scope.internalName t = .ok name
  fieldSignature : ∃ text, scope.fieldSignature t = .ok text

theorem Grounded.describes (grounded : scope.Grounded) (known : scope.Resolves t) : scope.Describes t := by
  obtain ⟨ref, resolved⟩ := known
  obtain ⟨d, found, erases⟩ := grounded.exists_descriptor ⟨ref, resolved⟩
  refine ⟨⟨ref, resolved⟩, ⟨d, found, erases⟩, ?_, ?_⟩
  · rw [internalName, found]
    exact ⟨_, rfl⟩
  · rw [fieldSignature, resolved]
    exact ⟨_, rfl⟩

theorem exists_mapM {α : Type} {f : α → Except Cause β} {xs : List α} (each : ∀ x ∈ xs, ∃ y, f x = .ok y) :
    ∃ ys, xs.mapM f = .ok ys := by
  induction xs with
  | nil => exact ⟨[], rfl⟩
  | cons x xs ih =>
    obtain ⟨⟨y, first⟩, others⟩ := List.forall_mem_cons.1 each
    obtain ⟨ys, rest⟩ := ih others
    exact ⟨y :: ys, by simp [first, rest]⟩

theorem exists_typeParamsSignature {params : List TypeParam}
    (known : ∀ p ∈ params, ∀ b ∈ p.bounds, scope.Resolves b) : ∃ text, scope.typeParamsSignature params = .ok text := by
  have bound (isFirst : Bool) {b : TypeName} (resolves : scope.Resolves b) :
      ∃ text, scope.boundSignature isFirst b = .ok text := by
    obtain ⟨ref, resolved⟩ := resolves
    rw [boundSignature, resolved]
    exact ⟨_, rfl⟩
  have each : ∀ p ∈ params, ∃ text, scope.typeParamSignature p = .ok text := by
    intro p member
    obtain ⟨name, bounds⟩ := p
    have bounded := known _ member
    unfold typeParamSignature
    cases bounds with
    | nil => exact ⟨_, rfl⟩
    | cons first others =>
      obtain ⟨text, found⟩ := bound true (bounded first List.mem_cons_self)
      obtain ⟨texts, rest⟩ := exists_mapM fun b later => bound false (bounded b (List.mem_cons_of_mem first later))
      simp only [found, rest]
      exact ⟨_, rfl⟩
  obtain ⟨texts, found⟩ := exists_mapM each
  rw [typeParamsSignature, found]
  exact ⟨_, rfl⟩

theorem exists_classSignature {superclass : Option TypeName} {interfaces : List TypeName}
    (bounds : ∀ p ∈ scope.decl.typeParams, ∀ b ∈ p.bounds, scope.Resolves b)
    (parents : ∀ t ∈ superclass.toList ++ interfaces, scope.Resolves t) :
    ∃ text, scope.classSignature superclass interfaces = .ok text := by
  obtain ⟨formals, written⟩ := exists_typeParamsSignature bounds
  obtain ⟨refs, resolved⟩ := exists_mapM (f := scope.resolve) fun t member => parents t (List.mem_append_right _ member)
  unfold classSignature
  cases params : scope.decl.typeParams with
  | nil => exact ⟨none, rfl⟩
  | cons p others =>
    rw [params] at written
    cases superclass with
    | none =>
      simp only [written, resolved]
      exact ⟨_, rfl⟩
    | some t =>
      obtain ⟨ref, found⟩ := parents t (List.mem_append_left _ (by simp))
      simp only [written, found, resolved]
      exact ⟨_, rfl⟩

structure DescribesHead (scope : Scope) (typeParams : List TypeParam) (params : List Param)
    (returns : Option TypeName) : Prop where
  boundTypes : ∀ p ∈ typeParams, ∀ b ∈ p.bounds, scope.Describes b
  paramTypes : ∀ p ∈ params, scope.Describes p.type
  resultType : ∀ t ∈ returns, scope.Describes t
  formals : ∃ text, scope.typeParamsSignature typeParams = .ok text
  result : ∃ d, scope.resultDescriptor returns = .ok d
  descriptor : ∃ d, scope.methodDescriptor params returns = .ok d
  signature : ∃ text, scope.methodSignature typeParams params returns = .ok text

theorem Grounded.describesHead (grounded : scope.Grounded) {typeParams : List TypeParam}
    {returns : Option TypeName} (bounds : ∀ p ∈ typeParams, ∀ b ∈ p.bounds, scope.Resolves b)
    (known : ∀ p ∈ params, scope.Resolves p.type) (knownResult : ∀ t ∈ returns, scope.Resolves t) :
    scope.DescribesHead typeParams params returns := by
  have described {t : TypeName} (resolves : scope.Resolves t) := grounded.describes resolves
  obtain ⟨formals, written⟩ := exists_typeParamsSignature bounds
  obtain ⟨result, found⟩ : ∃ d, scope.resultDescriptor returns = .ok d := by
    cases returns with
    | none => exact ⟨.void, rfl⟩
    | some t => exact (described (knownResult t rfl)).descriptor.imp fun _ => And.left
  obtain ⟨types, taken⟩ : ∃ ds, params.mapM (fun p => scope.descriptor p.type) = .ok ds :=
    exists_mapM fun p member => (described (known p member)).descriptor.imp fun _ => And.left
  obtain ⟨refs, resolved⟩ : ∃ refs, params.mapM (fun p => scope.resolve p.type) = .ok refs :=
    exists_mapM fun p member => known p member
  obtain ⟨ref, resultRef⟩ : ∃ ref, returns.mapM scope.resolve = .ok ref := by
    cases returns with
    | none => exact ⟨none, rfl⟩
    | some t =>
      obtain ⟨ref, resolved⟩ := knownResult t rfl
      exact ⟨some ref, by simp [Option.mapM, resolved]⟩
  refine ⟨fun p own b bound => described (bounds p own b bound), fun p own => described (known p own),
    fun t own => described (knownResult t own), ⟨formals, written⟩, ⟨result, found⟩, ?_, ?_⟩
  · rw [methodDescriptor, taken]
    simp only [found]
    exact ⟨_, rfl⟩
  · rw [methodSignature, resolved]
    simp only [resultRef, written, bind, Except.bind]
    split_ifs <;> exact ⟨_, rfl⟩

end Scope

namespace Review

structure Described (program : Program) (d : Decl) : Prop where
  bounds : ∀ p ∈ d.typeParams, ∀ b ∈ p.bounds, (program.scopeOf d).Describes b
  fields : ∀ f ∈ d.fields, (program.scopeOf d).Describes f.type
  parents : ∀ t ∈ d.parents, (program.scopeOf d).Describes t
  formals : ∃ text, (program.scopeOf d).typeParamsSignature d.typeParams = .ok text
  signature : ∀ superclass interfaces, (∀ t ∈ superclass.toList ++ interfaces, t ∈ d.parents) →
    ∃ text, (program.scopeOf d).classSignature superclass interfaces = .ok text
  constructors : ∀ body, d.shape = .plainClass body →
    ∀ c ∈ body.constructors, (program.scopeOf d).DescribesHead [] c.params none
  methods : ∀ m ∈ d.methods, (program.scopeIn d m).DescribesHead m.typeParams m.params m.returns

theorem Known.described {program : Program} {d : Decl} (known : Known program d) : Described program d := by
  have bounds : ∀ p ∈ d.typeParams, ∀ b ∈ p.bounds, (program.scopeOf d).Resolves b :=
    fun p own b bound => (known.bounds p own b bound).resolves
  constructor
  case bounds => exact fun p own b bound => known.grounded.describes (bounds p own b bound)
  case fields => exact fun f own => known.grounded.describes (known.fields f own)
  case parents => exact fun t own => known.grounded.describes (known.parents t own)
  case formals => exact Scope.exists_typeParamsSignature bounds
  case signature =>
    intro superclass interfaces among
    exact Scope.exists_classSignature bounds fun t member => known.parents t (among t member)
  case constructors =>
    intro body shape c own
    exact known.grounded.describesHead (by simp) (known.constructors body shape c own) (by simp)
  case methods =>
    intro m own
    obtain ⟨bounds, returns, params⟩ := known.methods m own
    exact (known.grounded_in own).describesHead (fun p own b bound => (bounds p own b bound).resolves) params returns

end Review

def Site.lowerBody (site : Site) (lines : List TokenLine) : Lower Unit := fun w =>
  match Stmt.parseBody site.scope.decl.path lines with
  | .ok statements => Stmt.lowerAll site statements w
  | .error e => .error e w

-- An error comes from code that is written in the declaration: the body of a method or constructor, the initial
-- value of a field, or an argument for the constructor of the superclass.
inductive Decl.Raises (program : Program) (d : Decl) : Cause → Prop
  | method {m : Method} {lines : List TokenLine} {returns : Descriptor} {w later : Workspace} {e : CompileError}
      (own : m ∈ d.methods) (body : m.body = some lines)
      (result : (program.scopeIn d m).resultDescriptor m.returns = .ok returns)
      (fails : (program.methodSite d m returns).lowerBody lines w = .error e later) : Raises program d e.cause
  | constructor {body : ClassBody} {c : Constructor} {w later : Workspace} {e : CompileError}
      (shape : d.shape = .plainClass body) (own : c ∈ body.constructors)
      (fails : (program.constructorSite d).lowerBody c.body w = .error e later) : Raises program d e.cause
  | initial {site : Site} {field : Field} {value : Expr} {type : Descriptor} {w later : Workspace} {cause : Cause}
      (isSite : site = program.constructorSite d ∨ site = program.staticInitSite d) (own : field ∈ d.fields)
      (init : field.init = some value) (typed : (program.scopeOf d).descriptor field.type = .ok type)
      (fails : value.codeAs { toSite := site, slots := w.slots } type w = .error cause later) : Raises program d cause
  | argument {body : ClassBody} {c : Constructor} {call : SuperCall} {value : Expr} {slots : Slots} {cause : Cause}
      (shape : d.shape = .plainClass body) (own : c ∈ body.constructors) (calls : c.superCall = some call)
      (among : value ∈ call.arguments) (taken : (program.scopeOf d).paramSlots false c.params = .ok slots)
      (fails : value.typeIn { toSite := program.constructorSite d, slots } none = .error cause ∨ ∃ type w later,
        value.codeAs { toSite := program.constructorSite d, slots } type w = .error cause later) :
      Raises program d cause

def Decl.Accounts (program : Program) (d : Decl) (cause : Cause) : Prop :=
  ∀ name, cause = .unknownType name → d.Raises program cause

variable {cause : Cause} {site : Site}

section Generation

variable {program : Program} {d : Decl} {α : Type}

theorem accounts_code (error : CodeError) : d.Accounts program (.code error) := by
  intro name h
  cases h

theorem accounts_pool (error : PoolError) : d.Accounts program (.pool error) := by
  intro name h
  cases h

theorem accounts_lowering (error : LoweringError) : d.Accounts program (.lowering error) := by
  intro name h
  cases h

theorem accounts_of_raises (raises : d.Raises program cause) : d.Accounts program cause :=
  fun _ _ => raises

theorem accounts_emit (step : Emit α) : FailsOnly (d.Accounts program) (Gen.emit step) := by
  rintro ⟨pool, code, slots⟩ e t h
  unfold Gen.emit at h
  cases run : step code with
  | ok a code =>
    simp [run] at h
  | error error code =>
    simp only [run] at h
    cases h
    exact accounts_code error

theorem accounts_pooled (step : Pooled α) : FailsOnly (d.Accounts program) (Gen.pooled step) := by
  rintro ⟨pool, code, slots⟩ e t h
  unfold Gen.pooled at h
  cases run : step pool with
  | ok a pool =>
    simp [run] at h
  | error error pool =>
    simp only [run] at h
    cases h
    exact accounts_pool error

theorem accounts_finish (maxLocals : Nat) : FailsOnly (d.Accounts program) (Gen.finish maxLocals) := by
  intro w e t h
  unfold Gen.finish at h
  rcases bind_fails.1 h with early | ⟨w', w'', run, late⟩
  · cases early
  · cases done : w'.code.finish with
    | error error =>
      simp only [done] at late
      cases late
      exact accounts_code error
    | ok code =>
      simp only [done] at late
      rcases bind_fails.1 late with full | ⟨_, _, -, last⟩
      · exact accounts_pooled _ _ _ _ full
      · cases last

theorem accounts_within {step : Context → Gen α}
    (each : ∀ w e t, step { toSite := site, slots := w.slots } w = .error e t → d.Accounts program e) :
    FailsOnly (d.Accounts program) (site.within step) := by
  intro w e t h
  exact each w e t h

theorem Lower.accounts_finish {wrap : Gen CodeAttribute → Lower CodeAttribute}
    (wraps : ∀ {step : Gen CodeAttribute}, FailsOnly (d.Accounts program) step →
      FailsOnly (fun e => d.Accounts program e.cause) (wrap step)) :
    FailsOnly (fun e => d.Accounts program e.cause) (Lower.finish wrap) := by
  refine failsOnly_bind (failsOnly_unlocated (accounts_emit _)) fun _ => failsOnly_bind ?_ fun w => ?_
  · intro w e t h
    cases h
  · exact wraps (ClassForge.accounts_finish _)

theorem accounts_of_isLimit (limit : e.IsLimit) : d.Accounts program e.cause := by
  intro name unknown
  have limit := limit.2
  rw [unknown] at limit
  exact limit.elim

end Generation

theorem Scope.paramSlots_eq_error {scope : Scope} {isStatic : Bool}
    (known : ∀ p ∈ params, scope.Describes p.type) (h : scope.paramSlots isStatic params = .error cause) :
    ∃ error, cause = .code error := by
  have typed (slots : Slots) : ∃ slots', params.foldlM
      (fun slots p => do return slots.setDescriptor p.name (← scope.descriptor p.type)) slots = Except.ok slots' := by
    clear h
    induction params generalizing slots with
    | nil => exact ⟨slots, rfl⟩
    | cons p rest ih =>
      obtain ⟨⟨d, found, -⟩, others⟩ := (List.forall_mem_cons.1 known).imp_left Describes.descriptor
      rw [List.foldlM_cons, found]
      exact ih others _
  unfold paramSlots at h
  split at h
  next error _ =>
    cases h
    exact ⟨error, rfl⟩
  next slots _ =>
    obtain ⟨slots', returned⟩ := typed slots
    rw [returned] at h
    cases h

variable {ctx : Context} {arguments : List Expr} {superclass : String} {body : ClassBody}

theorem Expr.typesIn_eq_error
    (h : Expr.typesIn ctx arguments = .error cause) : ∃ value ∈ arguments, value.typeIn ctx none = .error cause := by
  induction arguments with
  | nil => cases h
  | cons value rest ih =>
    rw [typesIn] at h
    cases first : value.typeIn ctx none with
    | error other =>
      rw [first] at h
      cases h
      exact ⟨value, List.mem_cons_self, first⟩
    | ok type =>
      cases others : typesIn ctx rest with
      | error other =>
        rw [first, others] at h
        cases h
        obtain ⟨later, member, fails⟩ := ih others
        exact ⟨later, List.mem_cons_of_mem value member, fails⟩
      | ok types =>
        rw [first, others] at h
        cases h

theorem Expr.exists_of_mem_argCodes {code : ArgCode}
    (member : code ∈ Expr.argCodes ctx arguments) : ∃ value ∈ arguments, code = value.codeAs ctx := by
  induction arguments with
  | nil => cases member
  | cons value rest ih =>
    rcases List.mem_cons.1 member with rfl | later
    · exact ⟨value, List.mem_cons_self, rfl⟩
    · obtain ⟨other, among, same⟩ := ih later
      exact ⟨other, List.mem_cons_of_mem value among, same⟩

theorem failsOnly_all {P : Cause → Prop}
    (each : ∀ value ∈ arguments, ∀ type, FailsOnly P (value.codeAs ctx type)) (params : List Descriptor) :
    FailsOnly P (ArgCode.all (Expr.argCodes ctx arguments) params) := by
  refine failsOnly_forM fun pair member => ?_
  obtain ⟨value, among, same⟩ := Expr.exists_of_mem_argCodes (List.of_mem_zip member).1
  change FailsOnly P (pair.1 pair.2)
  rw [same]
  exact each value among pair.2

namespace Program

variable {program : Program} {d : Decl}

theorem constructorParams_eq_error (described : Review.Described program d)
    (h : program.constructorParams d = .error cause) : ∃ error, cause = .lowering error := by
  have known {t : TypeName} (describes : (program.scopeOf d).Describes t) :
      ∃ type, (program.scopeOf d).descriptor t = .ok type := describes.descriptor.imp fun _ => And.left
  unfold constructorParams at h
  dsimp only at h
  split at h
  next body shape =>
    obtain ⟨types, taken⟩ : ∃ types, body.constructors.mapM (fun c =>
        c.params.mapM (fun p => (program.scopeOf d).descriptor p.type)) = .ok types :=
      Scope.exists_mapM fun c own => Scope.exists_mapM fun p among =>
        known ((described.constructors body shape c own).paramTypes p among)
    rw [taken] at h
    cases h
  next components shape =>
    obtain ⟨types, taken⟩ : ∃ types, components.mapM (fun f => (program.scopeOf d).descriptor f.type) = .ok types :=
      Scope.exists_mapM fun f own => known (described.fields f (by rwa [Decl.fields, shape]))
    rw [taken] at h
    cases h
  next =>
    cases h
    exact ⟨_, rfl⟩

theorem constructorFor_eq_error {types : List Descriptor}
    (described : ∀ other ∈ program, Review.Described program other)
    (h : program.constructorFor superclass types false = .error cause) : ∃ error, cause = .lowering error := by
  unfold constructorFor at h
  split at h
  next => cases h
  next other found =>
    simp only [Bool.false_and, Bool.false_eq_true, if_false] at h
    cases candidates : program.constructorParams other with
    | error cause' =>
      rw [candidates] at h
      cases h
      exact constructorParams_eq_error (described other (List.mem_of_find?_eq_some found)) candidates
    | ok candidates' =>
      rw [candidates] at h
      simp only [bind, Except.bind] at h
      split at h
      · cases h
      · cases h
        exact ⟨_, rfl⟩

theorem accounts_superCall (described : ∀ other ∈ program, Review.Described program other) {w later : Workspace}
    (typed : ∀ value ∈ arguments, ∀ cause,
      value.typeIn { toSite := program.constructorSite d, slots := w.slots } none = .error cause →
        d.Accounts program cause)
    (coded : ∀ value ∈ arguments, ∀ type,
      FailsOnly (d.Accounts program) (value.codeAs { toSite := program.constructorSite d, slots := w.slots } type))
    (h : Gen.superCall (program.constructorSite d) superclass arguments w = .error cause later) :
    d.Accounts program cause := by
  rcases bind_fails.1 h with early | ⟨_, u, loaded, late⟩
  · exact accounts_emit _ _ _ _ early
  -- The names in sight are still those that the constructor starts with.
  have same : u.slots = w.slots := by
    obtain ⟨_, -, rfl⟩ := Gen.emit_returns.1 loaded
    rfl
  rw [← same] at typed coded
  refine failsOnly_bind (P := d.Accounts program) (failsOnly_check fun cause fails => ?_) (fun types => ?_) u _ _ late
  · obtain ⟨value, among, fails⟩ := Expr.typesIn_eq_error fails
    exact typed value among cause fails
  refine failsOnly_bind (failsOnly_check fun cause fails => ?_) fun params => ?_
  · obtain ⟨error, rfl⟩ := constructorFor_eq_error described fails
    exact accounts_lowering error
  refine failsOnly_bind (failsOnly_all coded params) fun _ => ?_
  exact failsOnly_bind (accounts_pooled _) fun _ => accounts_emit _

theorem accounts_lowerInits (described : Review.Described program d)
    (isSite : site = program.constructorSite d ∨ site = program.staticInitSite d) {fields : List Field}
    (own : ∀ f ∈ fields, f ∈ d.fields) :
    FailsOnly (fun e => d.Accounts program e.cause) (Field.lowerInits site fields) := by
  have scope : site.scope = program.scopeOf d := by
    rcases isSite with rfl | rfl <;> rfl
  induction fields with
  | nil => exact failsOnly_pure ()
  | cons field rest ih =>
    obtain ⟨first, others⟩ := List.forall_mem_cons.1 own
    refine failsOnly_bind (failsOnly_located ?_ _) fun _ => ih others
    unfold Field.lowerInits.lowerInit
    cases init : field.init with
    | none => exact failsOnly_pure ()
    | some value =>
      obtain ⟨type, typed, -⟩ := (described.fields field first).descriptor
      rw [scope, typed]
      simp only [Gen.check, pure_bind]
      have store : FailsOnly (d.Accounts program) (do
          site.within fun ctx => value.codeAs ctx type
          let index ← Gen.pooled (.fieldRef site.self field.name type.text)
          Gen.emit (.field (if field.modifier.has .static = true then .putstatic else .putfield)
            index type.width)) := by
        refine failsOnly_bind (accounts_within fun w cause later fails => ?_) fun _ => ?_
        · exact accounts_of_raises (.initial isSite first init typed fails)
        · exact failsOnly_bind (accounts_pooled _) fun _ => accounts_emit _
      exact failsOnly_ite (failsOnly_bind (accounts_emit _) fun _ => store) store

theorem accounts_methodCode (described : Review.Described program d) {m : Method} (own : m ∈ d.methods) :
    FailsOnly (fun e => d.Accounts program e.cause) (program.methodCode d m) := by
  have head := described.methods m own
  obtain ⟨returns, result⟩ := head.result
  unfold methodCode
  cases body : m.body with
  | none => exact failsOnly_throw (accounts_lowering _)
  | some lines =>
    refine Build.failsOnly_check (fun e unread => ?_) fun statements read => ?_
    · have fails : (program.methodSite d m returns).lowerBody lines { pool := {} } = .error e { pool := {} } := by
        simp [Site.lowerBody, methodSite, unread]
      exact accounts_of_raises (.method own body result fails)
    refine Build.failsOnly_checkAt (fun cause fails => ?_) fun slots _ => ?_
    · obtain ⟨error, rfl⟩ := Scope.paramSlots_eq_error head.paramTypes fails
      exact accounts_code error
    refine Build.failsOnly_checkAt (fun cause fails => ?_) fun returns' result' => ?_
    · cases result.symm.trans fails
    cases result.symm.trans result'
    refine Lower.failsOnly_run fun pool e w fails => ?_
    rcases bind_fails.1 fails with early | ⟨_, mid, -, late⟩
    · have fails : (program.methodSite d m returns).lowerBody lines { pool, slots } = .error e w := by
        simpa [Site.lowerBody, methodSite, read] using early
      exact accounts_of_raises (.method own body result fails)
    · have finish : FailsOnly (fun e => d.Accounts program e.cause)
        (Lower.finish (Gen.located (d.locationAt m.line))) :=
        Lower.accounts_finish fun only => failsOnly_located only _
      refine failsOnly_ite (P := fun e => d.Accounts program e.cause) ?_ finish mid e w late
      exact failsOnly_bind (failsOnly_throw (accounts_lowering _)) fun _ => finish

theorem accounts_constructorCode (described : ∀ other ∈ program, Review.Described program other)
    (declared : d ∈ program)
    (shape : d.shape = .plainClass body) {c : Constructor} (own : c ∈ body.constructors)
    (defaultSuperclass : String) :
    FailsOnly (fun e => d.Accounts program e.cause) (program.constructorCode d c defaultSuperclass) := by
  have head := (described d declared).constructors body shape c own
  unfold constructorCode
  rw [shape]
  refine Build.failsOnly_checkAt (fun cause fails => ?_) fun slots taken => ?_
  · obtain ⟨error, rfl⟩ := Scope.paramSlots_eq_error head.paramTypes fails
    exact accounts_code error
  refine Build.failsOnly_check (fun e unread => ?_) fun statements read => ?_
  · have fails : (program.constructorSite d).lowerBody c.body { pool := {} } = .error e { pool := {} } := by
      simp [Site.lowerBody, constructorSite, Program.scopeOf, unread]
    exact accounts_of_raises (.constructor shape own fails)
  refine Build.failsOnly_passes ?_ fun superclass => Lower.failsOnly_run fun pool e w fails => ?_
  · cases extended : body.superclass with
    | none => exact ⟨_, rfl⟩
    | some t => exact ((described d declared).parents t (by simp [Decl.parents, shape, extended])).internalName
  rcases bind_fails.1 fails with early | ⟨_, mid, -, late⟩
  · -- An argument of the call is an argument that the constructor has written.
    have written : ∀ value ∈ (c.superCall.map (·.arguments)).getD [], ∃ call, c.superCall = some call ∧
        value ∈ call.arguments := by
      intro value among
      cases calls : c.superCall with
      | none => simp [calls] at among
      | some call => exact ⟨call, rfl, by simpa [calls] using among⟩
    obtain ⟨cause, run, rfl⟩ := Gen.located_fails.1 early
    refine accounts_superCall described (fun value among cause fails => ?_) (fun value among type => ?_) run
    · obtain ⟨call, calls, among⟩ := written value among
      exact accounts_of_raises (.argument shape own calls among taken (.inl fails))
    · intro w cause later fails
      obtain ⟨call, calls, among⟩ := written value among
      exact accounts_of_raises (.argument shape own calls among taken (.inr ⟨type, w, later, fails⟩))
  rcases bind_fails.1 late with early | ⟨_, mid', -, late⟩
  · refine accounts_lowerInits (described d declared) (.inl rfl) (fun f among => ?_) _ _ _ early
    rw [Decl.fields, shape]
    exact (List.mem_filter.1 among).1
  rcases bind_fails.1 late with early | ⟨_, mid'', -, late⟩
  · have fails : (program.constructorSite d).lowerBody c.body mid' = .error e w := by
      simpa [Site.lowerBody, constructorSite, Program.scopeOf, read] using early
    exact accounts_of_raises (.constructor shape own fails)
  · exact Lower.accounts_finish (fun only => failsOnly_located only _) _ _ _ late

theorem accounts_staticInitCode (described : Review.Described program d) :
    FailsOnly (fun e => d.Accounts program e.cause) (program.staticInitCode d) := by
  refine failsOnly_ite (failsOnly_pure none) (failsOnly_bind ?_ fun code => failsOnly_pure _)
  refine Lower.failsOnly_run fun pool e w fails => ?_
  refine failsOnly_bind (P := fun e => d.Accounts program e.cause) ?_ (fun _ => ?_) _ _ _ fails
  · exact accounts_lowerInits described (.inr rfl) fun f among => (List.mem_filter.1 among).1
  · exact Lower.accounts_finish failsOnly_unlocated

end Program

namespace Assembly

open Build (failsOnly_passes failsOnly_field failsOnly_method failsOnly_header failsOnly_signature)

variable {t : Target}

theorem Record.accounts_contents (described : Review.Described t.program t.decl) {components : List Field}
    (shape : t.decl.shape = .record components) :
    FailsOnly (fun e => t.decl.Accounts t.program e.cause) (Record.contents t components) := by
  refine failsOnly_bind (failsOnly_header accounts_pool) fun _ => failsOnly_passes ?_ fun _ => ?_
  · exact described.signature none [] (by simp)
  refine failsOnly_bind (failsOnly_signature accounts_pool) fun _ =>
    failsOnly_bind (failsOnly_mapM fun f own => ?_) fun _ => ?_
  · have known := described.fields f (by rwa [Decl.fields, shape])
    refine failsOnly_passes (known.descriptor.imp fun _ => And.left) fun type =>
      failsOnly_passes known.fieldSignature fun _ => ?_
    exact failsOnly_bind (failsOnly_field accounts_pool) fun _ => failsOnly_pure _
  refine failsOnly_bind ((isLimit_constructorCode t _).mono fun _ => accounts_of_isLimit) fun _ =>
    failsOnly_bind (failsOnly_method accounts_pool) fun _ => ?_
  refine failsOnly_bind (failsOnly_mapM fun c _ => ?_) fun _ => failsOnly_pure _
  exact failsOnly_bind ((isLimit_accessorCode t c.1).mono fun _ => accounts_of_isLimit) fun _ =>
    failsOnly_method accounts_pool

namespace Target

theorem accounts_members {α : Type} {line : α → Nat} {step : α → Build β} {items : List α}
    (each : ∀ item ∈ items, FailsOnly (fun e => t.decl.Accounts t.program e.cause) (step item)) :
    FailsOnly (fun e => t.decl.Accounts t.program e.cause) (t.members line step items) :=
  failsOnly_mapM fun item member => Build.failsOnly_located (each item member) _

theorem accounts_method (described : Review.Described t.program t.decl) {m : Method} (own : m ∈ t.decl.methods)
    (flags : UInt16) : FailsOnly (fun e => t.decl.Accounts t.program e.cause) (t.method m flags) := by
  have head := described.methods m own
  refine failsOnly_passes head.descriptor fun type => failsOnly_passes head.signature fun generic => ?_
  have written (code : Option CodeAttribute) : FailsOnly (fun e => t.decl.Accounts t.program e.cause)
      (Build.method t.options flags m.name type code generic) := failsOnly_method accounts_pool
  refine failsOnly_ite (failsOnly_bind (failsOnly_pure none) written) (failsOnly_bind ?_ written)
  exact failsOnly_map (Program.accounts_methodCode described own)

theorem accounts_classContents (described : ∀ other ∈ t.program, Review.Described t.program other)
    (declared : t.decl ∈ t.program) (shape : t.decl.shape = .plainClass body) :
    FailsOnly (fun e => t.decl.Accounts t.program e.cause) (t.classContents body) := by
  have here := described t.decl declared
  have parents : ∀ name ∈ body.superclass.toList ++ body.interfaces, name ∈ t.decl.parents := by
    simp [Decl.parents, shape]
  refine failsOnly_passes ?_ fun _ => failsOnly_passes ?_ fun _ => ?_
  · cases extended : body.superclass with
    | none => exact ⟨_, rfl⟩
    | some name => exact (here.parents name (parents name (by simp [extended]))).internalName
  · exact Scope.exists_mapM fun name among =>
      (here.parents name (parents name (List.mem_append_right _ among))).internalName
  refine failsOnly_bind (failsOnly_header accounts_pool) fun _ =>
    failsOnly_passes (here.signature _ _ parents) fun _ => ?_
  refine failsOnly_bind (failsOnly_signature accounts_pool) fun _ => ?_
  refine failsOnly_bind (accounts_members fun f own => ?_) fun _ => ?_
  · have known := here.fields f (by rwa [Decl.fields, shape])
    refine failsOnly_passes (known.descriptor.imp fun _ => And.left) fun type => ?_
    exact failsOnly_passes known.fieldSignature fun _ => failsOnly_field accounts_pool
  refine failsOnly_bind (accounts_members fun c own => ?_) fun _ => ?_
  · have head := here.constructors body shape c own
    refine failsOnly_passes head.descriptor fun type => failsOnly_passes head.signature fun generic => ?_
    refine failsOnly_bind (Program.accounts_constructorCode described declared shape own _) fun _ => ?_
    exact failsOnly_method accounts_pool
  refine failsOnly_bind (accounts_members fun m own => accounts_method here (by rwa [Decl.methods, shape]) _)
    fun _ => ?_
  refine failsOnly_bind (failsOnly_bind (Program.accounts_staticInitCode here) fun code => ?_) fun _ => failsOnly_pure _
  cases code with
  | none => exact failsOnly_pure []
  | some code => exact failsOnly_bind (failsOnly_method accounts_pool) fun _ => failsOnly_pure _

theorem accounts_interfaceContents (described : Review.Described t.program t.decl) {parents : List TypeName}
    {methods : List Method} (shape : t.decl.shape = .interface parents methods) :
    FailsOnly (fun e => t.decl.Accounts t.program e.cause) (t.interfaceContents parents methods) := by
  refine failsOnly_passes ?_ fun _ => failsOnly_bind (failsOnly_header accounts_pool) fun _ => ?_
  · exact Scope.exists_mapM fun name among => (described.parents name (by rwa [Decl.parents, shape])).internalName
  refine failsOnly_passes (described.signature none parents (by simp [Decl.parents, shape])) fun _ => ?_
  refine failsOnly_bind (failsOnly_signature accounts_pool) fun _ => ?_
  refine failsOnly_bind (accounts_members fun m own => ?_) fun _ => failsOnly_pure _
  exact accounts_method described (by rwa [Decl.methods, shape]) _

theorem accounts_build (described : ∀ other ∈ t.program, Review.Described t.program other)
    (declared : t.decl ∈ t.program) : FailsOnly (fun e => t.decl.Accounts t.program e.cause) t.build := by
  refine failsOnly_bind ?_ fun _ => failsOnly_bind (failsOnly_ite (failsOnly_pure _) ?_) fun _ => failsOnly_pure _
  · unfold contents
    cases shape : t.decl.shape with
    | plainClass body => exact accounts_classContents described declared shape
    | interface parents methods => exact accounts_interfaceContents (described t.decl declared) shape
    | enumeration values => exact (Enumeration.isLimit_contents t values).mono fun _ => accounts_of_isLimit
    | record components => exact Record.accounts_contents (described t.decl declared) shape
  · exact failsOnly_bind (Build.failsOnly_textAttribute accounts_pool) fun _ => failsOnly_pure _

end Target

end Assembly

namespace Program

variable {raw program : Program} {d : Decl}

theorem heads_described (reviewed : raw.review = .ok program) (declared : d ∈ program) :
    Review.Described program d ∧
      ∀ options e, program.assemble options d = .error e → ∀ name, e.cause = .unknownType name →
        d.Raises program e.cause := by
  have described : ∀ other ∈ program, Review.Described program other :=
    fun other among => (known_of_review reviewed among).described
  refine ⟨described d declared, fun options e h => ?_⟩
  unfold assemble at h
  split at h
  next => cases h
  next error pool fails =>
    cases h
    exact Assembly.Target.accounts_build (t := { program, decl := d, options }) described declared _ _ _ fails

theorem heads_described_local : ∃ raw program d e,
    parse ⟨"F.k"⟩ ("\n".intercalate ["class Box<T : Comparable> \x7b", "T[] all",
      "public <U : Box> U put(T x, U y) \x7b",
      "Missing z = null", "return y", "\x7d", "\x7d"]) = .ok raw ∧
      raw.review = .ok program ∧ d ∈ program ∧ Review.Described program d ∧ program.assemble {} d = .error e ∧
      e.cause = .unknownType "Missing" ∧ d.Raises program e.cause := by
  generalize written : "\n".intercalate _ = source
  have run : (((parse ⟨"F.k"⟩ source).toOption.bind (·.review.toOption)).bind fun program =>
        program.head?.map fun d => (program.assemble {} d).map fun _ => ()) =
      some (.error { cause := .unknownType "Missing", location := some ⟨⟨"F.k"⟩, 4⟩ }) := by
    rw [← written]
    decide +kernel
  simp only [Option.bind_eq_some_iff, Option.map_eq_some_iff, toOption_eq_some] at run
  obtain ⟨program, ⟨raw, parsed, reviewed⟩, d, first, fails⟩ := run
  have declared := List.mem_of_head? first
  obtain ⟨described, inside⟩ := heads_described reviewed declared
  cases outcome : program.assemble {} d with
  | ok file =>
    rw [outcome] at fails
    cases fails
  | error e =>
    rw [outcome] at fails
    cases fails
    exact ⟨raw, program, d, _, parsed, reviewed, declared, described, outcome, rfl, inside {} _ outcome _ rfl⟩

end Program

end ClassForge
