import ClassForge.Proofs.NamesInSight
import ClassForge.Session

set_option autoImplicit false

namespace ClassForge

def Field.face (field : Field) : Field :=
  { field with line := 0, init := none }

def Method.face (m : Method) : Method :=
  { m with body := none, line := 0 }

def Constructor.face (c : Constructor) : Constructor :=
  { c with body := [], superCall := none, line := 0 }

def Shape.face : Shape → Shape
  | .enumeration values => .enumeration values
  | .record components => .record (components.map Field.face)
  | .interface parents methods => .interface parents (methods.map Method.face)
  | .plainClass body =>
    .plainClass { body with
      fields := body.fields.map Field.face
      constructors := body.constructors.map Constructor.face
      methods := body.methods.map Method.face }

def Decl.face (d : Decl) : Decl :=
  { d with line := 0, shape := d.shape.face }

def Decl.SameFace (d e : Decl) : Prop :=
  e.face = d.face

namespace Decl

variable (d : Decl)

theorem isInterface_face : d.face.isInterface = d.isInterface := by
  obtain ⟨header, shape⟩ := d
  cases shape <;> rfl

theorem isFinal_face : d.face.isFinal = d.isFinal := by
  obtain ⟨header, shape⟩ := d
  cases shape <;> rfl

theorem values_face : d.face.values = d.values := by
  obtain ⟨header, shape⟩ := d
  cases shape <;> rfl

theorem superclass?_face : d.face.superclass? = d.superclass? := by
  obtain ⟨header, shape⟩ := d
  cases shape <;> rfl

theorem isClass_face : d.face.classBody?.isSome = d.classBody?.isSome := by
  obtain ⟨header, shape⟩ := d
  cases shape <;> rfl

theorem fields_face : d.face.fields = d.fields.map Field.face := by
  obtain ⟨header, shape⟩ := d
  cases shape <;> rfl

theorem methods_face : d.face.methods = d.methods.map Method.face := by
  obtain ⟨header, shape⟩ := d
  cases shape <;> rfl

end Decl

theorem Field.find?_face (fields : List Field) (name : String) :
    (fields.map face).find? (·.name = name) = (fields.find? (·.name = name)).map face := by
  rw [List.find?_map]
  rfl

namespace Decl.SameFace

theorem refl (d : Decl) : d.SameFace d :=
  rfl

variable {d e : Decl} (same : d.SameFace e)
include same

theorem eq {α : Type} {f : Decl → α} (shown : ∀ d, f d.face = f d) : f e = f d := by
  rw [← shown e, ← shown d, same]

theorem resolve (p q : Program) (params : List TypeParam) (t : TypeName) :
    Scope.resolve ⟨q, e, params⟩ t = Scope.resolve ⟨p, d, params⟩ t :=
  same.eq (f := fun d => Scope.resolve ⟨p, d, params⟩ t) fun _ => rfl

theorem typeParams : e.typeParams = d.typeParams :=
  same.eq (f := fun d => d.typeParams) fun _ => rfl

end Decl.SameFace

theorem Scope.descriptor_face (p : Program) (d : Decl) (params : List TypeParam) (t : TypeName) :
    Scope.descriptor ⟨p, d.face, params⟩ t = Scope.descriptor ⟨p, d, params⟩ t := by
  have erase (fuel : Nat) (t : TypeName) :
      Scope.erase ⟨p, d.face, params⟩ fuel t = Scope.erase ⟨p, d, params⟩ fuel t := by
    induction fuel generalizing t with
    | zero => rfl
    | succ fuel ih =>
      have resolve : Scope.resolve ⟨p, d.face, params⟩ t = Scope.resolve ⟨p, d, params⟩ t := rfl
      simp only [Scope.erase, resolve, ih]
  exact erase _ t

namespace Program

section Shown

variable (p : Program) (d : Decl)

theorem supertypes_face : p.supertypes d.face = p.supertypes d := by
  obtain ⟨header, shape⟩ := d
  cases shape <;> rfl

theorem ownField?_face (name : String) : p.ownField? d.face name = p.ownField? d name := by
  unfold ownField? scopeOf
  rw [Decl.values_face, Decl.fields_face, Field.find?_face]
  simp only [Scope.descriptor_face]
  cases d.fields.find? (·.name = name) <;> rfl

theorem methodTarget_face (m : Method) : p.methodTarget d.face m.face = p.methodTarget d m := by
  have returns (params : List TypeParam) (t : Option TypeName) :
      Scope.resultDescriptor ⟨p, d.face, params⟩ t = Scope.resultDescriptor ⟨p, d, params⟩ t := by
    cases t <;> simp only [Scope.resultDescriptor, Scope.descriptor_face]
  simp only [methodTarget, scopeOf, Scope.methodDescriptor, Scope.descriptor_face, returns, Decl.isInterface_face]
  rfl

theorem ownMethods_face (name : String) : p.ownMethods d.face name = p.ownMethods d name := by
  have methods : (d.face.methods.filter (·.name = name)).mapM (p.methodTarget d.face) =
      (d.methods.filter (·.name = name)).mapM (p.methodTarget d) := by
    rw [Decl.methods_face, List.filter_map, List.mapM_map]
    simp only [Function.comp_def, methodTarget_face]
    rfl
  obtain ⟨header, shape⟩ := d
  cases shape with
  | enumeration values => rfl
  | interface parents own | plainClass body => exact methods
  | record components =>
    have typed (t : TypeName) := Scope.descriptor_face p ⟨header, .record components⟩ [] t
    simp only [Decl.face, Shape.face] at typed
    simp only [ownMethods, Decl.face, Shape.face, scopeOf, Field.find?_face, typed]
    cases components.find? (·.name = name) <;> rfl

theorem constructorParams_face : p.constructorParams d.face = p.constructorParams d := by
  have typed (t : TypeName) : (p.scopeOf d.face).descriptor t = (p.scopeOf d).descriptor t :=
    Scope.descriptor_face p d [] t
  unfold constructorParams
  simp only [typed]
  obtain ⟨header, shape⟩ := d
  cases shape with
  | enumeration values | interface parents own => rfl
  | plainClass body =>
    simp only [Decl.face, Shape.face, List.mapM_map]
    rfl
  | record components =>
    simp only [Decl.face, Shape.face, List.mapM_map]
    rfl

end Shown

structure Answers (p q : Program) : Prop where
  find : ∀ name, Option.Rel Decl.SameFace (p.find? name) (q.find? name)
  internal : ∀ name, Option.Rel Decl.SameFace (p.findInternal? name) (q.findInternal? name)
  length : List.length q = List.length p
  total : ∀ weight : Decl → Nat,
    List.foldr (fun d n => weight d.face + n) 1 q = List.foldr (fun d n => weight d.face + n) 1 p

namespace Answers

variable {p q : Program} (alike : p.Answers q)
include alike

theorem internalName (name : String) : q.internalName name = p.internalName name := by
  have found := alike.find name
  unfold Program.internalName
  generalize p.find? name = here, q.find? name = there at found ⊢
  cases found with
  | none => rfl
  | some same => exact same.eq (f := fun d => d.internalName) fun _ => rfl

theorem isInterface (name : String) : q.isInterface name = p.isInterface name := by
  have found := alike.find name
  unfold Program.isInterface
  generalize p.find? name = here, q.find? name = there at found ⊢
  cases found with
  | none => rfl
  | some same => exact same.eq Decl.isInterface_face

theorem supertypes (d : Decl) : q.supertypes d = p.supertypes d := by
  simp only [Program.supertypes, funext alike.internalName]

theorem supertypesOf (name : String) : q.supertypesOf name = p.supertypesOf name := by
  have found := alike.internal name
  unfold Program.supertypesOf
  generalize p.findInternal? name = here, q.findInternal? name = there at found ⊢
  cases found with
  | none => rfl
  | some same => exact (alike.supertypes _).trans (same.eq p.supertypes_face)

theorem visit (fuel : Nat) (seen queue : List String) : q.visit fuel seen queue = p.visit fuel seen queue := by
  induction fuel generalizing seen queue with
  | zero => rfl
  | succ fuel ih => cases queue <;> simp only [Program.visit, ih, alike.supertypesOf]

theorem ancestors (name : String) : q.ancestors name = p.ancestors name := by
  have total := alike.total fun d => (p.supertypes d).length
  simp only [supertypes_face] at total
  simp only [Program.ancestors, alike.visit, alike.supertypes, total]

theorem coercion (source target : Descriptor) : q.coercion? source target = p.coercion? source target := by
  have known (lower upper : String) : q.isSubclass lower upper = p.isSubclass lower upper := by
    simp only [isSubclass, alike.ancestors]
  simp only [coercion?, known]

theorem signature (t : TypeRef) : t.signature q = t.signature p := by
  simp only [TypeRef.signature, alike.internalName]

section Types

variable {d e : Decl} (same : d.SameFace e) (params : List TypeParam)
include same

theorem erase (fuel : Nat) (t : TypeName) : Scope.erase ⟨q, e, params⟩ fuel t = Scope.erase ⟨p, d, params⟩ fuel t := by
  induction fuel generalizing t with
  | zero => rfl
  | succ fuel ih => simp only [Scope.erase, same.resolve p q, ih, alike.internalName]

theorem descriptor (t : TypeName) : Scope.descriptor ⟨q, e, params⟩ t = Scope.descriptor ⟨p, d, params⟩ t := by
  simp only [Scope.descriptor, same.typeParams, alike.erase same]

theorem resultDescriptor (t : Option TypeName) :
    Scope.resultDescriptor ⟨q, e, params⟩ t = Scope.resultDescriptor ⟨p, d, params⟩ t := by
  cases t <;> simp only [Scope.resultDescriptor, alike.descriptor same]

theorem methodDescriptor (own : List Param) (returns : Option TypeName) :
    Scope.methodDescriptor ⟨q, e, params⟩ own returns = Scope.methodDescriptor ⟨p, d, params⟩ own returns := by
  simp only [Scope.methodDescriptor, alike.descriptor same, alike.resultDescriptor same]

theorem className (t : TypeName) : Scope.internalName ⟨q, e, params⟩ t = Scope.internalName ⟨p, d, params⟩ t := by
  simp only [Scope.internalName, alike.descriptor same]

theorem paramSlots (isStatic : Bool) (own : List Param) :
    Scope.paramSlots ⟨q, e, params⟩ isStatic own = Scope.paramSlots ⟨p, d, params⟩ isStatic own := by
  simp only [Scope.paramSlots, alike.descriptor same]

theorem typeParamsSignature (own : List TypeParam) :
    Scope.typeParamsSignature ⟨q, e, params⟩ own = Scope.typeParamsSignature ⟨p, d, params⟩ own := by
  have bound (isFirst : Bool) : Scope.boundSignature ⟨q, e, params⟩ isFirst =
    Scope.boundSignature ⟨p, d, params⟩ isFirst :=
    funext fun t => by
      simp only [Scope.boundSignature, same.resolve p q, funext alike.isInterface, alike.signature]
  have each : Scope.typeParamSignature ⟨q, e, params⟩ = Scope.typeParamSignature ⟨p, d, params⟩ :=
    funext fun param => by simp only [Scope.typeParamSignature, bound]
  simp only [Scope.typeParamsSignature, each]

theorem classSignature (superclass : Option TypeName) (interfaces : List TypeName) :
    Scope.classSignature ⟨q, e, params⟩ superclass interfaces =
      Scope.classSignature ⟨p, d, params⟩ superclass interfaces := by
  simp only [Scope.classSignature, same.typeParams, alike.typeParamsSignature same,
    funext (same.resolve p q params), alike.signature]

theorem methodSignature (formal : List TypeParam) (own : List Param) (returns : Option TypeName) :
    Scope.methodSignature ⟨q, e, params⟩ formal own returns =
      Scope.methodSignature ⟨p, d, params⟩ formal own returns := by
  simp only [Scope.methodSignature, alike.typeParamsSignature same, funext (same.resolve p q params), alike.signature]

theorem fieldSignature (t : TypeName) :
    Scope.fieldSignature ⟨q, e, params⟩ t = Scope.fieldSignature ⟨p, d, params⟩ t := by
  simp only [Scope.fieldSignature, same.resolve p q, alike.signature]

end Types

section Members

theorem ownField {d e : Decl} (same : d.SameFace e) (name : String) : q.ownField? e name = p.ownField? d name := by
  rw [← same.eq (f := (p.ownField? · name)) (p.ownField?_face · name)]
  simp only [ownField?, scopeOf, alike.descriptor (.refl e)]

theorem searchField (name : String) (fuel : Nat) (owner : String) :
    q.searchField name fuel owner = p.searchField name fuel owner := by
  induction fuel generalizing owner with
  | zero => rfl
  | succ fuel ih =>
    have found := alike.internal owner
    unfold Program.searchField
    generalize p.findInternal? owner = here, q.findInternal? owner = there at found ⊢
    cases found with
    | none => rfl
    | some same =>
      simp only [alike.ownField same, same.eq Decl.superclass?_face, scopeOf, alike.className same, ih]

theorem findField (owner name : String) : q.findField owner name = p.findField owner name := by
  simp only [Program.findField, alike.searchField, alike.length]

theorem select {α : Type} (params : α → List Descriptor) (candidates : List α) (arguments : List Descriptor) :
    q.select? params candidates arguments = p.select? params candidates arguments := by
  simp only [select?, accepts, alike.coercion]

theorem ownMethods {d e : Decl} (same : d.SameFace e) (name : String) : q.ownMethods e name = p.ownMethods d name := by
  rw [← same.eq (f := (p.ownMethods · name)) (p.ownMethods_face · name)]
  have target : q.methodTarget e = p.methodTarget e :=
    funext fun m => by simp only [methodTarget, scopeOf, alike.methodDescriptor (.refl e)]
  simp only [Program.ownMethods, target, scopeOf, alike.descriptor (.refl e)]

theorem findMethod (owner name : String) (arguments : List Descriptor) :
    q.findMethod owner name arguments = p.findMethod owner name arguments := by
  have search (owners : List String) : q.searchMethod name arguments owners = p.searchMethod name arguments owners := by
    induction owners with
    | nil => rfl
    | cons owner rest ih =>
      have found := alike.internal owner
      unfold searchMethod
      generalize p.findInternal? owner = here, q.findInternal? owner = there at found ⊢
      cases found with
      | none => exact ih
      | some same => simp only [alike.ownMethods same, alike.select, ih]
  simp only [Program.findMethod, search, alike.ancestors]

theorem constructorFor (owner : String) (arguments : List Descriptor) (instantiates : Bool) :
    q.constructorFor owner arguments instantiates = p.constructorFor owner arguments instantiates := by
  have found := alike.internal owner
  unfold Program.constructorFor
  generalize p.findInternal? owner = here, q.findInternal? owner = there at found ⊢
  cases found with
  | none => rfl
  | @some d e same =>
    have params : q.constructorParams e = p.constructorParams d := by
      rw [← same.eq p.constructorParams_face]
      simp only [constructorParams, scopeOf, alike.descriptor (.refl e)]
    have name : e.name = d.name := same.eq (f := fun d => d.name) fun _ => rfl
    have modifier : e.modifier = d.modifier := same.eq (f := fun d => d.modifier) fun _ => rfl
    have isClass : e.classBody?.isSome = d.classBody?.isSome := same.eq (f := (·.classBody?.isSome)) Decl.isClass_face
    simp only [params, alike.select, name, modifier, isClass]

end Members

end Answers

end Program

theorem Context.alike_of {ctx : Context} {q : Program} {e : Decl} (alike : ctx.program.Answers q)
    (same : ctx.scope.decl.SameFace e) (names : List String) :
    ctx.Alike { ctx with scope := ⟨q, e, ctx.scope.typeParams⟩ } names := by
  generalize moved : ({ ctx with scope := ⟨q, e, ctx.scope.typeParams⟩ } : Context) = ctx'
  have self : ctx'.self = ctx.self := moved ▸ same.eq (f := (·.internalName)) fun _ => rfl
  have isStatic : ctx'.isStatic = ctx.isStatic := moved ▸ rfl
  have slots : ctx'.slots = ctx.slots := moved ▸ rfl
  have program : ctx'.program = q := moved ▸ rfl
  have resolve (t : TypeName) : ctx'.scope.resolve t = ctx.scope.resolve t := moved ▸ same.resolve ctx.program q _ t
  have check : ctx'.checkField = ctx.checkField := funext fun field => by simp only [checkField, self]
  have own : ctx'.ownPlace = ctx.ownPlace := by
    funext name field
    simp only [ownPlace, check, isStatic]
  refine ⟨self, isStatic, moved ▸ alike.descriptor same _, ?_, fun name _ => ?_, fun owner name => ?_,
    fun owner name arguments => ?_, ?_⟩
  · exact program ▸ alike.coercion
  · simp only [resolveName, isStatic, slots, program, self, alike.findField, own, resolve, alike.internalName]
  · simp only [fieldOf, program, alike.findField, check]
  · simp only [methodOf, program, alike.findMethod, self]
  · exact program ▸ alike.constructorFor

end ClassForge
