import ClassForge.Proofs.Reviewed
import ClassForge.Session

set_option autoImplicit false

namespace ClassForge

variable {dims fuel : Nat} {name : String} {bound : TypeName} {p : TypeParam} {base : String}

namespace Scope

variable {scope : Scope} {t : TypeName}

def IsClass (scope : Scope) (t : TypeName) : Prop :=
  ∃ qualified, scope.resolve t = .ok { dims := 0, base := .named qualified }

def Resolves (scope : Scope) (t : TypeName) : Prop :=
  ∃ ref, scope.resolve t = .ok ref

theorem resolve_congr {other : Scope} (header : other.decl.toHeader = scope.decl.toHeader)
    (params : other.typeParams = scope.typeParams) (t : TypeName) : other.resolve t = scope.resolve t := by
  unfold resolve typeParam?
  rw [header, params]

theorem erase_bounded (resolved : scope.resolve t = .ok { dims, base := .param name (some bound) }) :
    scope.erase (fuel + 1) t = (scope.erase fuel bound).map fun d => ⟨brackets dims ++ d.text⟩ := by
  rw [erase, resolved]
  change (scope.erase fuel bound >>= _) = _
  cases scope.erase fuel bound <;> rfl

theorem erase_class {qualified : String} (resolved : scope.resolve t = .ok { dims, base := .named qualified }) :
    scope.erase (fuel + 1) t =
      .ok ⟨brackets dims ++ (Descriptor.ofClass (scope.program.internalName qualified)).text⟩ := by
  rw [erase, resolved]
  rfl

theorem erase_unbounded (resolved : scope.resolve t = .ok { dims, base := .param name none }) :
    scope.erase (fuel + 1) t = .ok ⟨brackets dims ++ Descriptor.object.text⟩ := by
  rw [erase, resolved]
  rfl

structure Grounded (scope : Scope) : Prop where
  own : ∀ p ∈ scope.typeParams, ∀ b ∈ p.bounds, scope.IsClass b
  outer : ∀ p ∈ scope.decl.typeParams, ∀ b ∈ p.bounds, (scope.program.scopeOf scope.decl).IsClass b

def ownParam? (scope : Scope) (name : String) : Option TypeParam :=
  scope.typeParams.find? (·.name = name)

theorem typeParam?_eq (scope : Scope) (name : String) :
    scope.typeParam? name = (scope.ownParam? name).or ((scope.program.scopeOf scope.decl).typeParam? name) := by
  simp [typeParam?, ownParam?, Program.scopeOf, List.find?_append]

theorem resolve_outer (free : scope.ownParam? t.base = none) :
    scope.resolve t = (scope.program.scopeOf scope.decl).resolve t := by
  unfold resolve
  rw [typeParam?_eq, free, Option.none_or]
  rfl

theorem resolve_own (plain : Primitive.ofKeyword? t.base = none) (own : scope.ownParam? t.base = some p) :
    scope.resolve t = .ok { dims := t.dims, base := .param p.name p.bounds.head? } := by
  unfold resolve
  rw [plain, typeParam?_eq, own, Option.some_or]

namespace Grounded

variable (grounded : scope.Grounded)
include grounded

theorem own_class (own : scope.ownParam? base = some p) (first : p.bounds.head? = some bound) : scope.IsClass bound :=
  grounded.own p (List.mem_of_find?_eq_some own) bound (List.mem_of_head? first)

theorem outer_class
    (outer : (scope.program.scopeOf scope.decl).typeParam? t.base = some p) (first : p.bounds.head? = some bound) :
    (scope.program.scopeOf scope.decl).IsClass bound := by
  refine grounded.outer p ?_ bound (List.mem_of_head? first)
  simpa [Program.scopeOf] using List.mem_of_find?_eq_some outer

theorem erase_own (plain : Primitive.ofKeyword? base = none) (own : scope.ownParam? base = some p) :
    ∃ d : Descriptor, ∀ dims fuel, scope.erase (fuel + 2) { dims, base } = .ok ⟨brackets dims ++ d.text⟩ := by
  have resolved (dims : Nat) : scope.resolve { dims, base } = .ok { dims, base := .param p.name p.bounds.head? } :=
    resolve_own plain own
  cases first : p.bounds.head? with
  | none =>
    rw [first] at resolved
    exact ⟨.object, fun dims fuel => erase_unbounded (resolved dims)⟩
  | some bound =>
    rw [first] at resolved
    obtain ⟨qualified, named⟩ := grounded.own_class own first
    refine ⟨⟨brackets 0 ++ (Descriptor.ofClass (scope.program.internalName qualified)).text⟩, fun dims fuel => ?_⟩
    rw [erase_bounded (resolved dims), erase_class named]
    rfl

theorem exists_descriptor (known : scope.Resolves t) : ∃ d, scope.descriptor t = .ok d ∧ scope.Erases t d := by
  suffices found : ∃ d, scope.descriptor t = .ok d by
    obtain ⟨d, h⟩ := found
    exact ⟨d, h, erases_of_erase h⟩
  unfold descriptor
  obtain ⟨⟨dims, base⟩, resolved⟩ := known
  match base with
  | .primitive p | .named qualified | .param name none =>
    rw [erase, resolved]
    exact ⟨_, rfl⟩
  | .param name (some bound) =>
    obtain ⟨-, -, p, found, first⟩ := resolve_known resolved
    -- Each of the two lists that the type parameter may stand in makes the limit one higher.
    have some : 0 < (scope.typeParams ++ scope.decl.typeParams).length :=
      List.length_pos_of_mem (List.mem_of_find?_eq_some found)
    obtain ⟨fuel, enough⟩ : ∃ fuel, scope.typeParams.length + scope.decl.typeParams.length + 2 = fuel + 3 := by
      rw [List.length_append] at some
      exact ⟨scope.typeParams.length + scope.decl.typeParams.length - 1, by omega⟩
    suffices inner : ∃ d, scope.erase (fuel + 2) bound = .ok d by
      obtain ⟨d, inner⟩ := inner
      rw [enough, erase_bounded resolved, inner]
      exact ⟨_, rfl⟩
    have direct (isClass : scope.IsClass bound) : ∃ d, scope.erase (fuel + 2) bound = .ok d := by
      obtain ⟨qualified, named⟩ := isClass
      exact ⟨_, erase_class named⟩
    rw [typeParam?_eq, Option.or_eq_some_iff] at found
    rcases found with own | ⟨-, outer⟩
    · exact direct (grounded.own_class own first)
    · obtain ⟨qualified, named⟩ := grounded.outer_class outer first
      cases hidden : scope.ownParam? bound.base with
      | none => exact direct ⟨qualified, (resolve_outer hidden).trans named⟩
      | some q =>
        obtain ⟨d, erased⟩ := grounded.erase_own (resolve_known named).2.1 hidden
        exact ⟨_, erased bound.dims fuel⟩

end Grounded

-- The type parameter of the method in place of the class that was meant: it has the name of the first bound of
-- the type parameter that the type stands for outside the method.
def captor? (scope : Scope) (t : TypeName) : Option TypeParam :=
  match (scope.program.scopeOf scope.decl).resolve t with
  | .ok { base := .param _ (some bound), .. } => scope.ownParam? bound.base
  | _ => none

namespace Grounded

variable (grounded : scope.Grounded)
include grounded

theorem descriptor_eq (free : scope.ownParam? t.base = none) :
    scope.descriptor t =
      match scope.captor? t with
      | none => (scope.program.scopeOf scope.decl).descriptor t
      | some q => scope.descriptor { t with base := q.name } := by
  have agree := resolve_outer free
  cases outside : (scope.program.scopeOf scope.decl).resolve t with
  | error cause =>
    rw [outside] at agree
    have none : scope.captor? t = none := by simp [captor?, outside]
    rw [none]
    simp only [descriptor, erase, agree, outside]
    rfl
  | ok ref =>
    rw [outside] at agree
    obtain ⟨dims, base⟩ := ref
    rcases base with p | ⟨name, _ | bound⟩ | qualified
    case ok.param.some =>
      obtain ⟨rfl, -, p, found, first⟩ := resolve_known outside
      obtain ⟨qualified, named⟩ := grounded.outer_class found first
      have captor : scope.captor? t = scope.ownParam? bound.base := by simp [captor?, outside]
      rw [captor]
      unfold descriptor
      rw [erase_bounded agree]
      cases own : scope.ownParam? bound.base with
      | none =>
        rw [erase_class ((resolve_outer own).trans named)]
        dsimp only
        rw [erase_bounded outside, erase_class named]
        rfl
      | some q =>
        -- The bound is one name, so that the dimensions are those of the type.
        obtain ⟨flat, plain, -, -⟩ := resolve_known named
        obtain ⟨d, erased⟩ := grounded.erase_own plain own
        have same : q.name = bound.base := by simpa using List.find?_some own
        obtain ⟨fuel, enough⟩ : ∃ fuel, scope.typeParams.length + scope.decl.typeParams.length + 1 = fuel + 2 := by
          have := List.length_pos_of_mem (List.mem_of_find?_eq_some own)
          exact ⟨scope.typeParams.length + scope.decl.typeParams.length - 1, by omega⟩
        dsimp only
        rw [enough, same, erased, show bound = { dims := bound.dims, base := bound.base } from rfl, erased, ← flat]
        simp [brackets, Except.map]
    all_goals
      have none : scope.captor? t = none := by simp [captor?, outside]
      rw [none]
      simp only [descriptor, erase, agree, outside]
      rfl

end Grounded

end Scope

def Program.scopeIn (program : Program) (d : Decl) (m : Method) : Scope :=
  { program.scopeOf d with typeParams := m.typeParams }

namespace Review

structure KnownMethod (scope : Scope) (m : Method) : Prop where
  bounds : ∀ p ∈ m.typeParams, ∀ b ∈ p.bounds, scope.IsClass b
  returns : ∀ t ∈ m.returns, scope.Resolves t
  params : ∀ p ∈ m.params, scope.Resolves p.type

structure Known (program : Program) (d : Decl) : Prop where
  bounds : ∀ p ∈ d.typeParams, ∀ b ∈ p.bounds, (program.scopeOf d).IsClass b
  fields : ∀ f ∈ d.fields, (program.scopeOf d).Resolves f.type
  parents : ∀ t ∈ d.parents, (program.scopeOf d).Resolves t
  constructors : ∀ body, d.shape = .plainClass body →
    ∀ c ∈ body.constructors, ∀ p ∈ c.params, (program.scopeOf d).Resolves p.type
  methods : ∀ m ∈ d.methods, KnownMethod (program.scopeIn d m) m

variable {program : Program} {d : Decl} {scope : Scope} {t : TypeName}

theorem isClass_of_checkBounds {params : List TypeParam} (h : checkBounds scope params = .ok ()) :
    ∀ p ∈ params, ∀ b ∈ p.bounds, scope.IsClass b := by
  intro p member b bound
  have checked := forM_eq_ok_iff.1 (forM_eq_ok_iff.1 h p member) b bound
  simp only [checkBound, bind_eq_ok] at checked
  obtain ⟨⟨dims, base⟩, resolved, known⟩ := checked
  split at known
  next qualified found =>
    obtain ⟨rfl, rfl⟩ := TypeRef.of_className found
    exact ⟨qualified, resolved⟩
  next => cases known

theorem resolves_of_checkKnown (h : checkKnown scope t = .ok ()) : scope.Resolves t := by
  simp only [checkKnown, bind_eq_ok] at h
  obtain ⟨ref, resolved, -⟩ := h
  exact ⟨ref, resolved⟩

theorem resolves_of_checkParams {params : List Param} (h : params.forM (checkParam scope) = .ok ()) :
    ∀ p ∈ params, scope.Resolves p.type := by
  intro p member
  have checked := forM_eq_ok_iff.1 h p member
  simp only [checkParam, bind_eq_ok] at checked
  obtain ⟨_, -, known⟩ := checked
  exact resolves_of_checkKnown known

theorem known_of_checkMethod {m : Method} (h : checkMethod (program.scopeOf d) m = .ok ()) :
    KnownMethod (program.scopeIn d m) m := by
  simp only [checkMethod, bind_eq_ok] at h
  obtain ⟨_, bounds, _, returns, params⟩ := h
  refine ⟨isClass_of_checkBounds bounds, fun t member => ?_, resolves_of_checkParams params⟩
  exact resolves_of_checkKnown (forM_eq_ok_iff.1 returns t (Option.mem_toList.2 member))

theorem resolves_of_checkInterface (h : checkInterface scope t = .ok ()) : scope.Resolves t := by
  simp only [checkInterface, bind_eq_ok] at h
  obtain ⟨ref, resolved, -⟩ := h
  exact ⟨ref, resolved⟩

theorem resolves_of_checkClass {body : ClassBody} (h : checkClass scope body = .ok ()) :
    ∀ t ∈ body.superclass.toList ++ body.interfaces, scope.Resolves t := by
  simp only [checkClass] at h
  by_cases clash : (scope.decl.modifier.has .abstract && scope.decl.modifier.has .final) = true
  · rw [if_pos clash] at h
    cases h
  · rw [if_neg clash] at h
    simp only [bind_eq_ok] at h
    obtain ⟨_, superclass, _, interfaces, -⟩ := h
    intro t member
    rcases List.mem_append.1 member with extended | implemented
    · have checked := forM_eq_ok_iff.1 superclass t extended
      simp only [checkSuperclass, bind_eq_ok] at checked
      obtain ⟨ref, resolved, -⟩ := checked
      exact ⟨ref, resolved⟩
    · exact resolves_of_checkInterface (forM_eq_ok_iff.1 interfaces t implemented)

theorem known_of_check (h : check program d = .ok ()) : Known program d := by
  simp only [check, bind_eq_ok, located_eq_ok] at h
  obtain ⟨_, -, _, bounds, _, members, shaped⟩ := h
  have bounds := isClass_of_checkBounds bounds
  -- Each kind of declaration has its own members, so the shape decides what there is to show.
  cases shape : d.shape with
  | enumeration values =>
    refine ⟨bounds, ?_, ?_, ?_, ?_⟩ <;> simp [Decl.fields, Decl.parents, Decl.methods, shape]
  | record components =>
    simp only [checkMembers, shape] at members
    refine ⟨bounds, fun f own => ?_, ?_, ?_, ?_⟩
    · simp only [Decl.fields, shape] at own
      have checked := located_eq_ok.1 (forM_eq_ok_iff.1 members f own)
      simp only [checkComponent, bind_eq_ok] at checked
      obtain ⟨_, -, known⟩ := checked
      exact resolves_of_checkKnown known
    all_goals simp [Decl.parents, Decl.methods, shape]
  | interface parents methods =>
    simp only [checkMembers, shape] at members
    simp only [checkShape, shape, located_eq_ok] at shaped
    refine ⟨bounds, ?_, fun t own => ?_, ?_, fun m own => ?_⟩
    · simp [Decl.fields, shape]
    · simp only [Decl.parents, shape] at own
      exact resolves_of_checkInterface (forM_eq_ok_iff.1 shaped t own)
    · simp [shape]
    · simp only [Decl.methods, shape] at own
      exact known_of_checkMethod (located_eq_ok.1 (forM_eq_ok_iff.1 members m own))
  | plainClass body =>
    simp only [checkMembers, shape, bind_eq_ok] at members
    obtain ⟨_, fields, _, methods, constructors⟩ := members
    simp only [checkShape, shape, bind_eq_ok, located_eq_ok] at shaped
    obtain ⟨_, parents, -⟩ := shaped
    refine ⟨bounds, fun f own => ?_, fun t own => ?_, fun body' same c own => ?_, fun m own => ?_⟩
    · simp only [Decl.fields, shape] at own
      exact resolves_of_checkKnown (located_eq_ok.1 (forM_eq_ok_iff.1 fields f own))
    · simp only [Decl.parents, shape] at own
      exact resolves_of_checkClass parents t own
    · cases shape.symm.trans same
      exact resolves_of_checkParams (located_eq_ok.1 (forM_eq_ok_iff.1 constructors c own))
    · simp only [Decl.methods, shape] at own
      exact known_of_checkMethod (located_eq_ok.1 (forM_eq_ok_iff.1 methods m own))

theorem complete_parents (d : Decl) : (complete d).parents = d.parents := by
  unfold complete
  split
  next shape =>
    split_ifs
    · simp [Decl.parents, shape]
    · rfl
  · rfl

theorem resolve_complete (program later : Program) (d : Decl) (params : List TypeParam) :
    ({ program := later, decl := complete d, typeParams := params } : Scope).resolve =
      ({ program, decl := d, typeParams := params } : Scope).resolve := by
  funext t
  exact @Scope.resolve_congr { program, decl := d, typeParams := params }
    { program := later, decl := complete d, typeParams := params } (complete_header d) rfl t

theorem Known.complete (known : Known program d) (later : Program) : Known later (complete d) := by
  obtain ⟨bounds, fields, parents, constructors, methods⟩ := known
  have same := resolve_complete program later d
  refine ⟨?_, ?_, ?_, fun body shape c own => ?_, fun m own => ?_⟩
  · rw [complete_header]
    simpa only [Scope.IsClass, Program.scopeOf, same] using bounds
  · rw [complete_fields]
    simpa only [Scope.Resolves, Program.scopeOf, same] using fields
  · rw [complete_parents]
    simpa only [Scope.Resolves, Program.scopeOf, same] using parents
  · simp only [Scope.Resolves, Program.scopeOf, same]
    unfold Review.complete at shape
    split at shape
    next declared =>
      split_ifs at shape with empty
      · cases shape
        rw [List.mem_singleton.1 own]
        simp [defaultConstructor]
      · exact constructors body shape c own
    next => exact constructors body shape c own
  · rw [complete_methods] at own
    obtain ⟨bounds, returns, params⟩ := methods m own
    constructor
    · simpa only [Scope.IsClass, Program.scopeIn, Program.scopeOf, same] using bounds
    · simpa only [Scope.Resolves, Program.scopeIn, Program.scopeOf, same] using returns
    · simpa only [Scope.Resolves, Program.scopeIn, Program.scopeOf, same] using params

theorem Known.grounded (known : Known program d) : (program.scopeOf d).Grounded :=
  ⟨by simp [Program.scopeOf], known.bounds⟩

theorem Known.grounded_in (known : Known program d) {m : Method} (own : m ∈ d.methods) :
    (program.scopeIn d m).Grounded :=
  ⟨(known.methods m own).bounds, known.bounds⟩

end Review

namespace Program

variable {raw program : Program} {d : Decl}

theorem known_of_review (reviewed : raw.review = .ok program) (declared : d ∈ program) : Review.Known program d := by
  simp only [review, bind_eq_ok, pure_eq_ok] at reviewed
  obtain ⟨_, checked, rfl⟩ := reviewed
  obtain ⟨e, member, rfl⟩ := List.mem_map.1 declared
  exact (Review.known_of_check (forM_eq_ok_iff.1 checked e member)).complete _

-- After the review, a type that is no type parameter of a method is erased in the method as it is in the
-- declaration, with one exception: when the type stands for a type parameter of the declaration and the method
-- has a type parameter with the name of its first bound, it is erased to what that one is erased to.
theorem descriptor_in_method (reviewed : raw.review = .ok program) (declared : d ∈ program) {m : Method}
    (own : m ∈ d.methods) {t : TypeName} (free : ∀ p ∈ m.typeParams, p.name ≠ t.base) :
    (program.scopeIn d m).descriptor t =
      match (program.scopeIn d m).captor? t with
      | none => (program.scopeOf d).descriptor t
      | some q => (program.scopeIn d m).descriptor { t with base := q.name } := by
  have grounded := (known_of_review reviewed declared).grounded_in own
  refine grounded.descriptor_eq (List.find?_eq_none.2 fun p member => ?_)
  simpa using free p member

theorem descriptor_in_method_captured : ∃ raw program d m,
    parse ⟨"F.k"⟩ ("\n".intercalate ["class Box<T : Comparable> \x7b", "T first", "public <Comparable> T put(T x) \x7b",
      "return x", "\x7d", "\x7d"]) = .ok raw ∧
      raw.review = .ok program ∧ d ∈ program ∧ m ∈ d.methods ∧ (∀ p ∈ m.typeParams, p.name ≠ "T") ∧
      (program.scopeIn d m).descriptor (.plain "T") = .ok .object ∧
      (program.scopeOf d).descriptor (.plain "T") = .ok (.ofClass "java/lang/Comparable") := by
  generalize written : "\n".intercalate _ = source
  have run : (((parse ⟨"F.k"⟩ source).toOption.bind (·.review.toOption)).bind fun program =>
        program.head?.bind fun d => d.methods.head?.map fun m =>
          (m.typeParams.map (·.name), ((program.scopeIn d m).captor? (.plain "T")).map (·.name),
            ((program.scopeIn d m).descriptor (.plain "Comparable")).toOption,
            ((program.scopeOf d).descriptor (.plain "T")).toOption)) =
      some (["Comparable"], some "Comparable", some .object, some (.ofClass "java/lang/Comparable")) := by
    rw [← written]
    decide +kernel
  simp only [Option.bind_eq_some_iff, Option.map_eq_some_iff, Prod.mk.injEq, toOption_eq_some] at run
  obtain ⟨program, ⟨raw, parsed, reviewed⟩, d, first, m, own, names, ⟨q, captor, same⟩, inside, outside⟩ := run
  have declared := List.mem_of_head? first
  have own := List.mem_of_head? own
  have free : ∀ p ∈ m.typeParams, p.name ≠ "T" := by
    intro p member
    have among : p.name ∈ ["Comparable"] := names ▸ List.mem_map_of_mem member
    rw [List.mem_singleton.1 among]
    decide
  refine ⟨raw, program, d, m, parsed, reviewed, declared, own, free, ?_, outside⟩
  rw [descriptor_in_method reviewed declared own free, captor, ← inside]
  exact congrArg (fun base => (program.scopeIn d m).descriptor { dims := 0, base }) same

end Program

end ClassForge
