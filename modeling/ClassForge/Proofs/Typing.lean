import ClassForge.Proofs.ExprGrowth
import ClassForge.Proofs.Signatures

set_option autoImplicit false

namespace ClassForge

variable {ctx : Context} {expected : Option Descriptor}

variable {d : Descriptor}

theorem Operand.typeIn_array {elements : List Expr} (h : (Operand.array elements).typeIn ctx expected = .ok d) :
    (expected = some d ∧ d.element?.isSome = true) ∨
      ∃ first rest e, elements = first :: rest ∧ first.typeIn ctx none = .ok e ∧
        Descriptor.literalArray e = .ok d := by
  rw [Operand.typeIn.eq_def] at h
  dsimp only at h
  split at h
  next wanted =>
    cases h
    exact .inl (by simpa [expectedArray?, Option.filter_eq_some_iff] using wanted)
  next => cases h
  next first rest _ =>
    simp only [bind_eq_ok] at h
    obtain ⟨e, typed, h⟩ := h
    exact .inr ⟨first, rest, e, rfl, typed, h⟩

variable {operator : UnaryOp} {op : BinaryOp} {t : Token} {name : String}

structure Site.IsReviewed (site : Site) : Prop where
  checked : ∀ d ∈ site.program, Review.Checked site.program d
  plain : ∀ d ∈ site.program, IsPlain d.internalName
  own : site.scope.decl ∈ site.program
  params : ∀ p ∈ site.scope.typeParams, p.IsBounded

def Descriptor.IsSane (d : Descriptor) : Prop :=
  d = .null ∨ d.Proper IsPlain

namespace Scope

variable {scope : Scope}

theorem isPlain_internalName (uses : scope.UsesNamed IsPlain) (bounded : scope.IsBounded) {base : String}
    (h : scope.internalName (.plain base) = .ok name) : IsPlain name := by
  have none {dims : Nat} (flat : dims = 0) (text : String) : brackets dims ++ text = text := by simp [brackets, flat]
  have plain {t : TypeName} {d : Descriptor} (flat : t.dims = 0) (erases : scope.Erases t d) :
      IsPlain (d.className?.getD d.text) := by
    induction erases with
    | @primitive _ _ p resolved =>
      rw [none ((resolve_known resolved).1.trans flat)]
      cases p <;> decide
    | named resolved =>
      rw [none ((resolve_known resolved).1.trans flat)]
      change IsPlain ((Descriptor.ofClass _).className?.getD _)
      rw [Descriptor.className_ofClass]
      exact uses _ _ (resolve_known resolved).2.2.2
    | unbounded resolved =>
      rw [none ((resolve_known resolved).1.trans flat)]
      decide
    | bounded resolved _ ih =>
      rw [none ((resolve_known resolved).1.trans flat)]
      exact ih (resolve_bound bounded resolved).2
  simp only [internalName, bind_eq_ok, pure_eq_ok] at h
  obtain ⟨d, found, rfl⟩ := h
  exact plain rfl (erases_of_erase found)

end Scope

variable {type : Descriptor} {m : MethodTarget} {types : List Descriptor} {arguments : List Expr}

-- What is known of the names of classes, where they are declared and where they are used.
structure Program.IsNamed (program : Program) (named : String → Prop) : Prop where
  declared : ∀ d ∈ program, named d.internalName
  uses : ∀ d ∈ program, ∀ typeParams, ({ program, decl := d, typeParams } : Scope).UsesNamed named

namespace Program.IsNamed

variable {program : Program} {named : String → Prop} (wide : ∀ name, IsPlain name → named name)
  (names : program.IsNamed named)
include wide names

theorem typeIn {d : Decl} (member : d ∈ program) {typeParams : List TypeParam} {t : TypeName}
    (h : ({ program, decl := d, typeParams } : Scope).descriptor t = .ok type) : type.Proper named :=
  Scope.erase_proper (wide _ isPlain_object) (names.uses d member typeParams) h

theorem field {field : FieldTarget} (has : program.HasField field) : field.descriptor.Proper named := by
  obtain ⟨d, found, own⟩ := has
  have member := Program.mem_of_findInternal found
  obtain ⟨-, -, ⟨_, -, -, self, -⟩ | ⟨f, -, -, typed, -⟩⟩ := Program.ownField_found own
  · exact self ▸ .ofClass (names.declared d member)
  · exact names.typeIn wide member typed

theorem method (inner : ∀ name, named name → IsInner name) (has : program.HasMethod m) :
    (∀ p ∈ m.params, p.Valued named) ∧ m.returns.Proper named := by
  obtain ⟨d, ms, found, own, among⟩ := has
  have member := Program.mem_of_findInternal found
  obtain ⟨⟨-, -, split, -⟩, origin⟩ := Program.ownMethods_found own among
  have self : (Descriptor.ofClass d.internalName).Proper named := .ofClass (names.declared d member)
  have of {params : List Descriptor} {returns : Descriptor} (same : m.descriptor = .of params returns)
      (proper : ∀ p ∈ params, p.Proper named) (result : returns.Proper named) :
      (∀ p ∈ m.params, p.Valued named) ∧ m.returns.Proper named := by
    rw [same] at split
    have valued := MethodDescriptor.valued_of_split inner proper (by rw [split]; rfl)
    rw [MethodDescriptor.split_valued inner valued] at split
    obtain ⟨rfl, rfl⟩ := Prod.mk.inj (Option.some_inj.1 split)
    exact ⟨valued, result⟩
  rcases origin with ⟨m', -, -, -, -, typed⟩ | ⟨values, -, -, known⟩ |
    ⟨components, f, returns, -, -, -, typed, descriptor, -, -⟩
  · simp only [Scope.methodDescriptor, bind_eq_ok, pure_eq_ok] at typed
    obtain ⟨types, typed, result, returned, same⟩ := typed
    refine of same.symm (fun p among => ?_) ?_
    · obtain ⟨param, -, typed⟩ := exists_of_mapM_eq_ok typed among
      exact names.typeIn wide member typed
    · cases returns : m'.returns with
      | none =>
        rw [returns] at returned
        exact Except.ok.inj returned ▸ .ofPrimitive .void
      | some t =>
        rw [returns] at returned
        exact names.typeIn wide member returned
  · unfold MethodTarget.ofEnumeration? at known
    split at known
    case h_5 => cases known
    all_goals simp only [Option.some_inj, Prod.mk.injEq] at known
    · exact of known.1.symm (by simp) (.arrayOf self)
    · exact of known.1.symm (by simpa using .ofClass (wide _ (by decide))) self
    · exact of known.1.symm (by simp) (.ofClass (wide _ (by decide)))
    · exact of known.1.symm (by simp) (.ofPrimitive .int)
  · exact of descriptor (by simp) (names.typeIn wide member typed)

end Program.IsNamed

namespace Site.IsReviewed

variable {site : Site}

variable (reviewed : site.IsReviewed)
include reviewed

theorem isNamed : site.program.IsNamed IsPlain :=
  ⟨reviewed.plain, fun d member => Program.usesNamed_of_checked (reviewed.checked d member) reviewed.plain⟩

theorem field {field : FieldTarget} (has : site.program.HasField field) : field.descriptor.Proper IsPlain :=
  reviewed.isNamed.field (fun _ => id) has

theorem method (has : site.program.HasMethod m) : (∀ p ∈ m.params, p.Valued IsPlain) ∧ m.returns.Proper IsPlain :=
  reviewed.isNamed.method (fun _ => id) (fun _ => IsPlain.isInner) has

theorem uses : site.scope.UsesNamed IsPlain :=
  reviewed.isNamed.uses _ reviewed.own site.scope.typeParams

theorem bounded : site.scope.IsBounded :=
  (reviewed.checked _ reviewed.own).isBounded reviewed.params

theorem descriptor {t : TypeName} (h : site.scope.descriptor t = .ok d) : d.Proper IsPlain :=
  Scope.erase_proper isPlain_object reviewed.uses h

theorem constructor {owner : String} {params : List Descriptor}
    {instantiates : Bool} (h : site.program.constructorFor owner types instantiates = .ok params) :
    (∀ p ∈ params, p.Valued IsPlain) ∨ params = types.map fun a => if a = .null then .object else a := by
  rcases (Program.constructorFor_found h).1 with unknown | ⟨d, candidates, found, known, among⟩
  · rw [Program.constructorFor, unknown] at h
    exact .inr (Except.ok.inj h).symm
  · left
    have member := Program.mem_of_findInternal found
    have checked := reviewed.checked d member
    intro p listed
    obtain ⟨t, typed, declared⟩ := Program.typed_of_constructorParams known among listed
    refine Scope.erase_valued isPlain_object (Program.usesNamed_of_checked checked reviewed.plain _)
      (checked.isBounded (by simp)) ?_ typed
    rcases declared with ⟨body, shape, c, declared, param, own, rfl⟩ | ⟨components, shape, f, own, rfl⟩
    · exact checked.constructors body shape c declared param own
    · exact checked.components components shape f own

end Site.IsReviewed

theorem Slots.mem_of_lookup {s : Slots} {b : Binding} (h : s.lookup? name = some b) : b ∈ s.bindings :=
  List.mem_of_find?_eq_some h

def Slots.IsSane (s : Slots) : Prop :=
  ∀ b ∈ s.bindings, ∀ d ∈ b.descriptor, d.Proper IsPlain

namespace Context

variable {ctx : Context}

theorem Reaches.proper {place : Place} (reviewed : ctx.toSite.IsReviewed) (slots : ctx.slots.IsSane)
    (reached : ctx.Reaches name place) : (ctx.descriptorOf place).Proper IsPlain := by
  cases reached with
  | this => exact .ofClass (reviewed.plain _ reviewed.own)
  | bound named found =>
    rename_i b
    rw [descriptorOf]
    cases typed : b.descriptor with
    | none => exact .ofClass isPlain_object
    | some d => exact slots b (Slots.mem_of_lookup found) d typed
  | staticField use | field reached isObject use => exact reviewed.field use.has
  | length => exact .ofPrimitive .int

end Context

mutual

def Expr.casts : Expr → List TypeName
  | .operand arg _ => arg.casts
  | .binary _ left right _ => left.casts ++ right.casts

def Operand.casts : Operand → List TypeName
  | .atom value _ => value.casts
  | .cast target inner => target :: inner.casts
  | .array elements => Expr.allCasts elements
  | .create _ arguments => Expr.allCasts arguments

def Atom.casts : Atom → List TypeName
  | .literal _ => []
  | .nested inner => inner.casts
  | .load _ links => Call.allCasts links

def Expr.allCasts : List Expr → List TypeName
  | [] => []
  | tree :: rest => tree.casts ++ Expr.allCasts rest

def Call.allCasts : List Call → List TypeName
  | [] => []
  | .call _ arguments :: rest => Expr.allCasts arguments ++ Call.allCasts rest

end

namespace Context

-- A property of types that the expressions in a context have, as far as their casts have it.
structure Closes (ctx : Context) (has : Descriptor → Prop) : Prop where
  null : has .null
  ofPrimitive : ∀ p, has (.ofPrimitive p)
  ofClass : ∀ name ∈ ["java/lang/String", "java/lang/Object"], has (.ofClass name)
  arrayOf : ∀ d : Descriptor, d ≠ .void → d ≠ .null → has d → has d.arrayOf
  create : ∀ base name, ctx.scope.internalName (.plain base) = .ok name → has (.ofClass name)
  place : ∀ name place, ctx.Reaches name place → has (ctx.descriptorOf place)
  method : ∀ m, ctx.program.HasMethod m → has m.returns

def Casts (ctx : Context) (has : Descriptor → Prop) (targets : List TypeName) : Prop :=
  ∀ t ∈ targets, ∀ d, ctx.scope.descriptor t = .ok d → has d

namespace Closes

variable {ctx : Context} {has : Descriptor → Prop} (closes : ctx.Closes has)
include closes

theorem promote {left right : Descriptor} (h : left.promote? right = some type) : has type := by
  rcases Descriptor.promote_cases h with rfl | rfl | rfl | rfl
  · exact closes.ofPrimitive .double
  · exact closes.ofPrimitive .float
  · exact closes.ofPrimitive .long
  · exact closes.ofPrimitive .int

theorem binaryResult {left right : Descriptor} (h : Descriptor.binaryResult op left right = .ok type) :
    has type := by
  unfold Descriptor.binaryResult at h
  split at h
  next found =>
    cases h
    unfold Descriptor.binaryResult? at found
    split at found <;> (try split_ifs at found) <;>
      first
        | exact closes.promote found
        | (cases found; exact closes.ofPrimitive .boolean)
        | (cases found; exact closes.ofClass _ (by simp))
  next => cases h

theorem unaryResult (h : d.unaryResult operator = .ok type) : has type := by
  cases Descriptor.unaryResult_computes h with
  | neg promoted => exact closes.promote promoted
  | not => exact closes.ofPrimitive .boolean
  | bitNot _ promoted => exact closes.promote promoted

theorem literalType {negated : Bool} (h : t.literalType negated = .ok d) : has d := by
  unfold Token.literalType at h
  split at h <;> (try split_ifs at h) <;> cases h
  · exact closes.ofPrimitive .int
  · exact closes.ofPrimitive .short
  · exact closes.ofPrimitive .long
  · exact closes.ofPrimitive .float
  · exact closes.ofPrimitive .double
  · exact closes.ofClass _ (by simp)
  · exact closes.ofPrimitive .char
  · exact closes.ofPrimitive .boolean
  · exact closes.null

theorem literalArray (own : has d) (h : d.literalArray = .ok type) : has type := by
  unfold Descriptor.literalArray at h
  split_ifs at h with isVoid isNull
  · cases h
    exact closes.arrayOf _ (by decide) (by decide) (closes.ofClass _ (by simp))
  · cases h
    exact closes.arrayOf d isVoid isNull own

end Closes

end Context

section

variable {ctx : Context} {has : Descriptor → Prop} (closes : ctx.Closes has)
include closes

set_option linter.unusedSectionVars false in
mutual

theorem Expr.typeIn_closed : (tree : Expr) → ctx.Casts has tree.casts → {expected : Option Descriptor} →
    {d : Descriptor} → (∀ e ∈ expected, has e) → tree.typeIn ctx expected = .ok d → has d
  | .operand arg _, casts, expected, d, wanted, h => by
    rw [Expr.casts] at casts
    rw [Expr.typeIn] at h
    exact Operand.typeIn_closed arg casts wanted h
  | .binary op left right _, casts, expected, d, wanted, h => by
    rw [Expr.typeIn] at h
    simp only [bind_eq_ok] at h
    obtain ⟨l, -, r, -, h⟩ := h
    exact closes.binaryResult h

theorem Operand.typeIn_closed : (arg : Operand) → ctx.Casts has arg.casts → {expected : Option Descriptor} →
    {d : Descriptor} → (∀ e ∈ expected, has e) → arg.typeIn ctx expected = .ok d → has d
  | .atom value none, casts, expected, d, wanted, h => by
    rw [Operand.casts] at casts
    rw [Operand.typeIn_atom] at h
    exact Atom.typeIn_closed value casts wanted h
  | .atom value (some operator), casts, expected, d, wanted, h => by
    rcases isNegated_or value operator with ⟨t, rfl, rfl⟩ | other
    · rw [Operand.typeIn] at h
      exact closes.literalType h
    · rw [Operand.typeIn_unary other] at h
      simp only [bind_eq_ok] at h
      obtain ⟨_, -, h⟩ := h
      exact closes.unaryResult h
  | .cast target _, casts, expected, d, wanted, h => by
    rw [Operand.casts] at casts
    rw [Operand.typeIn] at h
    exact casts target List.mem_cons_self d h
  | .array elements, casts, expected, d, wanted, h => by
    rcases Operand.typeIn_array h with ⟨asked, -⟩ | ⟨first, rest, e, rfl, typed, h⟩
    · exact wanted _ asked
    · simp only [Operand.casts, Expr.allCasts, Context.Casts, List.forall_mem_append] at casts
      exact closes.literalArray (Expr.typeIn_closed first casts.1 (by simp) typed) h
  | .create className _, casts, expected, d, wanted, h => by
    rw [Operand.typeIn] at h
    simp only [bind_eq_ok, pure_eq_ok] at h
    obtain ⟨name, named, rfl⟩ := h
    exact closes.create className name named

theorem Atom.typeIn_closed : (atom : Atom) → ctx.Casts has atom.casts → {expected : Option Descriptor} →
    {d : Descriptor} → (∀ e ∈ expected, has e) → atom.typeIn ctx expected = .ok d → has d
  | .literal t, casts, expected, d, wanted, h => by
    rw [Atom.typeIn] at h
    exact closes.literalType h
  | .nested inner, casts, expected, d, wanted, h => by
    rw [Atom.casts] at casts
    rw [Atom.typeIn] at h
    exact Expr.typeIn_closed inner casts wanted h
  | .load head links, casts, expected, d, wanted, h => by
    rw [Atom.typeIn] at h
    simp only [bind_eq_ok] at h
    obtain ⟨base, resolved, h⟩ := h
    cases links with
    | nil =>
      rcases base with _ | _ | place
      case some.value =>
        cases h
        exact closes.place _ place (Context.resolveHead_reached resolved)
      all_goals cases h
    | cons link rest =>
      simp only [bind_eq_ok, pure_eq_ok] at h
      obtain ⟨methods, found, rfl⟩ := h
      cases last : methods.getLast? with
      | none => exact closes.ofPrimitive .void
      | some m => exact closes.method m (Call.mayCall_of_methodsIn found m (List.mem_of_getLast? last)).has

end

theorem Expr.typesIn_closed
    (casts : ctx.Casts has (Expr.allCasts arguments)) (h : Expr.typesIn ctx arguments = .ok types) :
    ∀ d ∈ types, has d := by
  induction arguments generalizing types with
  | nil =>
    rw [Expr.typesIn] at h
    cases h
    simp
  | cons tree rest ih =>
    rw [Expr.typesIn] at h
    simp only [Expr.allCasts, Context.Casts, List.forall_mem_append] at casts
    simp only [bind_eq_ok, pure_eq_ok] at h
    obtain ⟨d, typed, ds, more, rfl⟩ := h
    exact List.forall_mem_cons.2 ⟨Expr.typeIn_closed closes tree casts.1 (by simp) typed, ih casts.2 more⟩

end

section

variable {ctx : Context} (reviewed : ctx.toSite.IsReviewed) (slots : ctx.slots.IsSane)
include reviewed slots

theorem Context.closes_sane : ctx.Closes Descriptor.IsSane where
  null := .inl rfl
  ofPrimitive p := .inr (.ofPrimitive p)
  ofClass name known := by
    refine .inr (.ofClass ?_)
    fin_cases known <;> decide
  arrayOf d _ isNull sane := .inr (.arrayOf (sane.resolve_left isNull))
  create base name named := .inr (.ofClass (Scope.isPlain_internalName reviewed.uses reviewed.bounded named))
  place _ _ reached := .inr (reached.proper reviewed slots)
  method m has := .inr (reviewed.method has).2

omit slots in
theorem Context.casts_sane (targets : List TypeName) : ctx.Casts Descriptor.IsSane targets :=
  fun _ _ _ h => .inr (reviewed.descriptor h)

theorem Expr.typesIn_sane (h : Expr.typesIn ctx arguments = .ok types) : ∀ d ∈ types, d.IsSane :=
  Expr.typesIn_closed (ctx.closes_sane reviewed slots) (ctx.casts_sane reviewed _) h

end

end ClassForge
