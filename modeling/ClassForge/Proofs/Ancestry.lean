import ClassForge.Proofs.LeafTyping

set_option autoImplicit false

namespace ClassForge

namespace Descriptor

theorem eq_ofClass {d : Descriptor} {name : String} (h : d.className? = some name) : d = ofClass name := by
  obtain ⟨text⟩ := d
  unfold className? at h
  split at h
  next cs spelled =>
    split_ifs at h with closed
    cases h
    have whole := List.dropLast_append_getLast? ';' closed
    congr
    apply String.toList_inj.1
    simp [spelled, whole]
  next => cases h

@[simp]
theorem isReference_ofClass (name : String) : (ofClass name).isReference = true := by
  simp [isReference, ofClass]

theorem not_reference_of_widensTo {source target : Descriptor} (h : source.widensTo target = true) :
    source.kind ≠ .reference ∧ target.kind ≠ .reference := by
  have numeric {d : Descriptor} (h : d.isNumeric = true) : d.kind ≠ .reference := by
    have := isNumeric_kind h
    intro same
    simp [same, Kind.isNumeric] at this
  exact (widensTo_numeric h).imp numeric numeric

theorem widensTo_trans {a b c : Descriptor} (first : a.widensTo b = true) (second : b.widensTo c = true) :
    a.widensTo c = true := by
  have all : ∀ a ∈ [byte, short, char, int, long, float, double], ∀ b ∈ [byte, short, char, int, long, float, double],
      ∀ c ∈ [byte, short, char, int, long, float, double], a.widensTo b = true → b.widensTo c = true →
        a.widensTo c = true := by
    decide
  obtain ⟨l, m⟩ := widensTo_numeric first
  exact all a (of_decide_eq_true l) b (of_decide_eq_true m) c (of_decide_eq_true (widensTo_numeric second).2)
    first second

end Descriptor

namespace Program

variable {program : Program} {seen level : List String} {c lower upper : String}

-- The first class leads to the second one over any number of direct supertypes.
def Reaches (program : Program) : String → String → Prop :=
  Relation.ReflTransGen fun lower upper => upper ∈ program.supertypesOf lower

def fresh (seen : List String) : List String → List String
  | [] => []
  | c :: rest => if c ∈ seen then fresh seen rest else c :: fresh (seen ++ [c]) rest

-- What is seen after so many levels: all of one level comes before what lies directly above it.
def levels (program : Program) : Nat → (seen level : List String) → List String
  | 0, seen, _ => seen
  | n + 1, seen, level =>
    levels program n (seen ++ fresh seen level) ((fresh seen level).flatMap program.supertypesOf)

theorem mem_fresh : c ∈ fresh seen level ↔ c ∈ level ∧ c ∉ seen := by
  induction level generalizing seen with
  | nil => simp [fresh]
  | cons first rest ih =>
    unfold fresh
    split_ifs with old
    · rw [ih, List.mem_cons]
      grind
    · rw [List.mem_cons, ih, List.mem_cons]
      grind

theorem visit_level (program : Program) (fuel : Nat) (seen level queue : List String) :
    program.visit (level.length + fuel) seen (level ++ queue) =
      program.visit fuel (seen ++ fresh seen level) (queue ++ (fresh seen level).flatMap program.supertypesOf) := by
  induction level generalizing seen queue with
  | nil => simp [fresh]
  | cons first rest ih =>
    rw [List.length_cons, Nat.succ_add, List.cons_append, visit, fresh]
    split_ifs
    · exact ih seen queue
    · rw [List.append_assoc, ih]
      simp

def unseen (weight : Decl → Nat) (seen : List String) (program : Program) : Nat :=
  ((program.filter (·.internalName ∉ seen)).map weight).sum

theorem unseen_append (weight : Decl → Nat) (new : c ∉ seen) (program : Program) :
    ((program.findInternal? c).map weight).getD 0 + program.unseen weight (seen ++ [c]) ≤
      program.unseen weight seen := by
  induction program with
  | nil => simp [unseen, findInternal?]
  | cons d rest ih =>
    simp only [unseen, findInternal?, List.filter_cons, List.find?_cons] at ih ⊢
    by_cases same : d.internalName = c
    · simp [same, new] at ih ⊢
      omega
    · by_cases old : d.internalName ∈ seen <;> simp [same, old] at ih ⊢ <;> omega

theorem unseen_level (program : Program) (seen level : List String) :
    ((fresh seen level).flatMap program.supertypesOf).length +
        program.unseen (fun d => (program.supertypes d).length) (seen ++ fresh seen level) ≤
      program.unseen (fun d => (program.supertypes d).length) seen := by
  induction level generalizing seen with
  | nil => simp [fresh]
  | cons c rest ih =>
    unfold fresh
    split_ifs with old
    · exact ih seen
    · have step := unseen_append (fun d => (program.supertypes d).length) old program
      have named : (program.supertypesOf c).length =
          ((program.findInternal? c).map fun d => (program.supertypes d).length).getD 0 := by
        unfold supertypesOf
        cases program.findInternal? c <;> rfl
      have next := ih (seen ++ [c])
      rw [List.append_assoc, List.singleton_append] at next
      rw [List.flatMap_cons, List.length_append]
      omega

theorem Reaches.border {inside border : List String}
    (closed : ∀ c ∈ inside, ∀ parent ∈ program.supertypesOf c, parent ∈ inside ∨ parent ∈ border)
    (reaches : program.Reaches lower upper) (start : lower ∈ inside) :
    upper ∈ inside ∨ ∃ c ∈ border, program.Reaches c upper := by
  induction reaches using Relation.ReflTransGen.head_induction_on with
  | refl => exact .inl start
  | head parent rest ih =>
    rcases closed _ start _ parent with stays | leaves
    · exact ih stays
    · exact .inr ⟨_, leaves, rest⟩

theorem visit_eq_levels {fuel : Nat}
    (enough : level.length + program.unseen (fun d => (program.supertypes d).length) seen ≤ fuel)
    (closed : ∀ c ∈ seen, ∀ parent ∈ program.supertypesOf c, parent ∈ seen ∨ parent ∈ level) :
    (∃ n, program.visit fuel seen level = program.levels n seen level) ∧
      ∀ c, c ∈ program.visit fuel seen level ↔ c ∈ seen ∨ ∃ start ∈ level, program.Reaches start c := by
  induction fuel using Nat.strong_induction_on generalizing seen level with
  | _ fuel ih =>
    cases level with
    | nil => exact ⟨⟨0, by cases fuel <;> rfl⟩, fun c => by cases fuel <;> simp [visit]⟩
    | cons first rest =>
      obtain ⟨fuel, rfl⟩ := Nat.exists_eq_add_of_le (Nat.le_trans (Nat.le_add_right _ _) enough)
      have once := visit_level program fuel seen (first :: rest) []
      rw [List.append_nil, List.nil_append] at once
      have cost := unseen_level program seen (first :: rest)
      have kept (c : String) (member : c ∈ first :: rest) : c ∈ seen ++ fresh seen (first :: rest) := by
        by_cases old : c ∈ seen
        · exact List.mem_append_left _ old
        · exact List.mem_append_right _ (mem_fresh.2 ⟨member, old⟩)
      have closed' : ∀ c ∈ seen ++ fresh seen (first :: rest), ∀ parent ∈ program.supertypesOf c,
          parent ∈ seen ++ fresh seen (first :: rest) ∨
            parent ∈ (fresh seen (first :: rest)).flatMap program.supertypesOf := by
        intro c member parent above
        rcases List.mem_append.1 member with old | new
        · exact .inl ((closed c old parent above).elim (List.mem_append_left _) (kept parent))
        · exact .inr (List.mem_flatMap.2 ⟨c, new, above⟩)
      obtain ⟨⟨n, same⟩, members⟩ := ih fuel (by simp) (by omega) closed'
      rw [once]
      refine ⟨⟨n + 1, same⟩, fun c => ?_⟩
      rw [members]
      constructor
      · rintro (member | ⟨start, above, reaches⟩)
        · exact (List.mem_append.1 member).imp_right fun new => ⟨c, (mem_fresh.1 new).1, .refl⟩
        · obtain ⟨child, new, parent⟩ := List.mem_flatMap.1 above
          exact .inr ⟨child, (mem_fresh.1 new).1, .head parent reaches⟩
      · rintro (old | ⟨start, member, reaches⟩)
        · exact .inl (List.mem_append_left _ old)
        · exact reaches.border closed' (kept start member)

theorem ancestors_spec (owner : String) :
    (∃ n, program.ancestors owner = program.levels n [] [owner]) ∧
      ∀ c, c ∈ program.ancestors owner ↔ program.Reaches owner c := by
  have total (ds : List Decl) (f : Decl → Nat) : ds.foldr (fun d n => f d + n) 1 = 1 + (ds.map f).sum := by
    induction ds with
    | nil => rfl
    | cons d ds ih =>
      rw [List.foldr_cons, ih, List.map_cons, List.sum_cons]
      omega
  have visited := @visit_eq_levels program [] [owner]
    (program.foldr (fun d n => (program.supertypes d).length + n) 1) (by rw [total]; simp [unseen]) (by simp)
  exact ⟨visited.1, fun c => (visited.2 c).trans (by simp)⟩

theorem isSubclass_iff :
    program.isSubclass lower upper = true ↔ upper = "java/lang/Object" ∨ program.Reaches lower upper := by
  have known := ((ancestors_spec lower).2 upper : upper ∈ program.ancestors lower ↔ _)
  simp only [isSubclass, Bool.or_eq_true, decide_eq_true_eq, known]
  constructor
  · rintro ((rfl | isRoot) | reaches)
    · exact .inr .refl
    · exact .inl isRoot
    · exact .inr reaches
  · rintro (isRoot | reaches)
    · exact .inl (.inr isRoot)
    · exact .inr reaches

def Assigns (program : Program) (source target : Descriptor) : Prop :=
  ∃ opcodes, program.coercion? source target = some (.convert opcodes)

inductive Assignable (program : Program) : Descriptor → Descriptor → Prop
  | same (d : Descriptor) : Assignable program d d
  | widened {source target : Descriptor} (widens : source.widensTo target = true) : Assignable program source target
  | null {target : Descriptor} (isReference : target.isReference = true) : Assignable program .null target
  | root {source : Descriptor} (isReference : source.isReference = true) : Assignable program source .object
  | above {lower upper : String} (other : Descriptor.ofClass lower ≠ .object)
      (reaches : program.Reaches lower upper) : Assignable program (.ofClass lower) (.ofClass upper)

theorem assigns_iff {source target : Descriptor} :
    program.Assigns source target ↔ program.Assignable source target := by
  constructor
  · rintro ⟨opcodes, h⟩
    unfold coercion? at h
    split at h
    next widening =>
      unfold Descriptor.widening? at widening
      split_ifs at widening with isSame widens
      · exact isSame ▸ .same source
      · exact .widened widens
    next =>
      split_ifs at h with isReference free isObject
      · rcases free with rfl | ⟨rfl, isReference'⟩
        · exact .null isReference
        · exact .root isReference'
      · cases h
      · split at h
        next lower upper isLower isUpper =>
          split_ifs at h with subclass
          rw [Descriptor.eq_ofClass isLower] at isObject ⊢
          rw [Descriptor.eq_ofClass isUpper]
          rcases isSubclass_iff.1 subclass with rfl | reaches
          · exact .root (Descriptor.isReference_ofClass lower)
          · exact .above isObject reaches
        next => cases h
  · intro h
    unfold Assigns coercion?
    cases widening : source.widening? target with
    | some opcodes => exact ⟨opcodes, rfl⟩
    | none =>
      refine ⟨[], ?_⟩
      cases h with
      | same => simp [Descriptor.widening?] at widening
      | widened widens =>
        unfold Descriptor.widening? at widening
        split_ifs at widening
      | null isReference => simp [isReference]
      | root isReference => simp [isReference, Descriptor.object]
      | @above lower upper other reaches =>
        have subclass : program.isSubclass lower upper = true := isSubclass_iff.2 (.inr reaches)
        simp [other, Descriptor.className_ofClass, subclass]

theorem Assignable.trans {source mid target : Descriptor} (first : program.Assignable source mid)
    (second : program.Assignable mid target) : program.Assignable source target := by
  -- Numbers widen only to numbers, so the two halves are both about numbers or both about references.
  have apart {d : Descriptor} (isReference : d.isReference = true) (number : d.kind ≠ .reference) : False :=
    number (Descriptor.kind_of_isReference isReference)
  cases first with
  | same => exact second
  | widened widens =>
    cases second with
    | same => exact .widened widens
    | widened widens' => exact .widened (Descriptor.widensTo_trans widens widens')
    | null => exact absurd (by decide) (Descriptor.not_reference_of_widensTo widens).2
    | root isReference => exact (apart isReference (Descriptor.not_reference_of_widensTo widens).2).elim
    | above => exact (apart (by simp) (Descriptor.not_reference_of_widensTo widens).2).elim
  | null isReference =>
    cases second with
    | same => exact .null isReference
    | widened widens' => exact (apart isReference (Descriptor.not_reference_of_widensTo widens').1).elim
    | null isReference' => exact .null isReference'
    | root => exact .null (by decide)
    | above => exact .null (by simp)
  | root isReference =>
    generalize whole : Descriptor.object = mid at second
    cases second with
    | same => exact whole ▸ .root isReference
    | widened widens' => exact (apart (whole ▸ by decide) (Descriptor.not_reference_of_widensTo widens').1).elim
    | null => exact absurd whole (by decide)
    | root => exact .root isReference
    | above other => exact absurd whole.symm other
  | @above lower upper other reaches =>
    generalize whole : Descriptor.ofClass upper = mid at second
    cases second with
    | same => exact whole ▸ .above other reaches
    | widened widens' => exact (apart (whole ▸ by simp) (Descriptor.not_reference_of_widensTo widens').1).elim
    | null => exact absurd (congrArg Descriptor.isReference whole) (by simp; decide)
    | root => exact .root (by simp)
    | above _ reaches' =>
      have same := congrArg Descriptor.className? whole
      simp only [Descriptor.className_ofClass, Option.some.injEq] at same
      exact .above other (reaches.trans (same ▸ reaches'))

theorem assigns_preorder (program : Program) :
    (∀ lower upper, program.isSubclass lower upper = true ↔
        upper = "java/lang/Object" ∨ program.Reaches lower upper) ∧
      (∀ d, program.Assigns d d) ∧
      ∀ a b c, program.Assigns a b → program.Assigns b c → program.Assigns a c := by
  refine ⟨fun _ _ => isSubclass_iff, fun d => assigns_iff.2 (.same d), fun a b c first second => ?_⟩
  exact assigns_iff.2 ((assigns_iff.1 first).trans (assigns_iff.1 second))

def Takes (program : Program) (arguments : List Descriptor) (m : MethodTarget) : Prop :=
  m.params = arguments ∨ List.Forall₂ program.Assigns arguments m.params

def Declares (program : Program) (c name : String) (before : List MethodTarget) (m : MethodTarget)
    (after : List MethodTarget) : Prop :=
  ∃ d, program.findInternal? c = some d ∧ program.ownMethods d name = .ok (before ++ m :: after)

def Offers (program : Program) (name : String) (arguments : List Descriptor) (c : String) : Prop :=
  ∃ before m after, program.Declares c name before m after ∧ program.Takes arguments m

-- The method is the first one of the class whose parameters are the arguments, or the first one that takes them
-- where none has just those.
def Prefers (program : Program) (name : String) (arguments : List Descriptor) (c : String) (m : MethodTarget) : Prop :=
  ∃ before after, program.Declares c name before m after ∧
    (m.params = arguments ∧ (∀ other ∈ before, other.params ≠ arguments) ∨
      program.Takes arguments m ∧ (∀ other ∈ before ++ m :: after, other.params ≠ arguments) ∧
        ∀ other ∈ before, ¬ program.Takes arguments other)

-- The first class in the list that has a method for the arguments gives its preferred one.
def Nearest (program : Program) (name : String) (arguments : List Descriptor) (classes : List String) :
    Option MethodTarget → Prop
  | none => ∀ c ∈ classes, ¬ program.Offers name arguments c
  | some m => ∃ before c after, classes = before ++ c :: after ∧ program.Prefers name arguments c m ∧
      ∀ other ∈ before, ¬ program.Offers name arguments other

section Selection

variable {arguments : List Descriptor} {candidates : List MethodTarget} {m : MethodTarget} {name : String}
  {classes : List String}

theorem accepts_iff {params : List Descriptor} :
    program.accepts params arguments = true ↔ List.Forall₂ program.Assigns arguments params := by
  simp only [accepts, Bool.and_eq_true, decide_eq_true_eq, List.all_eq_true, List.forall₂_iff_zip, Prod.forall]
  refine and_congr eq_comm (forall₂_congr fun argument param => imp_congr_right fun _ => ?_)
  unfold Assigns
  split <;> simp_all

theorem select_eq_none :
    program.select? MethodTarget.params candidates arguments = none ↔
      ∀ m ∈ candidates, ¬ program.Takes arguments m := by
  simp [select?, Takes, accepts_iff, not_or, forall_and]

theorem prefers_of_select {d : Decl} (found : program.findInternal? c = some d)
    (own : program.ownMethods d name = .ok candidates)
    (selected : program.select? MethodTarget.params candidates arguments = some m) :
    program.Prefers name arguments c m := by
  rcases Option.or_eq_some_iff.1 selected with same | ⟨none, accepted⟩
  · obtain ⟨isSame, before, after, rfl, earlier⟩ := List.find?_eq_some_iff_append.1 same
    exact ⟨before, after, ⟨d, found, own⟩, .inl ⟨by simpa using isSame, by simpa using earlier⟩⟩
  · obtain ⟨accepts, before, after, rfl, earlier⟩ := List.find?_eq_some_iff_append.1 accepted
    have other (m' : MethodTarget) (member : m' ∈ before ++ m :: after) : m'.params ≠ arguments := by
      simpa using List.find?_eq_none.1 none m' member
    refine ⟨before, after, ⟨d, found, own⟩, .inr ⟨.inr (accepts_iff.1 accepts), other, ?_⟩⟩
    rintro m' member (isSame | taken)
    · exact other m' (List.mem_append_left _ member) isSame
    · have := earlier m' member
      simp [accepts_iff.2 taken] at this

theorem Prefers.offers (h : program.Prefers name arguments c m) : program.Offers name arguments c := by
  obtain ⟨before, after, declares, ⟨same, -⟩ | ⟨takes, -⟩⟩ := h
  · exact ⟨before, m, after, declares, .inl same⟩
  · exact ⟨before, m, after, declares, takes⟩

theorem Nearest.cons {result : Option MethodTarget} (nothing : ¬ program.Offers name arguments c)
    (h : program.Nearest name arguments classes result) : program.Nearest name arguments (c :: classes) result := by
  cases result with
  | none => exact List.forall_mem_cons.2 ⟨nothing, h⟩
  | some m =>
    obtain ⟨before, c', after, rfl, prefers, earlier⟩ := h
    exact ⟨c :: before, c', after, rfl, prefers, List.forall_mem_cons.2 ⟨nothing, earlier⟩⟩

theorem searchMethod_nearest
    (described : ∀ c ∈ classes, ∀ d, program.findInternal? c = some d → ∃ ms, program.ownMethods d name = .ok ms) :
    ∃ result, program.searchMethod name arguments classes = .ok result ∧
      program.Nearest name arguments classes result := by
  induction classes with
  | nil => exact ⟨none, rfl, by simp [Nearest]⟩
  | cons first rest ih =>
    obtain ⟨later, searched, nearest⟩ := ih fun c member => described c (List.mem_cons_of_mem _ member)
    cases found : program.findInternal? first with
    | none =>
      refine ⟨later, by simpa [searchMethod, found] using searched, nearest.cons ?_⟩
      rintro ⟨_, _, _, ⟨d, found', -⟩, -⟩
      simp [found] at found'
    | some d =>
      obtain ⟨ms, own⟩ := described first List.mem_cons_self d found
      cases selected : program.select? MethodTarget.params ms arguments with
      | none =>
        refine ⟨later, by simpa [searchMethod, found, own, selected] using searched, nearest.cons ?_⟩
        rintro ⟨before, m, after, ⟨d', found', own'⟩, takes⟩
        obtain rfl : d = d' := by simpa [found] using found'
        obtain rfl : ms = _ := by simpa [own] using own'
        exact select_eq_none.1 selected m (by simp) takes
      | some m =>
        exact ⟨some m, by simp [searchMethod, found, own, selected], [], first, rest, rfl,
          prefers_of_select found own selected, by simp⟩

end Selection

theorem findMethod_nearest {owner name : String} (arguments : List Descriptor)
    (described : ∀ c d, program.Reaches owner c → program.findInternal? c = some d →
      ∃ ms, program.ownMethods d name = .ok ms) :
    ∃ result, program.findMethod owner name arguments = .ok result ∧
      (result.isSome = true ↔ ∃ c, program.Reaches owner c ∧ program.Offers name arguments c) ∧
      ∃ n, (∀ c, c ∈ program.levels n [] [owner] ↔ program.Reaches owner c) ∧
        program.Nearest name arguments (program.levels n [] [owner]) result := by
  obtain ⟨⟨n, byLevel⟩, reached⟩ := @ancestors_spec program owner
  obtain ⟨result, found, nearest⟩ := @searchMethod_nearest program arguments name (program.ancestors owner)
    fun c member d => described c d ((reached c).1 member)
  refine ⟨result, found, ?_, n, byLevel ▸ reached, byLevel ▸ nearest⟩
  cases result with
  | none =>
    refine ⟨by simp, ?_⟩
    rintro ⟨c, reaches, offers⟩
    exact (nearest c ((reached c).2 reaches) offers).elim
  | some m =>
    obtain ⟨before, c, after, split, prefers, -⟩ := nearest
    exact ⟨fun _ => ⟨c, (reached c).1 (by simp [split]), prefers.offers⟩, by simp⟩

theorem findMethod_nearest_circle : ∃ raw program m n,
    parse ⟨"F.k"⟩ ("\n".intercalate ["class A extends B \x7b", "\x7d", "class B extends A \x7b",
      "void f(double x) \x7b", "\x7d", "void f(long x) \x7b", "\x7d", "\x7d"]) = .ok raw ∧
      raw.review = .ok program ∧ program.findMethod "F/A" "f" [.long] = .ok (some m) ∧ m.params = [.long] ∧
      program.Nearest "f" [.long] (program.levels n [] ["F/A"]) (some m) := by
  generalize written : "\n".intercalate _ = source
  have run : (((parse ⟨"F.k"⟩ source).toOption.bind (·.review.toOption)).bind fun program =>
      (program.findMethod "F/A" "f" [.long]).toOption.bind fun found => found.map fun m =>
        decide (m.params = [.long] ∧ ∀ d ∈ program, (program.ownMethods d "f").toOption.isSome)) = some true := by
    rw [← written]
    decide +kernel
  simp only [Option.bind_eq_some_iff, Option.map_eq_some_iff, toOption_eq_some, decide_eq_true_eq,
    Option.isSome_iff_exists] at run
  obtain ⟨program, ⟨raw, parsed, reviewed⟩, _, found, m, rfl, exactly, described⟩ := run
  obtain ⟨result, found', -, n, -, nearest⟩ := findMethod_nearest [.long]
    fun c d (_ : program.Reaches "F/A" c) declared => described d (mem_of_findInternal declared)
  cases found.symm.trans found'
  exact ⟨raw, program, m, n, parsed, reviewed, found, exactly, nearest⟩

end Program

end ClassForge
