import ClassForge.Proofs.Descriptors
import ClassForge.Review

set_option autoImplicit false

namespace ClassForge

def TypeName.IsValued (t : TypeName) : Prop :=
  t.base ≠ Primitive.void.keyword

def TypeParam.IsBounded (p : TypeParam) : Prop :=
  ∀ b ∈ p.bounds, Primitive.ofKeyword? b.base = none ∧ b.dims = 0

theorem TypeRef.of_className {t : TypeRef} {qualified : String} (h : t.className? = some qualified) :
    t.dims = 0 ∧ t.base = .named qualified := by
  unfold className? at h
  split at h
  next =>
    cases h
    exact ⟨rfl, rfl⟩
  next => cases h

namespace Review

structure Checked (program : Program) (d : Decl) : Prop where
  uses : ∀ short qualified, d.uses.find? short = some qualified →
    (program.find? qualified).isSome ∨ (Platform.isInterface? qualified).isSome
  bounds : ∀ p ∈ d.typeParams, p.IsBounded
  constructors : ∀ body, d.shape = .plainClass body → ∀ c ∈ body.constructors, ∀ p ∈ c.params, p.type.IsValued
  methods : ∀ m ∈ d.methods, (∀ p ∈ m.typeParams, p.IsBounded) ∧ ∀ p ∈ m.params, p.type.IsValued
  components : ∀ fields, d.shape = .record fields → ∀ f ∈ fields, f.type.IsValued

variable {program : Program} {d : Decl} {scope : Scope}

theorem checkBounds_eq_ok {params : List TypeParam} (h : checkBounds scope params = .ok ()) :
    ∀ p ∈ params, p.IsBounded := by
  intro p member b bound
  have checked := forM_eq_ok_iff.1 (forM_eq_ok_iff.1 h p member) b bound
  simp only [checkBound, bind_eq_ok] at checked
  obtain ⟨ref, resolved, known⟩ := checked
  split at known
  next found =>
    obtain ⟨dims, named⟩ := TypeRef.of_className found
    obtain ⟨same, free⟩ := Scope.resolve_known resolved
    rw [named] at free
    exact ⟨free.1, same.symm.trans dims⟩
  next => cases known

theorem rejectVoid_eq_ok {what name : String} {t : TypeName} (h : rejectVoid what name t = .ok ()) : t.IsValued := by
  unfold rejectVoid at h
  split_ifs at h with isVoid
  exact isVoid

theorem checkParams_eq_ok {params : List Param} (h : params.forM (checkParam scope) = .ok ()) :
    ∀ p ∈ params, p.type.IsValued := by
  intro p member
  have checked := forM_eq_ok_iff.1 h p member
  simp only [checkParam, bind_eq_ok] at checked
  obtain ⟨_, valued, -⟩ := checked
  exact rejectVoid_eq_ok valued

theorem checkMethod_eq_ok {m : Method} (h : checkMethod scope m = .ok ()) :
    (∀ p ∈ m.typeParams, p.IsBounded) ∧ ∀ p ∈ m.params, p.type.IsValued := by
  simp only [checkMethod, bind_eq_ok] at h
  obtain ⟨_, bounds, _, -, params⟩ := h
  exact ⟨checkBounds_eq_ok bounds, checkParams_eq_ok params⟩

theorem checkUses_eq_ok (h : checkUses program d = .ok ()) {short qualified : String}
    (used : d.uses.find? short = some qualified) :
    (program.find? qualified).isSome ∨ (Platform.isInterface? qualified).isSome := by
  simp only [checkUses, bind_eq_ok] at h
  obtain ⟨_, -, h⟩ := h
  obtain ⟨before, after, split, -⟩ := List.lookup_eq_some_iff.1 used
  have checked := forM_eq_ok_iff.1 h (short, qualified) (by simp [split])
  simp only [checkUse] at checked
  split at checked
  next found => exact .inl (by simp [found])
  next =>
    split_ifs at checked with known
    exact .inr known

theorem check_eq_ok (h : check program d = .ok ()) : Checked program d := by
  simp only [check, bind_eq_ok, located_eq_ok] at h
  obtain ⟨_, uses, _, bounds, _, members, -⟩ := h
  refine ⟨fun _ _ => checkUses_eq_ok uses, checkBounds_eq_ok bounds, ?_, ?_, ?_⟩
  · intro body shape c member
    simp only [checkMembers, shape, bind_eq_ok] at members
    obtain ⟨_, -, _, -, constructors⟩ := members
    exact checkParams_eq_ok (located_eq_ok.1 (forM_eq_ok_iff.1 constructors c member))
  · intro m member
    unfold Decl.methods at member
    split at member
    next shape =>
      simp only [checkMembers, shape] at members
      exact checkMethod_eq_ok (located_eq_ok.1 (forM_eq_ok_iff.1 members m member))
    next shape =>
      simp only [checkMembers, shape, bind_eq_ok] at members
      obtain ⟨_, -, _, methods, -⟩ := members
      exact checkMethod_eq_ok (located_eq_ok.1 (forM_eq_ok_iff.1 methods m member))
    next => cases member
  · intro fields shape f member
    simp only [checkMembers, shape] at members
    have checked := located_eq_ok.1 (forM_eq_ok_iff.1 members f member)
    simp only [checkComponent, bind_eq_ok] at checked
    obtain ⟨_, valued, -⟩ := checked
    exact rejectVoid_eq_ok valued

theorem complete_header (d : Decl) : (complete d).toHeader = d.toHeader := by
  unfold complete
  split
  · split_ifs <;> rfl
  · rfl

theorem complete_methods (d : Decl) : (complete d).methods = d.methods := by
  unfold complete
  split
  next shape =>
    split_ifs
    · simp [Decl.methods, shape]
    · rfl
  · rfl

theorem complete_fields (d : Decl) : (complete d).fields = d.fields := by
  unfold complete
  split
  next shape =>
    split_ifs
    · simp [Decl.fields, shape]
    · rfl
  · rfl

theorem Checked.complete (checked : Checked program d) : Checked program (complete d) := by
  refine ⟨?_, ?_, ?_, ?_, ?_⟩
  · rw [complete_header]
    exact checked.uses
  · rw [complete_header]
    exact checked.bounds
  · intro body shape c member
    unfold Review.complete at shape
    split at shape
    next body' shape' =>
      split_ifs at shape with empty
      · cases shape
        rw [List.mem_singleton.1 member]
        simp [defaultConstructor]
      · exact checked.constructors body shape c member
    next => exact checked.constructors body shape c member
  · rw [complete_methods]
    exact checked.methods
  · intro fields shape
    unfold Review.complete at shape
    split at shape
    next shape' =>
      split_ifs at shape
      exact checked.components fields shape
    next => exact checked.components fields shape

end Review

namespace Program

variable {raw program : Program}

theorem find_complete (qualified : String) :
    find? (raw.map Review.complete) qualified = (raw.find? qualified).map Review.complete := by
  unfold find?
  rw [List.find?_map]
  congr 2
  funext d
  simp [Review.complete_header]

theorem review_eq_ok (h : raw.review = .ok program) :
    program = raw.map Review.complete ∧ ∀ d ∈ program, Review.Checked program d := by
  simp only [review, bind_eq_ok, pure_eq_ok] at h
  obtain ⟨_, checked, rfl⟩ := h
  refine ⟨rfl, fun d member => ?_⟩
  obtain ⟨e, member', rfl⟩ := List.mem_map.1 member
  have known := (Review.check_eq_ok (forM_eq_ok_iff.1 checked e member')).complete
  refine { known with uses := fun short qualified used => ?_ }
  rw [find_complete, Option.isSome_map]
  exact known.uses short qualified used

end Program

end ClassForge
