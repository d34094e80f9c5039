import ClassForge.Proofs.Naming
import ClassForge.Proofs.SlotStack

set_option autoImplicit false

namespace ClassForge

-- No character of the text ends a descriptor or opens one.
def IsPlain (text : String) : Prop :=
  ∀ c ∈ text.toList, c ∉ [';', '(', ')', '[']

instance (text : String) : Decidable (IsPlain text) :=
  decidable_of_iff (text.toList.all (fun c => c ∉ [';', '(', ')', '[']) = true) (by simp [IsPlain])

def IsInner (name : String) : Prop :=
  ';' ∉ name.toList ∧ ')' ∉ name.toList

variable {name : String}

theorem IsPlain.isInner (plain : IsPlain name) : IsInner name :=
  ⟨fun member => plain _ member (by decide), fun member => plain _ member (by decide)⟩

variable {d : Descriptor} {ds : List Descriptor}

namespace Descriptor

inductive Valued (named : String → Prop) : Descriptor → Prop
  | ofPrimitive {p : Primitive} (value : p ≠ .void) : Valued named (ofPrimitive p)
  | ofClass {name : String} (known : named name) : Valued named (ofClass name)
  | arrayOf {d : Descriptor} (element : Valued named d) : Valued named d.arrayOf

variable {named : String → Prop}

theorem Valued.brackets (valued : Valued named d) (dims : Nat) : Valued named ⟨Scope.brackets dims ++ d.text⟩ := by
  induction dims with
  | zero => simpa [Scope.brackets] using valued
  | succ dims ih =>
    rw [brackets_succ]
    exact .arrayOf ih

theorem Valued.proper (valued : Valued named d) : Proper named d := by
  induction valued with
  | ofPrimitive => exact .ofPrimitive _
  | ofClass known => exact .ofClass known
  | arrayOf _ ih => exact .arrayOf ih

theorem Proper.valued_or (proper : Proper named d) :
    Valued named d ∨ ∃ c cs, d.text.toList = c :: cs ∧ ∀ rest, takeField? (c :: cs ++ rest) = none := by
  induction proper with
  | ofPrimitive p =>
    by_cases value : p = .void
    · subst value
      exact .inr ⟨'V', [], rfl, fun rest => by simp [takeField?]⟩
    · exact .inl (.ofPrimitive value)
  | ofClass known => exact .inl (.ofClass known)
  | arrayOf element ih =>
    rename_i d
    rcases ih with valued | ⟨c, cs, text, none⟩
    · exact .inl (.arrayOf valued)
    · have first : d.arrayOf.text.toList = '[' :: c :: cs := by rw [← text]; simp [Descriptor.arrayOf]
      refine .inr ⟨'[', c :: cs, first, fun rest => ?_⟩
      rw [List.cons_append, takeField?, if_pos rfl, none]
      rfl

theorem fields_of_takeField {cs field rest : List Char} (h : takeField? cs = some (field, rest)) :
    fields? cs = (fields? rest).map (field :: ·) := by
  cases cs with
  | nil => cases h
  | cons c cs =>
    rw [fields?]
    split
    next none =>
      rw [none] at h
      cases h
    next found =>
      rw [found] at h
      cases h
      rfl

section

variable (inner : ∀ name, named name → IsInner name)
include inner

theorem takeField_valued (valued : Valued named d) (rest : List Char) :
    takeField? (d.text.toList ++ rest) = some (d.text.toList, rest) := by
  induction valued with
  | @ofPrimitive p value => cases p <;> first | exact absurd rfl value | simp [ofPrimitive, Primitive.code, takeField?]
  | @ofClass name known =>
    have inside : ∀ c ∈ name.toList, (c ≠ ';' : Bool) = true := by
      intro c member
      simpa using fun same : c = ';' => (inner _ known).1 (same ▸ member)
    have text : (ofClass name).text.toList = 'L' :: (name.toList ++ [';']) := by simp [ofClass]
    rw [text, List.cons_append, List.append_assoc, takeField?, if_neg (by decide), if_pos rfl,
      List.dropWhile_append_of_pos inside, List.takeWhile_append_of_pos inside]
    simp
  | @arrayOf d element ih =>
    have text : d.arrayOf.text.toList = '[' :: d.text.toList := by simp [arrayOf]
    rw [text, List.cons_append, takeField?, if_pos rfl, ih]
    rfl

theorem Proper.not_close (proper : Proper named d) : ')' ∉ d.text.toList := by
  induction proper with
  | ofPrimitive p => cases p <;> decide
  | ofClass known => simpa [Descriptor.ofClass] using (inner _ known).2
  | arrayOf _ ih => simpa [Descriptor.arrayOf] using ih

theorem fields_valued (valued : ∀ d ∈ ds, Valued named d) :
    fields? (ds.map (·.text.toList)).flatten = some (ds.map (·.text.toList)) := by
  induction ds with
  | nil => simp [fields?]
  | cons d ds ih =>
    obtain ⟨first, rest⟩ := List.forall_mem_cons.1 valued
    rw [List.map_cons, List.flatten_cons, fields_of_takeField (takeField_valued inner first _), ih rest]
    rfl

theorem valued_of_fields (proper : ∀ d ∈ ds, Proper named d)
    (h : (fields? (ds.map (·.text.toList)).flatten).isSome = true) : ∀ d ∈ ds, Valued named d := by
  induction ds with
  | nil => simp
  | cons d ds ih =>
    obtain ⟨first, proper⟩ := List.forall_mem_cons.1 proper
    rw [List.map_cons, List.flatten_cons] at h
    rcases first.valued_or with valued | ⟨c, cs, text, none⟩
    · rw [fields_of_takeField (takeField_valued inner valued _), Option.isSome_map] at h
      exact List.forall_mem_cons.2 ⟨valued, ih proper h⟩
    · rw [text, List.cons_append, fields?] at h
      split at h
      next => cases h
      next found =>
        rw [← List.cons_append, none] at found
        cases found

end

end Descriptor

theorem MethodDescriptor.toList_of (params : List Descriptor) (returns : Descriptor) :
    (MethodDescriptor.of params returns).text.toList =
      '(' :: ((params.map (·.text.toList)).flatten ++ ')' :: returns.text.toList) := by
  simp [MethodDescriptor.of, String.toList_join, List.flatMap, Function.comp_def]

namespace MethodDescriptor

open Descriptor

variable {params : List Descriptor} {named : String → Prop}

theorem split_fields (inner : ∀ name, named name → IsInner name) (proper : ∀ d ∈ params, Proper named d)
    (returns : Descriptor) : (of params returns).split? =
      (fields? (params.map (·.text.toList)).flatten).map fun fields =>
        (fields.map fun field => ⟨String.ofList field⟩, returns) := by
  have inside : ∀ c ∈ (params.map (·.text.toList)).flatten, (c ≠ ')' : Bool) = true := by
    intro c member
    simp only [List.mem_flatten, List.mem_map] at member
    obtain ⟨_, ⟨d, among, rfl⟩, member⟩ := member
    simpa using fun same : c = ')' => (proper d among).not_close inner (same ▸ member)
  unfold split?
  rw [toList_of]
  simp only [List.dropWhile_append_of_pos inside, List.takeWhile_append_of_pos inside]
  simp

theorem split_valued (inner : ∀ name, named name → IsInner name) (valued : ∀ d ∈ params, Valued named d)
    (returns : Descriptor) : (of params returns).split? = some (params, returns) := by
  rw [split_fields inner (fun d member => (valued d member).proper), fields_valued inner valued]
  simp [Function.comp_def]

theorem split_of (valued : ∀ d ∈ params, Valued IsPlain d) (returns : Descriptor) :
    (of params returns).split? = some (params, returns) :=
  split_valued (fun _ => IsPlain.isInner) valued returns

theorem valued_of_split (inner : ∀ name, named name → IsInner name) (proper : ∀ d ∈ params, Proper named d)
    {returns : Descriptor} (h : (of params returns).split?.isSome = true) : ∀ d ∈ params, Valued named d := by
  rw [split_fields inner proper, Option.isSome_map] at h
  exact valued_of_fields inner proper h

end MethodDescriptor

theorem Primitive.keyword_of_ofKeyword {word : String} {p : Primitive} (h : ofKeyword? word = some p) :
    p.keyword = word := by
  simpa using List.find?_some h

variable {returns : Option TypeName} {t : TypeName} {fuel : Nat} {packages : List String}
  {typeParams : List TypeParam}

namespace Scope

variable {scope : Scope} {named : String → Prop} {params : List Param}

def IsBounded (scope : Scope) : Prop :=
  ∀ p ∈ scope.typeParams ++ scope.decl.typeParams, p.IsBounded

theorem resolve_bound {dims : Nat} {bound : TypeName} (bounded : scope.IsBounded)
    (resolved : scope.resolve t = .ok { dims, base := .param name (some bound) }) :
    Primitive.ofKeyword? bound.base = none ∧ bound.dims = 0 := by
  obtain ⟨-, -, p, found, first⟩ := resolve_known resolved
  exact bounded p (List.mem_of_find?_eq_some found) bound (List.mem_of_mem_head? first)

theorem erase_valued (root : named "java/lang/Object") (uses : scope.UsesNamed named)
    (bounded : scope.IsBounded) (value : t.IsValued) (h : scope.erase fuel t = .ok d) : d.Valued named := by
  replace h := erases_of_erase h
  induction h with
  | primitive resolved =>
    refine .brackets (.ofPrimitive ?_) _
    rintro rfl
    exact value (Primitive.keyword_of_ofKeyword (resolve_known resolved).2).symm
  | named resolved => exact .brackets (.ofClass (uses _ _ (resolve_known resolved).2.2.2)) _
  | unbounded => exact .brackets (.ofClass root) _
  | bounded resolved _ ih =>
    have free := (resolve_bound bounded resolved).1
    refine .brackets (ih fun isVoid => ?_) _
    rw [isVoid] at free
    revert free
    decide

theorem kind_brackets (reference : d.kind = .reference) (dims : Nat) :
    (⟨brackets dims ++ d.text⟩ : Descriptor).kind = .reference := by
  cases dims with
  | zero => simpa [brackets] using reference
  | succ dims =>
    rw [Descriptor.brackets_succ]
    exact Descriptor.kind_arrayOf ⟨brackets dims ++ d.text⟩

theorem erase_kind (bounded : scope.IsBounded) (h : scope.erase fuel t = .ok d) :
    (∃ p, t = .plain p.keyword ∧ d = .ofPrimitive p) ∨
      d.kind = .reference ∧ (Primitive.ofKeyword? t.base = none ∨ 0 < t.dims) := by
  replace h := erases_of_erase h
  induction h with
  | @primitive t _ p resolved =>
    obtain ⟨rfl, word⟩ := resolve_known resolved
    obtain ⟨count, name⟩ := t
    cases Primitive.keyword_of_ofKeyword word
    cases count with
    | zero => exact .inl ⟨p, rfl, by simp [brackets]⟩
    | succ count =>
      rw [Descriptor.brackets_succ]
      exact .inr ⟨Descriptor.kind_arrayOf _, .inr (Nat.succ_pos _)⟩
  | named resolved | unbounded resolved =>
    exact .inr ⟨kind_brackets (Descriptor.kind_ofClass _) _, .inl (resolve_known resolved).2.1⟩
  | bounded resolved _ ih =>
    refine .inr ⟨?_, .inl (resolve_known resolved).2.1⟩
    rcases ih with ⟨p, rfl, -⟩ | ⟨reference, -⟩
    · have free := (resolve_bound bounded resolved).1
      cases p <;> exact absurd free (by decide)
    · exact kind_brackets reference _

theorem erase_width (bounded : scope.IsBounded)
    (value : t.IsValued) (h : scope.erase fuel t = .ok d) : d.width = t.slotWidth := by
  rcases erase_kind bounded h with ⟨p, rfl, rfl⟩ | ⟨reference, other⟩
  · cases p with
    | void => exact absurd rfl value
    | _ => decide
  · unfold Descriptor.width TypeName.slotWidth
    rw [reference, if_neg]
    · rfl
    · rintro (rfl | rfl)
      all_goals
        rcases other with free | array
        · exact absurd free (by decide)
        · exact absurd array (by decide)

theorem methodDescriptor_of (root : named "java/lang/Object") (uses : scope.UsesNamed named)
    (bounded : scope.IsBounded) {d : MethodDescriptor}
    (value : ∀ p ∈ params, p.type.IsValued) (h : scope.methodDescriptor params returns = .ok d) :
    ∃ types result, scope.resultDescriptor returns = .ok result ∧ d = .of types result ∧
      List.Forall₂ (fun p t => scope.descriptor p.type = .ok t) params types ∧
      ∀ t ∈ types, t.Valued named := by
  simp only [methodDescriptor, bind_eq_ok, pure_eq_ok] at h
  obtain ⟨types, typed, result, returned, rfl⟩ := h
  have pairs := mapM_eq_ok_iff.1 typed
  refine ⟨types, result, returned, rfl, pairs, fun t member => ?_⟩
  obtain ⟨p, among, found⟩ := exists_left_of_forall₂ pairs member
  exact erase_valued root uses bounded (value p among) found

theorem methodDescriptor_split (root : IsPlain "java/lang/Object") (uses : scope.UsesNamed IsPlain)
    (bounded : scope.IsBounded) {d : MethodDescriptor}
    (value : ∀ p ∈ params, p.type.IsValued) (h : scope.methodDescriptor params returns = .ok d) :
    ∃ types result, scope.resultDescriptor returns = .ok result ∧ d.split? = some (types, result) ∧
      Descriptor.totalWidth types = (params.map (·.type.slotWidth)).sum := by
  obtain ⟨types, result, returned, rfl, pairs, valued⟩ := methodDescriptor_of root uses bounded value h
  refine ⟨types, result, returned, MethodDescriptor.split_of valued result, ?_⟩
  clear h valued
  induction pairs with
  | nil => rfl
  | cons found _ ih =>
    have width := erase_width bounded (value _ List.mem_cons_self) found
    have more := ih fun p member => value p (List.mem_cons_of_mem _ member)
    rw [List.map_cons, List.sum_cons, ← width, ← more]
    rfl

end Scope

theorem Platform.isPlain {qualified : String} (known : (Platform.isInterface? qualified).isSome) :
    IsPlain qualified := by
  have all : ∀ name ∈ Platform.interfaces ++ Platform.classes, IsPlain name := by decide +kernel
  unfold Platform.isInterface? at known
  split_ifs at known with isInterface isClass
  · exact all _ (List.mem_append_left _ isInterface)
  · exact all _ (List.mem_append_right _ isClass)
  · cases known

theorem IsWord.isPlain (word : IsWord name) : IsPlain name := by
  intro c member special
  have part := word.2 c member
  simp only [List.mem_cons, List.not_mem_nil, or_false] at special
  rcases special with rfl | rfl | rfl | rfl <;> exact absurd part (by decide)

theorem IsPlain.append {first second : String} (plain : IsPlain first) (plain' : IsPlain second) :
    IsPlain (first ++ second) := by
  intro c member
  rw [String.toList_append, List.mem_append] at member
  exact member.elim (plain c) (plain' c)

theorem Outline.isPlain_front (plain : ∀ p ∈ packages, IsPlain p) : IsPlain (front "/" packages) := by
  induction packages with
  | nil =>
    intro c member
    cases member
  | cons p ps ih =>
    have slash : IsPlain "/" := by simp [IsPlain]
    have more := ih fun q member => plain q (List.mem_cons_of_mem _ member)
    have first := (plain p List.mem_cons_self).append slash
    cases ps with
    | nil => simpa [front] using first
    | cons q qs =>
      rw [front, String.intercalate_cons_cons, String.append_assoc]
      exact first.append more

namespace Program

variable {program : Program} {d : Decl}

theorem Accepted.isPlain (accepted : program.Accepted packages)
    (plain : ∀ p ∈ packages, IsPlain p) (member : d ∈ program) : IsPlain d.internalName := by
  have front := Outline.isPlain_front plain
  have word := (accepted.sound d member).word.isPlain
  cases accepted.named d member with
  | top _ internal =>
    rw [internal]
    exact front.append word
  | nested outer _ internal =>
    have dollar : IsPlain "$" := by simp [IsPlain]
    rw [internal]
    exact ((front.append outer.isPlain).append dollar).append word

theorem usesNamed_of_checked (checked : Review.Checked program d)
    (plain : ∀ e ∈ program, IsPlain e.internalName) (typeParams : List TypeParam) :
    ({ program, decl := d, typeParams } : Scope).UsesNamed IsPlain := by
  intro short qualified used
  unfold Program.internalName
  split
  next e found => exact plain e (List.mem_of_find?_eq_some found)
  next missing =>
    have known : (Platform.isInterface? qualified).isSome = true := by
      simpa [missing] using checked.uses short qualified used
    intro c member
    rw [String.toList_ofList, List.mem_map] at member
    obtain ⟨c, member, rfl⟩ := member
    split_ifs
    · decide
    · exact Platform.isPlain known c member

end Program

theorem isPlain_object : IsPlain "java/lang/Object" := by
  simp [IsPlain]

namespace Review.Checked

variable {program : Program} {d : Decl}

theorem isBounded (checked : Review.Checked program d) (bounded : ∀ p ∈ typeParams, p.IsBounded) :
    ({ program, decl := d, typeParams } : Scope).IsBounded := by
  intro p member
  rcases List.mem_append.1 member with own | outer
  · exact bounded p own
  · exact checked.bounds p outer

theorem split (checked : Review.Checked program d) (plain : ∀ e ∈ program, IsPlain e.internalName)
    (bounded : ∀ p ∈ typeParams, p.IsBounded) {params : List Param}
    (valued : ∀ p ∈ params, p.type.IsValued) {descriptor : MethodDescriptor}
    (h : ({ program, decl := d, typeParams } : Scope).methodDescriptor params returns = .ok descriptor) :
    ∃ types result, ({ program, decl := d, typeParams } : Scope).resultDescriptor returns = .ok result ∧
      descriptor.split? = some (types, result) ∧
      Descriptor.totalWidth types = (params.map (·.type.slotWidth)).sum :=
  Scope.methodDescriptor_split isPlain_object (Program.usesNamed_of_checked checked plain typeParams)
    (checked.isBounded bounded) valued h

end Review.Checked

end ClassForge
