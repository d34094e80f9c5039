import ClassForge.Proofs.Renumbering
import ClassForge.Proofs.Words

set_option autoImplicit false

namespace ClassForge

section Moves

variable (f : Nat → Nat)

def Field.moved (field : Field) : Field :=
  { field with line := f field.line, init := field.init.map Expr.bare }

def Method.moved (m : Method) : Method :=
  { m with body := m.body.map (List.map (TokenLine.moved f)), line := f m.line }

def SuperCall.bare (call : SuperCall) : SuperCall :=
  { call with arguments := Expr.bares call.arguments }

def Constructor.moved (c : Constructor) : Constructor :=
  { c with
    body := c.body.map (TokenLine.moved f)
    superCall := c.superCall.map SuperCall.bare
    line := f c.line }

def ClassBody.moved (body : ClassBody) : ClassBody :=
  { body with
    fields := body.fields.map (Field.moved f)
    constructors := body.constructors.map (Constructor.moved f)
    methods := body.methods.map (Method.moved f) }

def Shape.moved : Shape → Shape
  | .enumeration values => .enumeration values
  | .record components => .record (components.map (Field.moved f))
  | .interface parents methods => .interface parents (methods.map (Method.moved f))
  | .plainClass body => .plainClass (body.moved f)

def Decl.moved (d : Decl) : Decl :=
  { d with line := f d.line, shape := d.shape.moved f }

def Program.moved (program : Program) : Program :=
  List.map (Decl.moved f) program

def Member.moved : Member → Member
  | .field a => .field (a.moved f)
  | .method m => .method (m.moved f)
  | .constructor c => .constructor (c.moved f)

end Moves

-- What is known of a member: a field is not void, a method is named by a word, a constructor has the modifiers
-- that constructors may have, and parameters have names of their own.
def Member.IsChecked : Member → Prop
  | .field f => f.type ≠ .plain "void"
  | .method m => IsWord m.name ∧ (m.params.map (·.name)).Nodup
  | .constructor c => c.modifier.check .constructor = .ok () ∧ (c.params.map (·.name)).Nodup

theorem nodup_names_append {α : Type} {name : α → String} {known : List α} {a : α}
    (distinct : (known.map name).Nodup) (new : ¬ known.any (fun b => name b = name a) = true) :
    ((known ++ [a]).map name).Nodup := by
  rw [List.map_append, List.map_singleton, List.nodup_append]
  refine ⟨distinct, List.nodup_singleton _, ?_⟩
  rintro text old other here rfl
  obtain ⟨b, member, same⟩ := List.mem_map.1 old
  rw [List.mem_singleton] at here
  exact new (List.any_eq_true.2 ⟨b, member, by simp [same, here]⟩)

def Grammar.Trims {α β : Type} (ts : List Token) (g : α → β) (P : α → Prop) {p q : List Token → Prop}
    (x : α × Subtype p) (y : β × Subtype q) : Prop :=
  SameRest Token.bare g x y ∧ x.2.1 ⊆ ts ∧ P x.1

namespace Alike

variable {ε α β γ δ : Type} {E : ε → ε → Prop} {S : γ → δ → Prop}

theorem bindTrims {ts : List Token} {g : α → β} {P : α → Prop} {p q : List Token → Prop}
    {x : Except ε (α × Subtype p)} {y : Except ε (β × Subtype q)} {f : α × Subtype p → Except ε γ}
    {f' : β × Subtype q → Except ε δ} (first : Alike E (Grammar.Trims ts g P) x y)
    (second : ∀ a rest left left', rest ⊆ ts → P a →
      Alike E S (f (a, ⟨rest, left⟩)) (f' (g a, ⟨rest.map Token.bare, left'⟩))) :
    Alike E S (x >>= f) (y >>= f') := by
  refine first.bind ?_
  rintro ⟨a, rest, left⟩ ⟨_, _, left'⟩ ⟨⟨rfl, rfl⟩, less, holds⟩
  exact second a rest left left' less holds

theorem bindSelf {x : Except ε α} {f : α → Except ε γ} {g : α → Except ε δ} (same : ∀ e, E e e)
    (second : ∀ a, x = .ok a → Alike E S (f a) (g a)) : Alike E S (x >>= f) (x >>= g) := by
  cases x with
  | ok a => exact second a rfl
  | error e => exact .error (same e)

end Alike

namespace Grammar

theorem tokenIdentifier_bare (what : String) (ts : List Token) :
    Blind (TokenRule.identifier what) ts fun x y => y = (x.1, x.2.map Token.bare) := by
  cases ts with
  | nil => exact expected_same _ none
  | cons t ts => exact .ite Iff.rfl (fun _ => .ok rfl) fun _ => expected_same _ (some t)

theorem operator_bare (symbol : String) (ts : List Token) :
    Blind (TokenRule.operator symbol) ts fun x y => y = (x.1, x.2.map Token.bare) ∧ x.2 ⊆ ts := by
  cases ts with
  | nil => exact expected_same _ none
  | cons t ts =>
    exact .ite Iff.rfl (fun _ => .ok ⟨rfl, List.subset_cons_self t ts⟩) fun _ => expected_same _ (some t)

theorem name_trims (what : String) (ts : List Token) :
    Blind (name what) ts (Trims ts id fun found => (∀ t ∈ ts, t.IsRead) → IsWord found) := by
  cases ts with
  | nil => exact expected_same what none
  | cons t ts =>
    unfold Blind name
    refine .ite Iff.rfl (fun identifier => .ok ⟨⟨rfl, rfl⟩, List.subset_cons_self t ts, fun read => ?_⟩) fun _ =>
      expected_same what (some t)
    exact (read t List.mem_cons_self).isWord identifier

theorem dimensions_subset (ts : List Token) : (dimensions ts).2 ⊆ ts := by
  fun_induction dimensions ts with
  | case1 a b ts _ dims rest split ih =>
    rw [split] at ih
    exact List.subset_cons_of_subset a (List.subset_cons_of_subset b ih)
  | case2 | case3 => exact List.Subset.refl _

theorem typeName_trims (ts : List Token) : Blind typeName ts (Trims ts id fun _ => True) := by
  cases ts with
  | nil => exact expected_same _ none
  | cons t ts =>
    have dims := dimensions_bare ts
    unfold Blind typeName
    refine .ite Iff.rfl (fun _ => .ok ⟨⟨?_, ?_⟩, List.subset_cons_of_subset t (dimensions_subset ts), trivial⟩) fun _ =>
      expected_same _ (some t)
    · simp [dims]
    · simp [dims]

theorem typeNames_trims {isSeparator : Token → Bool} (blind : ∀ t : Token, isSeparator t.bare = isSeparator t)
    (ts : List Token) : Blind (typeNames isSeparator) ts (Trims ts id fun _ => True) := by
  unfold Blind typeNames
  refine (typeName_trims ts).bindTrims fun type ts1 h1 _ less _ => ?_
  cases ts1 with
  | nil => exact .ok ⟨⟨rfl, rfl⟩, less, trivial⟩
  | cons t ts2 =>
    refine .ite (by rw [blind]) (fun _ => ?_) fun _ => .ok ⟨⟨rfl, rfl⟩, less, trivial⟩
    refine (typeNames_trims blind ts2).bindTrims fun types ts3 h3 _ less' _ => ?_
    exact .ok ⟨⟨rfl, rfl⟩, List.Subset.trans less' (List.cons_subset.1 less).2, trivial⟩
termination_by ts.length
decreasing_by
  simp only [List.length_cons] at h1
  omega

@[simp]
theorem nextIsWord_bare (word : String) (ts : List Token) :
    nextIsWord word (ts.map Token.bare) = nextIsWord word ts := by
  cases ts <;> rfl

@[simp]
theorem nextIsOperator_bare (symbol : String) (ts : List Token) :
    nextIsOperator symbol (ts.map Token.bare) = nextIsOperator symbol ts := by
  cases ts <;> rfl

theorem modifiers_trims (m : Modifier) (hasAccess : Bool) (ts : List Token) :
    Blind (modifiers m hasAccess) ts (Trims ts id fun _ => True) := by
  induction ts generalizing m hasAccess with
  | nil => exact .ok ⟨⟨rfl, rfl⟩, List.Subset.refl _, trivial⟩
  | cons t ts ih =>
    change Alike _ _ (modifiers m hasAccess (t :: ts)) (modifiers m hasAccess (t.bare :: ts.map Token.bare))
    have none : Trims (t :: ts) id (fun _ => True) (m, Unread.all (t :: ts))
      (m, Unread.all (t.bare :: ts.map Token.bare)) :=
      ⟨⟨rfl, rfl⟩, List.Subset.refl _, trivial⟩
    unfold modifiers
    refine .ite Iff.rfl (fun _ => ?_) fun _ => .ok none
    simp only [Token.bare_text]
    cases Access.ofKeyword? t.text with
    | some access =>
      refine .ite Iff.rfl (fun _ => .error rfl) fun _ =>
        (ih { m with access } true).bindTrims fun m ts1 h1 _ less _ => ?_
      exact .ok ⟨⟨rfl, rfl⟩, List.subset_cons_of_subset t less, trivial⟩
    | none =>
      cases Flag.ofKeyword? t.text with
      | none => exact .ok none
      | some flag =>
        refine .bindSelf Cause.Same.refl fun m _ => (ih m hasAccess).bindTrims fun m ts1 h1 _ less _ => ?_
        exact .ok ⟨⟨rfl, rfl⟩, List.subset_cons_of_subset t less, trivial⟩

theorem bounds_trims (ts : List Token) : Blind bounds ts (Trims ts id fun _ => True) := by
  cases ts with
  | nil => exact .ok ⟨⟨rfl, rfl⟩, List.Subset.refl _, trivial⟩
  | cons t ts =>
    unfold Blind bounds
    refine .ite Iff.rfl (fun _ => ?_) fun _ => .ok ⟨⟨rfl, rfl⟩, List.Subset.refl _, trivial⟩
    refine (typeNames_trims (fun _ => rfl) ts).bindTrims fun types ts1 h1 _ less _ => ?_
    exact .ok ⟨⟨rfl, rfl⟩, List.subset_cons_of_subset t less, trivial⟩

theorem moreTypeParams_trims (done : List TypeParam) (ts : List Token) :
    Blind (moreTypeParams done) ts (Trims ts id fun _ => True) := by
  unfold Blind moreTypeParams
  refine (name_trims _ ts).bindTrims fun name ts1 h1 _ less1 _ => ?_
  refine .ite Iff.rfl (fun _ => .error rfl) fun _ => ?_
  refine (bounds_trims ts1).bindTrims fun bounds ts2 h2 _ less2 _ => ?_
  cases ts2 with
  | nil => exact expected_same _ none
  | cons t ts3 =>
    have less3 : ts3 ⊆ ts := List.Subset.trans (List.cons_subset.1 less2).2 less1
    refine .ite Iff.rfl (fun _ => ?_) fun _ => .ite Iff.rfl (fun _ => .ok ⟨⟨rfl, rfl⟩, less3, trivial⟩) fun _ =>
      expected_same _ (some t)
    refine (moreTypeParams_trims (done ++ [⟨name, bounds⟩]) ts3).bindTrims fun _ _ _ _ less4 _ => ?_
    exact .ok ⟨⟨rfl, rfl⟩, List.Subset.trans less4 less3, trivial⟩
termination_by ts.length
decreasing_by
  simp only [List.length_cons] at h2
  omega

theorem typeParams_trims (ts : List Token) : Blind typeParams ts (Trims ts id fun _ => True) := by
  cases ts with
  | nil => exact .ok ⟨⟨rfl, rfl⟩, List.Subset.refl _, trivial⟩
  | cons t ts =>
    unfold Blind typeParams
    refine .ite Iff.rfl (fun _ => ?_) fun _ => .ok ⟨⟨rfl, rfl⟩, List.Subset.refl _, trivial⟩
    refine (moreTypeParams_trims [] ts).bindTrims fun params ts1 h1 _ less _ => ?_
    exact .ok ⟨⟨rfl, rfl⟩, List.subset_cons_of_subset t less, trivial⟩

theorem moreParams_bare (done : List Param) (distinct : (done.map (·.name)).Nodup) (ts : List Token) :
    Blind (moreParams done) ts fun x y => y = (x.1, x.2.map Token.bare) ∧ (x.1.map (·.name)).Nodup := by
  unfold Blind moreParams
  refine (typeName_trims ts).bindTrims fun type ts1 h1 _ _ _ => ?_
  refine (name_trims _ ts1).bindTrims fun name ts2 h2 _ _ _ => ?_
  refine .ite Iff.rfl (fun _ => .error rfl) fun taken => ?_
  have distinct' : ((done ++ [({ type, name } : Param)]).map (·.name)).Nodup := nodup_names_append distinct taken
  cases ts2 with
  | nil => exact expected_same _ none
  | cons t ts3 =>
    have rest := moreParams_bare _ distinct' ts3
    exact .ite Iff.rfl (fun _ => .ok ⟨rfl, distinct'⟩) fun _ => .ite Iff.rfl (fun _ => rest) fun _ =>
      expected_same _ (some t)
termination_by ts.length
decreasing_by
  simp only [List.length_cons] at h2
  omega

theorem params_bare (ts : List Token) :
    Blind params ts fun x y => y = (x.1, x.2.map Token.bare) ∧ (x.1.map (·.name)).Nodup := by
  refine (punct_bare '(' ts).bindKeep fun ⟨_, ts⟩ _ => ?_
  refine .ite (by rw [nextIs_bare]) (fun _ => .ok ⟨?_, List.nodup_nil⟩) fun _ => moreParams_bare [] List.nodup_nil ts
  rw [List.map_tail]

theorem values_bare (done : List String) (ts : List Token) :
    Blind (values done) ts fun x y => y = (x.1, x.2.map Token.bare) := by
  match ts with
  | [] => exact expected_same _ none
  | [t] => exact .ite Iff.rfl (fun _ => .ok rfl) fun _ => expected_same _ (some t)
  | t :: bar :: ts =>
    refine .ite Iff.rfl (fun _ => ?_) fun _ => expected_same _ (some t)
    exact .ite Iff.rfl (fun _ => values_bare _ ts) fun _ => .ok rfl

theorem braceBalance_bare (ts : List Token) : braceBalance (ts.map Token.bare) = braceBalance ts := by
  unfold braceBalance
  rw [List.countP_map, List.countP_map]
  rfl

section Members

variable (f : Nat → Nat)

theorem methodHead_moved (modifier : Modifier) (typeParams : List TypeParam) (type : TypeName) {name : String}
    (word : IsWord name) (line : Nat) (ts : List Token) :
    Alike Cause.Same (fun x y => y = (x.1.moved f, x.2) ∧ (Member.method x.1).IsChecked)
      (methodHead modifier typeParams type name line ts)
      (methodHead modifier typeParams type name (f line) (ts.map Token.bare)) := by
  refine .bindSelf Cause.Same.refl fun _ _ => (params_bare ts).bindKeep fun ⟨params, ts⟩ distinct => ?_
  refine .ite (by rw [nextIs_bare]) (fun _ => ?_) fun _ => ?_
  · refine .ite Iff.rfl (fun _ => .error rfl) fun _ => .ite Iff.rfl (fun _ => .error rfl) fun _ => ?_
    exact (opening_bare ts).bindSame fun _ => .ok ⟨rfl, word, distinct⟩
  · exact (lineEnd_bare ts).bindSame fun _ => .ok ⟨rfl, word, distinct⟩

theorem constructorHead_moved (modifier : Modifier) (line : Nat) (ts : List Token) :
    Alike Cause.Same (fun c c' => c' = c.moved f ∧ (Member.constructor c).IsChecked) (constructorHead modifier line ts)
      (constructorHead modifier (f line) (ts.map Token.bare)) := by
  refine .bindSelf Cause.Same.refl fun _ checked => (params_bare ts).bindKeep fun ⟨params, ts⟩ distinct => ?_
  refine .ite (by rw [nextIs_bare]) (fun _ => ?_) fun _ => ?_
  · dsimp only
    rw [← List.map_tail]
    refine (tokenIdentifier_bare _ ts.tail).bindMap fun ⟨target, ts⟩ => ?_
    refine (Expr.parseArguments_bare ts).bindMap fun ⟨arguments, ts⟩ => ?_
    match ts with
    | [] => exact expected_same _ none
    | [brace] => exact .ite Iff.rfl (fun _ => .ok ⟨rfl, checked, distinct⟩) fun _ => expected_same _ (some brace)
    | a :: b :: rest => exact expected_same _ (some a)
  · exact (opening_bare ts).bindSame fun _ => .ok ⟨rfl, checked, distinct⟩

theorem fieldHead_moved (modifier : Modifier) (typeParams : List TypeParam) (type : TypeName) (name : String)
    (line : Nat) (ts : List Token) :
    Alike Cause.Same (fun field field' => field' = field.moved f ∧ (Member.field field).IsChecked)
      (fieldHead modifier typeParams type name line ts)
      (fieldHead modifier typeParams type name (f line) (ts.map Token.bare)) := by
  refine .ite Iff.rfl (fun _ => .error rfl) fun _ => .ite Iff.rfl (fun _ => .error rfl) fun isValue => ?_
  refine .bindSelf Cause.Same.refl fun _ _ => .ite (by rw [nextIsOperator_bare]) (fun _ => ?_) fun _ => ?_
  · rw [← List.map_tail]
    exact (Expr.parse_bare ts.tail).bindMap fun init => .ok ⟨rfl, isValue⟩
  · exact (lineEnd_bare ts).bindSame fun _ => .ok ⟨rfl, isValue⟩

theorem memberHead_moved (modifier : Modifier) (line : Nat) {ts : List Token} (read : ∀ t ∈ ts, t.IsRead) :
    Alike Cause.Same (fun x y => y = (x.1.moved f, x.2) ∧ x.1.IsChecked) (memberHead modifier line ts)
      (memberHead modifier (f line) (ts.map Token.bare)) := by
  unfold memberHead
  rw [← List.map_tail]
  refine .ite (by rw [nextIsWord_bare, nextIs_bare]) (fun _ => ?_) fun _ => ?_
  · exact (constructorHead_moved f modifier line ts.tail).bindKeep fun head checked => .ok ⟨rfl, checked⟩
  · refine (typeParams_trims ts).bindTrims fun typeParams ts1 _ _ less1 _ => ?_
    refine (typeName_trims ts1).bindTrims fun type ts2 _ _ less2 _ => ?_
    refine (name_trims _ ts2).bindTrims fun name ts3 _ _ _ word => ?_
    refine .ite (by rw [nextIs_bare]) (fun _ => ?_) fun _ => ?_
    · have word := word fun t member => read t (less1 (less2 member))
      exact (methodHead_moved f modifier typeParams type word line ts3).bindKeep fun _ checked => .ok ⟨rfl, checked⟩
    · exact (fieldHead_moved f modifier typeParams type name line ts3).bindKeep fun _ checked => .ok ⟨rfl, checked⟩

end Members

def typesAfter (word : String) (ts : List Token) : Except Cause (List TypeName × List Token) :=
  if nextIsWord word ts then (typeNames (·.isPunct ',') ts.tail).map fun read => (read.1, read.2.1)
  else .ok ([], ts)

def typeAfter (word : String) (ts : List Token) : Except Cause (Option TypeName × List Token) :=
  if nextIsWord word ts then (typeName ts.tail).map fun read => (some read.1, read.2.1) else .ok (none, ts)

theorem interfaceParents_eq (ts : List Token) :
    interfaceParents ts = (typesAfter "extends" ts >>= fun (parents, ts) => do
      openBlock ts
      return parents) := by
  unfold interfaceParents typesAfter
  split
  · cases typeNames (·.isPunct ',') ts.tail <;> rfl
  · rfl

theorem implements_eq (superclass : Option TypeName) (ts : List Token) :
    (if nextIsWord "implements" ts then do
        let (types, ⟨ts, _⟩) ← typeNames (·.isPunct ',') ts.tail
        openBlock ts
        return (superclass, types)
      else do
        openBlock ts
        return (superclass, [])) =
    (typesAfter "implements" ts >>= fun (interfaces, ts) => do
      openBlock ts
      return (superclass, interfaces)) := by
  unfold typesAfter
  split
  · cases typeNames (·.isPunct ',') ts.tail <;> rfl
  · rfl

theorem classParents_eq (ts : List Token) :
    classParents ts = (typeAfter "extends" ts >>= fun (superclass, ts) =>
      typesAfter "implements" ts >>= fun (interfaces, ts) => do
        openBlock ts
        return (superclass, interfaces)) := by
  unfold classParents typeAfter
  split
  · cases typeName ts.tail with
    | error cause => rfl
    | ok read => exact implements_eq _ _
  · exact implements_eq _ _

theorem typesAfter_bare (word : String) (ts : List Token) :
    Blind (typesAfter word) ts fun x y => y = (x.1, x.2.map Token.bare) := by
  refine .ite (by rw [nextIsWord_bare]) (fun _ => ?_) fun _ => .ok rfl
  rw [← List.map_tail]
  refine (typeNames_trims (fun _ => rfl) ts.tail).map ?_
  rintro ⟨types, rest, _⟩ ⟨_, _, _⟩ ⟨⟨rfl, rfl⟩, -⟩
  rfl

theorem typeAfter_bare (word : String) (ts : List Token) :
    Blind (typeAfter word) ts fun x y => y = (x.1, x.2.map Token.bare) := by
  refine .ite (by rw [nextIsWord_bare]) (fun _ => ?_) fun _ => .ok rfl
  rw [← List.map_tail]
  refine (typeName_trims ts.tail).map ?_
  rintro ⟨type, rest, _⟩ ⟨_, _, _⟩ ⟨⟨rfl, rfl⟩, -⟩
  rfl

theorem interfaceParents_bare (ts : List Token) : Blind interfaceParents ts Eq := by
  rw [Blind, interfaceParents_eq, interfaceParents_eq]
  refine (typesAfter_bare _ ts).bindMap ?_
  rintro ⟨parents, ts⟩
  exact (opening_bare ts).bindSame fun _ => .ok rfl

theorem classParents_bare (ts : List Token) : Blind classParents ts Eq := by
  rw [Blind, classParents_eq, classParents_eq]
  refine (typeAfter_bare _ ts).bindMap ?_
  rintro ⟨superclass, ts⟩
  refine (typesAfter_bare _ ts).bindMap ?_
  rintro ⟨interfaces, ts⟩
  exact (opening_bare ts).bindSame fun _ => .ok rfl

theorem segments_bare (ts : List Token) : Blind segments ts fun x y => y = (x.1, x.2.map Token.bare) := by
  match ts with
  | [] => exact .ok rfl
  | [dot] => exact .ite Iff.rfl (fun _ => expected_same _ none) fun _ => .ok rfl
  | dot :: t :: ts =>
    refine .ite Iff.rfl (fun _ => ?_) fun _ => .ok rfl
    refine .ite Iff.rfl (fun _ => ?_) fun _ => expected_same _ (some t)
    exact (segments_bare ts).bindMap fun ⟨rest, ts⟩ => .ok rfl

theorem use_bare (known : FileUses) (ts : List Token) : Blind (use known) ts Eq := by
  unfold Blind use
  dsimp only
  rw [nextIsWord_bare, ← List.map_tail, ← apply_ite (List.map Token.bare)]
  refine (tokenIdentifier_bare _ _).bindMap fun ⟨first, ts1⟩ => ?_
  refine (segments_bare ts1).bindMap fun ⟨others, ts2⟩ => ?_
  refine .ite (by rw [nextIsWord_bare]) (fun _ => ?_) fun _ => ?_
  · dsimp only
    rw [← List.map_tail]
    refine (tokenIdentifier_bare _ ts2.tail).bindMap fun ⟨short, ts3⟩ => ?_
    refine (lineEnd_bare ts3).bindSame fun _ => ?_
    exact .ite Iff.rfl (fun _ => .error rfl) fun _ => .ok rfl
  · refine (lineEnd_bare ts2).bindSame fun _ => ?_
    exact .ite Iff.rfl (fun _ => .error rfl) fun _ => .ok rfl

end Grammar

end ClassForge
