import ClassForge.Proofs.Naming

set_option autoImplicit false

namespace ClassForge

open Text (SourcePath)

variable {outline : Outline} {sign : Char} {outlines : List Outline}

namespace Outline

abbrev Key := String × Option String

def Key.full (front separator : String) : Key → String
  | (top, none) => front ++ top
  | (top, some inner) => front ++ top ++ separator ++ inner

theorem takeWhile_sign {front rest : List Char} (clear : sign ∉ front) :
    (front ++ sign :: rest).takeWhile (· ≠ sign) = front := by
  have all : ∀ c ∈ front, decide (c ≠ sign) = true := by
    rintro c member
    exact decide_eq_true fun same => clear (same ▸ member)
  rw [List.takeWhile_append_of_pos all]
  simp

theorem Key.full_inj {front separator : String} (single : separator.toList = [sign]) {k l : Key}
    (clear : sign ∉ k.1.toList) (clear' : sign ∉ l.1.toList)
    (same : k.full front separator = l.full front separator) : k = l := by
  obtain ⟨top, inner⟩ := k
  obtain ⟨top', inner'⟩ := l
  cases inner with
  | none =>
    cases inner' with
    | none =>
      simp only [full, String.append_right_inj] at same
      rw [same]
    | some name' =>
      simp only [full, String.append_assoc, String.append_right_inj] at same
      exact absurd (by simp [same, single]) clear
  | some name =>
    cases inner' with
    | none =>
      simp only [full, String.append_assoc, String.append_right_inj] at same
      exact absurd (by simp [← same, single]) clear'
    | some name' =>
      simp only [full, String.append_assoc, String.append_right_inj] at same
      simp only [← String.toList_inj, String.toList_append, single, List.singleton_append] at same
      have tops := congrArg (List.takeWhile (· ≠ sign)) same
      rw [takeWhile_sign clear, takeWhile_sign clear', String.toList_inj] at tops
      subst tops
      simpa [String.toList_inj] using same

def keys (outline : Outline) : List Key :=
  (outline.top.name, none) :: outline.nested.map (fun d => (outline.top.name, some d.name))

theorem key_fst {k : Key} (member : k ∈ outline.keys) : k.1 = outline.top.name := by
  rcases List.mem_cons.1 member with rfl | inner
  · rfl
  · obtain ⟨d, -, rfl⟩ := List.mem_map.1 inner
    rfl

theorem keys_nodup (sound : outline.Sound) : outline.keys.Nodup := by
  refine List.nodup_cons.2 ⟨by simp, ?_⟩
  have distinct := sound.distinct.map (f := fun name => (outline.top.name, some name)) fun _ _ same => by
    simpa using same
  rwa [List.map_map] at distinct

theorem allKeys_nodup (sound : ∀ outline ∈ outlines, outline.Sound)
    (distinct : (outlines.map (·.top.name)).Nodup) : (outlines.flatMap keys).Nodup := by
  refine List.nodup_flatMap.2 ⟨fun outline member => keys_nodup (sound outline member), ?_⟩
  refine (List.pairwise_map.1 distinct).imp fun {o p} apart => ?_
  intro k here there
  exact apart ((key_fst here).symm.trans (key_fst there))

variable {packages : List String}

theorem named_qualified (outline : Outline) :
    (outline.named packages).map (·.qualified) = outline.keys.map (Key.full (front "." packages) ".") := by
  simp [named, keys, nameTop, nameNested, intercalate_front, Key.full]

theorem named_internalName (outline : Outline) :
    (outline.named packages).map (·.internalName) = outline.keys.map (Key.full (front "/" packages) "$") := by
  simp [named, keys, nameTop, nameNested, intercalate_front, Key.full]

end Outline

variable {packages : List String} {before : List Decl} {d : Decl} {after : List Decl} {program : Program}

namespace Decl

-- Where a declaration stands among those found before it: on its own, or behind the class or interface that
-- encloses it, whose names its own extend.
inductive PlacedAfter (packages : List String) (before : List Decl) (d : Decl) : Prop
  | top (outermost : d.outer = none) (qualified : d.qualified = ".".intercalate (packages ++ [d.name]))
      (internal : d.internalName = "/".intercalate (packages ++ [d.name]))
  | nested {top : Decl} (member : top ∈ before) (outermost : top.outer = none) (encloses : top.shape.Encloses)
      (outer : d.outer = some top.qualified) (qualified : d.qualified = top.qualified ++ "." ++ d.name)
      (internal : d.internalName = top.internalName ++ "$" ++ d.name)

theorem PlacedAfter.mono (more : List Decl)
    (placed : d.PlacedAfter packages before) : d.PlacedAfter packages (more ++ before) := by
  cases placed with
  | top outermost qualified internal => exact .top outermost qualified internal
  | nested member outermost encloses outer qualified internal =>
    exact .nested (List.mem_append_right _ member) outermost encloses outer qualified internal

end Decl

namespace Outline

theorem named_placed (sound : outline.Sound)
    (cut : outline.named packages = before ++ d :: after) :
    d.PlacedAfter packages before := by
  cases before with
  | nil =>
    obtain ⟨rfl, -⟩ := List.cons.inj cut
    exact .top sound.outermost rfl rfl
  | cons top before =>
    obtain ⟨rfl, inner⟩ := List.cons.inj cut
    have member : d ∈ outline.nested.map (nameNested (nameTop packages outline.top)) := by simp [inner]
    obtain ⟨e, found, rfl⟩ := List.mem_map.1 member
    exact .nested List.mem_cons_self sound.outermost (sound.encloses e found) rfl rfl rfl

theorem allNamed_placed (sound : ∀ outline ∈ outlines, outline.Sound)
    (cut : outlines.flatMap (named packages) = before ++ d :: after) : d.PlacedAfter packages before := by
  induction outlines generalizing before with
  | nil => simp at cut
  | cons outline rest ih =>
    rw [List.flatMap_cons, List.append_eq_append_iff] at cut
    -- the declaration is one of the rest, or one of the first outline
    rcases cut with ⟨more, rfl, later⟩ | ⟨more, here, later⟩
    · exact (ih (fun o member => sound o (List.mem_cons_of_mem _ member)) later).mono _
    · cases more with
      | nil =>
        have placed : d.PlacedAfter packages [] :=
          ih (fun o member => sound o (List.mem_cons_of_mem _ member)) later.symm
        simpa using placed.mono before
      | cons e more =>
        obtain ⟨rfl, -⟩ := List.cons.inj later
        exact named_placed (sound outline List.mem_cons_self) here

end Outline

namespace Program

theorem repeated_eq_none {seen : List String} (distinct : (program.map (·.qualified)).Nodup)
    (unseen : ∀ d ∈ program, d.qualified ∉ seen) : program.repeated? seen = none := by
  induction program generalizing seen with
  | nil => rfl
  | cons d rest ih =>
    obtain ⟨new, distinct⟩ := List.nodup_cons.1 distinct
    rw [repeated?, if_neg (unseen d List.mem_cons_self)]
    refine ih distinct fun e member => ?_
    rw [List.mem_cons, not_or]
    exact ⟨fun same => new (List.mem_map.2 ⟨e, member, same⟩), unseen e (List.mem_cons_of_mem _ member)⟩

theorem findInternal_of_nodup (distinct : (program.map (·.internalName)).Nodup)
    (member : d ∈ program) : program.findInternal? d.internalName = some d := by
  cases found : program.findInternal? d.internalName with
  | none => exact absurd (List.find?_eq_none.1 found d member) (by simp)
  | some e =>
    have same : e.internalName = d.internalName := by simpa using List.find?_some found
    rw [List.inj_on_of_nodup_map distinct (List.mem_of_find?_eq_some found) member same]

-- The declarations of a file have qualified names of their own and internal names of their own. Each of them
-- stands behind the class or interface around it, if there is one. So none is a redefinition, and each is found
-- by its internal name.
theorem parse_names_unique {path : SourcePath} {source : String} {program : Program}
    (h : parse path source = .ok program) :
    (program.map (·.qualified)).Nodup ∧ (program.map (·.internalName)).Nodup ∧
      (∃ packages, packages ⊆ path.directory ++ [path.stem] ∧
        ∀ before d after, program = before ++ d :: after → d.PlacedAfter packages before) ∧
      program.checkDistinct = .ok program ∧
      ∀ d ∈ program, program.findInternal? d.internalName = some d := by
  obtain ⟨file, outlines, rfl, sound, distinct⟩ := parse_outlines h
  have keys := Outline.allKeys_nodup sound distinct
  have word : ∀ k ∈ outlines.flatMap Outline.keys, IsWord k.1 := by
    intro k member
    obtain ⟨outline, found, inside⟩ := List.mem_flatMap.1 member
    rw [Outline.key_fst inside]
    exact (sound outline found).top.word
  have full (front separator : String) {sign : Char} (single : separator.toList = [sign])
      (other : Lexeme.isWordPart sign = false) :
      ((outlines.flatMap Outline.keys).map (Outline.Key.full front separator)).Nodup :=
    keys.map_on fun k member l member' same =>
      Outline.Key.full_inj single ((word k member).not_mem other) ((word l member').not_mem other) same
  have qualified : ((ofOutlines path file outlines).map (·.qualified)).Nodup := by
    have names := full (Outline.front "." (Outline.packages path outlines)) "." rfl (by decide)
    rw [List.map_flatMap] at names
    simpa only [ofOutlines, List.map_map, List.map_flatMap, Outline.named_qualified, Function.comp_def] using names
  have internal : ((ofOutlines path file outlines).map (·.internalName)).Nodup := by
    have names := full (Outline.front "/" (Outline.packages path outlines)) "$" rfl (by decide)
    rw [List.map_flatMap] at names
    simpa only [ofOutlines, List.map_map, List.map_flatMap, Outline.named_internalName, Function.comp_def] using names
  refine ⟨qualified, internal, ⟨_, Outline.packages_subset path outlines, fun before d after cut => ?_⟩, ?_,
    fun d => findInternal_of_nodup internal⟩
  · obtain ⟨front, tail, whole, rfl, last⟩ := List.map_eq_append_iff.1 cut
    obtain ⟨e, _, rfl, rfl, -⟩ := List.map_eq_cons_iff.1 last
    cases Outline.allNamed_placed sound whole with
    | top outermost qualified internal => exact .top outermost qualified internal
    | nested member outermost encloses outer qualified internal =>
      exact .nested (List.mem_map_of_mem member) outermost encloses outer qualified internal
  · rw [checkDistinct, repeated_eq_none qualified (by simp)]

theorem parse_names_unique_nested : ∃ program,
    parse ⟨"F.k"⟩ ("\n".intercalate ["class A \x7b", "class B \x7b", "\x7d", "\x7d",
      "interface B \x7b", "class B \x7b", "\x7d", "\x7d"]) = .ok program ∧
      program.map (·.name) = ["A", "B", "B", "B"] ∧ (program.map (·.qualified)).Nodup ∧
      program.checkDistinct = .ok program := by
  generalize written : "\n".intercalate _ = source
  have run : (parse ⟨"F.k"⟩ source).toOption.map (List.map (·.name)) = some ["A", "B", "B", "B"] := by
    rw [← written]
    decide +kernel
  obtain ⟨program, parsed, named⟩ := Option.map_eq_some_iff.1 run
  have parsed := toOption_eq_some.1 parsed
  obtain ⟨qualified, -, -, distinct, -⟩ := parse_names_unique parsed
  exact ⟨program, parsed, named, qualified, distinct⟩

end Program

end ClassForge
