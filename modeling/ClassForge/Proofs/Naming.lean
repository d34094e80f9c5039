import ClassForge.Proofs.DeclarationReading
import ClassForge.Proofs.Reviewed
import ClassForge.Session

set_option autoImplicit false

namespace ClassForge

open Text (SourcePath)

theorem IsWord.not_mem {name : String} (word : IsWord name) {c : Char} (other : Lexeme.isWordPart c = false) :
    c ∉ name.toList := by
  intro member
  rw [word.2 c member] at other
  cases other

-- How a declaration is named, when `dots` and `slashes` stand in front of the top-level names.
inductive Decl.NamedUnder (dots slashes : String) (d : Decl) : Prop
  | top (qualified : d.qualified = dots ++ d.name) (internal : d.internalName = slashes ++ d.name)
  | nested {outer : String} (word : IsWord outer)
      (qualified : d.qualified = dots ++ outer ++ "." ++ d.name)
      (internal : d.internalName = slashes ++ outer ++ "$" ++ d.name)

namespace Outline

def front (separator : String) : List String → String
  | [] => ""
  | p :: ps => separator.intercalate (p :: ps) ++ separator

theorem intercalate_front (separator name : String) (packages : List String) :
    separator.intercalate (packages ++ [name]) = front separator packages ++ name := by
  cases packages with
  | nil => simp [front]
  | cons p ps => rw [String.intercalate_append_of_ne_nil (by simp) (by simp), String.intercalate_singleton, front]

theorem packages_subset (path : SourcePath) (outlines : List Outline) :
    packages path outlines ⊆ path.directory ++ [path.stem] := by
  unfold packages
  split
  · split_ifs
    · exact List.subset_append_left _ _
    · exact List.Subset.refl _
  · exact List.Subset.refl _

theorem named_under {packages : List String} {outline : Outline} (sound : outline.Sound) {d : Decl}
    (member : d ∈ outline.named packages) : d.Sound ∧ d.NamedUnder (front "." packages) (front "/" packages) := by
  unfold named at member
  rcases List.mem_cons.1 member with rfl | member
  · exact ⟨⟨sound.top.word, sound.top.fields, sound.top.methods, sound.top.constructors,
      sound.top.components, sound.top.typed⟩, .top (intercalate_front _ _ _) (intercalate_front _ _ _)⟩
  · obtain ⟨inner, found, rfl⟩ := List.mem_map.1 member
    have known := sound.nested inner found
    refine ⟨⟨known.word, known.fields, known.methods, known.constructors, known.components, known.typed⟩,
      .nested sound.top.word ?_ ?_⟩
    · simp only [nameNested, nameTop, intercalate_front]
    · simp only [nameNested, nameTop, intercalate_front]

end Outline

namespace Decl

variable {dots slashes : String} {d e : Decl}

theorem NamedUnder.qualified_eq (named : d.NamedUnder dots slashes) (other : e.NamedUnder dots slashes)
    (word : IsWord d.name) (word' : IsWord e.name) (same : d.internalName = e.internalName) :
    d.qualified = e.qualified := by
  have dollar {name : String} (word : IsWord name) : '$' ∉ name.toList := word.not_mem (by decide)
  cases named with
  | top qualified internal =>
    cases other with
    | top qualified' internal' =>
      rw [internal, internal', String.append_right_inj] at same
      rw [qualified, qualified', same]
    | nested outer qualified' internal' =>
      rw [internal, internal', String.append_assoc, String.append_assoc, String.append_right_inj] at same
      exact absurd (by simp [same]) (dollar word)
  | nested outer qualified internal =>
    cases other with
    | top qualified' internal' =>
      rw [internal, internal', String.append_assoc, String.append_assoc, String.append_right_inj] at same
      exact absurd (by simp [← same]) (dollar word')
    | nested outer' qualified' internal' =>
      simp only [internal, internal', String.append_assoc, String.append_right_inj] at same
      simp only [← String.toList_inj, String.toList_append] at same
      obtain ⟨sameOuter, -, sameName⟩ :=
        (List.append_cons_inj_of_notMem (dollar outer') (dollar word')).1 same.symm
      rw [qualified, qualified', String.toList_inj.1 sameOuter, String.toList_inj.1 sameName]

theorem NamedUnder.of_header (named : d.NamedUnder dots slashes) (same : e.toHeader = d.toHeader) :
    e.NamedUnder dots slashes := by
  cases named with
  | top qualified internal => exact .top (by rw [same, qualified]) (by rw [same, internal])
  | nested word qualified internal =>
    exact .nested word (by rw [same, qualified]) (by rw [same, internal])

theorem Sound.complete (sound : d.Sound) : (Review.complete d).Sound := by
  refine ⟨?_, ?_, ?_, ?_, ?_, ?_⟩
  · rw [Review.complete_header]
    exact sound.word
  · rw [Review.complete_fields]
    exact sound.fields
  · rw [Review.complete_methods]
    exact sound.methods
  · intro body shape c member
    unfold Review.complete at shape
    split at shape
    next body' shape' =>
      split_ifs at shape with empty
      · cases shape
        rw [List.mem_singleton.1 member]
        exact ⟨rfl, List.nodup_nil⟩
      · exact sound.constructors body shape c member
    next => exact sound.constructors body shape c member
  · intro fields shape
    unfold Review.complete at shape
    split at shape
    next shape' =>
      split_ifs at shape
      exact sound.components fields shape
    next => exact sound.components fields shape
  · intro body shape f member
    unfold Review.complete at shape
    split at shape
    next body' shape' =>
      split_ifs at shape with empty
      · cases shape
        exact sound.typed body' shape' f member
      · exact sound.typed body shape f member
    next => exact sound.typed body shape f member

end Decl

variable {path : SourcePath} {source : String} {program : Program}

namespace Program

theorem parse_outlines (h : parse path source = .ok program) :
    ∃ file outlines, program = ofOutlines path file outlines ∧ (∀ outline ∈ outlines, outline.Sound) ∧
      (outlines.map (·.top.name)).Nodup := by
  simp only [parse, bind_eq_ok, pure_eq_ok] at h
  obtain ⟨lines, tokenized, ⟨file, rest⟩, used, outlines, declared, rfl⟩ := h
  have sound :=
    Grammar.declarations_sound ((TokenLine.ofSource_read tokenized).subset (Grammar.uses_subset used)) declared
  exact ⟨file, outlines, rfl, fun outline member => (sound.known outline member).2, sound.distinct⟩

theorem parse_named (h : parse path source = .ok program) :
    ∃ packages, packages ⊆ path.directory ++ [path.stem] ∧ ∀ d ∈ program,
      d.Sound ∧ d.NamedUnder (Outline.front "." packages) (Outline.front "/" packages) := by
  obtain ⟨file, outlines, rfl, sound, -⟩ := parse_outlines h
  refine ⟨Outline.packages path outlines, Outline.packages_subset path outlines, fun d member => ?_⟩
  obtain ⟨e, member', rfl⟩ := List.mem_map.1 member
  obtain ⟨outline, found, inside⟩ := List.mem_flatMap.1 member'
  obtain ⟨known, named⟩ := Outline.named_under (sound outline found) inside
  refine ⟨⟨known.word, known.fields, known.methods, known.constructors, known.components, known.typed⟩, ?_⟩
  cases named with
  | top qualified internal => exact .top qualified internal
  | nested word qualified internal => exact .nested word qualified internal

theorem repeated_none {seen : List String} (h : program.repeated? seen = none) :
    (program.map (·.qualified)).Nodup ∧ ∀ d ∈ program, d.qualified ∉ seen := by
  induction program generalizing seen with
  | nil => simp
  | cons d rest ih =>
    unfold repeated? at h
    split_ifs at h with known
    obtain ⟨distinct, unseen⟩ := ih h
    refine ⟨List.nodup_cons.2 ⟨?_, distinct⟩, ?_⟩
    · simp only [List.mem_map, not_exists, not_and]
      intro e member same
      exact unseen e member (by simp [same])
    · intro e member
      rcases List.mem_cons.1 member with rfl | member
      · exact known
      · exact fun old => unseen e member (List.mem_cons_of_mem _ old)

theorem checkDistinct_eq_ok {result : Program} (h : program.checkDistinct = .ok result) :
    result = program ∧ (program.map (·.qualified)).Nodup := by
  unfold checkDistinct at h
  split at h
  next none =>
    cases h
    exact ⟨rfl, (repeated_none none).1⟩
  next => cases h

structure Accepted (packages : List String) (program : Program) : Prop where
  sound : ∀ d ∈ program, d.Sound
  named : ∀ d ∈ program, d.NamedUnder (Outline.front "." packages) (Outline.front "/" packages)
  distinct : (program.map (·.qualified)).Nodup
  checked : ∀ d ∈ program, Review.Checked program d

theorem ofSource_accepted (h : ofSource path source = .ok program) :
    ∃ packages, packages ⊆ path.directory ++ [path.stem] ∧ program.Accepted packages := by
  simp only [ofSource, bind_eq_ok] at h
  obtain ⟨raw, parsed, _, distinct, reviewed⟩ := h
  obtain ⟨rfl, distinct⟩ := checkDistinct_eq_ok distinct
  obtain ⟨packages, among, known⟩ := parse_named parsed
  obtain ⟨rfl, checked⟩ := review_eq_ok reviewed
  refine ⟨packages, among, ?_, ?_, ?_, checked⟩
  · intro d member
    obtain ⟨e, member', rfl⟩ := List.mem_map.1 member
    exact (known e member').1.complete
  · intro d member
    obtain ⟨e, member', rfl⟩ := List.mem_map.1 member
    exact (known e member').2.of_header (Review.complete_header e)
  · rw [List.map_map]
    convert distinct using 2
    funext e
    simp [Review.complete_header]

namespace Accepted

variable {packages : List String} {program : Program} {d e : Decl}

theorem eq_of_internalName (accepted : program.Accepted packages) (member : d ∈ program) (other : e ∈ program)
    (same : d.internalName = e.internalName) : d = e :=
  List.inj_on_of_nodup_map accepted.distinct member other <|
    (accepted.named d member).qualified_eq (accepted.named e other) (accepted.sound d member).word
      (accepted.sound e other).word same

theorem findInternal (accepted : program.Accepted packages) (member : d ∈ program) :
    program.findInternal? d.internalName = some d := by
  cases found : program.findInternal? d.internalName with
  | none =>
    have none := List.find?_eq_none.1 found d member
    simp at none
  | some e =>
    have same : e.internalName = d.internalName := by simpa using List.find?_some found
    rw [accepted.eq_of_internalName (List.mem_of_find?_eq_some found) member same]

end Accepted

end Program

end ClassForge
