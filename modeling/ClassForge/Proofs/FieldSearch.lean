import ClassForge.Proofs.Erasure
import ClassForge.Proofs.Lookup

set_option autoImplicit false

namespace ClassForge

variable {d : Decl}

theorem Decl.mem_parents_of_superclass {superclass : TypeName} (extended : d.superclass? = some superclass) :
    superclass ∈ d.parents := by
  simp only [superclass?, classBody?, Option.bind_eq_some_iff] at extended
  obtain ⟨body, found, extended⟩ := extended
  split at found
  next shape =>
    cases found
    simp [parents, shape, extended]
  next => cases found

variable {steps : Nat} {owner : String} {start : Option Decl}

namespace Program

variable {raw program : Program} {name : String}

def superclassOf? (program : Program) (d : Decl) : Option Decl := do
  let superclass ← d.superclass?
  let parent ← ((program.scopeOf d).internalName superclass).toOption
  program.findInternal? parent

def lineage (program : Program) : (steps : Nat) → Option Decl → List Decl
  | 0, _ => []
  | _ + 1, none => []
  | steps + 1, some d => d :: lineage program steps (program.superclassOf? d)

inductive Finds (program : Program) (name : String) : (owner : String) → (visited : List Decl) →
    Option FieldTarget → Prop
  | undeclared {owner : String} (unknown : program.findInternal? owner = none) : Finds program name owner [] none
  | own {owner : String} {d : Decl} {field : FieldTarget} (found : program.findInternal? owner = some d)
      (has : program.ownField? d name = .ok (some field)) : Finds program name owner [d] (some field)
  | top {owner : String} {d : Decl} (found : program.findInternal? owner = some d)
      (lacks : program.ownField? d name = .ok none) (root : d.superclass? = none) : Finds program name owner [d] none
  | inherited {owner parent : String} {d : Decl} {superclass : TypeName} {visited : List Decl}
      {answer : Option FieldTarget} (found : program.findInternal? owner = some d)
      (lacks : program.ownField? d name = .ok none) (extended : d.superclass? = some superclass)
      (resolved : (program.scopeOf d).internalName superclass = .ok parent)
      (rest : Finds program name parent visited answer) : Finds program name owner (d :: visited) answer

namespace Finds

variable {owner : String} {visited : List Decl} {answer : Option FieldTarget}

variable (finds : program.Finds name owner visited answer)
include finds

theorem unique {others : List Decl} {other : Option FieldTarget}
    (again : program.Finds name owner others other) : others = visited ∧ other = answer := by
  induction finds generalizing others other with
  | undeclared unknown | own found has | top found lacks root => cases again <;> simp_all
  | inherited found lacks extended resolved _ ih =>
    cases again with
    | undeclared unknown | own found' has | top found' lacks' root => simp_all
    | inherited found' lacks' extended' resolved' rest =>
      rw [found] at found'
      cases found'
      rw [extended] at extended'
      cases extended'
      rw [resolved] at resolved'
      cases resolved'
      obtain ⟨rfl, rfl⟩ := ih rest
      exact ⟨rfl, rfl⟩

theorem of_mem (member : d ∈ visited) :
    ∃ before after, visited = before ++ d :: after ∧ program.Finds name d.internalName (d :: after) answer := by
  induction finds with
  | undeclared => cases member
  | own found has =>
    cases List.mem_singleton.1 member
    exact ⟨[], [], rfl, .own (internalName_of_found found ▸ found) has⟩
  | top found lacks root =>
    cases List.mem_singleton.1 member
    exact ⟨[], [], rfl, .top (internalName_of_found found ▸ found) lacks root⟩
  | @inherited owner parent e superclass visited answer found lacks extended resolved rest ih =>
    rcases List.mem_cons.1 member with rfl | later
    · exact ⟨[], visited, rfl, .inherited (internalName_of_found found ▸ found) lacks extended resolved rest⟩
    · obtain ⟨before, after, rfl, onward⟩ := ih later
      exact ⟨e :: before, after, rfl, onward⟩

theorem nodup : visited.Nodup := by
  induction finds with
  | undeclared => exact List.nodup_nil
  | own | top => exact List.nodup_singleton _
  | @inherited owner parent d superclass visited answer found lacks extended resolved rest ih =>
    refine List.nodup_cons.2 ⟨fun again => ?_, ih⟩
    obtain ⟨before, after, rfl, onward⟩ := rest.of_mem again
    have whole := Finds.inherited (internalName_of_found found ▸ found) lacks extended resolved rest
    have same := congrArg List.length (whole.unique onward).1
    simp only [List.length_cons, List.length_append] at same
    omega

theorem subset : visited ⊆ program := by
  induction finds with
  | undeclared => exact List.nil_subset _
  | own found | top found => exact List.cons_subset.2 ⟨mem_of_findInternal found, List.nil_subset _⟩
  | inherited found _ _ _ _ ih => exact List.cons_subset.2 ⟨mem_of_findInternal found, ih⟩

theorem searchField {fuel : Nat} (enough : visited.length < fuel) :
    program.searchField name fuel owner = .ok answer := by
  induction finds generalizing fuel with
  | undeclared unknown =>
    obtain ⟨fuel, rfl⟩ := Nat.exists_eq_succ_of_ne_zero (Nat.ne_zero_of_lt enough)
    simp [Program.searchField, unknown]
  | own found has =>
    obtain ⟨fuel, rfl⟩ := Nat.exists_eq_succ_of_ne_zero (Nat.ne_zero_of_lt enough)
    simp [Program.searchField, found, has]
  | top found lacks root =>
    obtain ⟨fuel, rfl⟩ := Nat.exists_eq_succ_of_ne_zero (Nat.ne_zero_of_lt enough)
    simp [Program.searchField, found, lacks, root]
  | inherited found lacks extended resolved _ ih =>
    obtain ⟨fuel, rfl⟩ := Nat.exists_eq_succ_of_ne_zero (Nat.ne_zero_of_lt enough)
    rw [List.length_cons, Nat.succ_lt_succ_iff] at enough
    have shorter := ih enough
    simp [Program.searchField, found, lacks, extended, resolved, shorter]

theorem findField : program.findField owner name = .ok answer :=
  finds.searchField (Nat.lt_succ_of_le (finds.nodup.subperm finds.subset).length_le)

end Finds

theorem findInternal_of_lineage
    (found : ∀ d ∈ start, program.findInternal? d.internalName = some d) (member : d ∈ program.lineage steps start) :
    program.findInternal? d.internalName = some d := by
  fun_induction lineage program steps start with
  | case1 | case2 => cases member
  | case3 steps e ih =>
    rcases List.mem_cons.1 member with rfl | later
    · exact found d rfl
    · refine ih (fun next above => ?_) later
      simp only [superclassOf?, Option.mem_def, Option.bind_eq_bind, Option.bind_eq_some_iff] at above
      obtain ⟨_, -, parent, -, found⟩ := above
      exact internalName_of_found found ▸ found

theorem lineage_found (member : d ∈ program.lineage steps (program.findInternal? owner)) :
    program.findInternal? d.internalName = some d :=
  findInternal_of_lineage (fun _ found => internalName_of_found found ▸ found) member

theorem nodup_internalNames_lineage :
    ((program.lineage steps (program.findInternal? owner)).map (·.internalName)).Nodup ↔
      (program.lineage steps (program.findInternal? owner)).Nodup := by
  refine ⟨List.Nodup.of_map _, fun distinct => distinct.map_on fun d member e member' same => ?_⟩
  have found := lineage_found member
  rw [same, lineage_found member'] at found
  exact (Option.some.inj found).symm

theorem lineage_of_ended (ended : (program.lineage steps start).length < steps)
    (others : Nat) : program.lineage others start = (program.lineage steps start).take others := by
  induction steps generalizing start others with
  | zero => cases ended
  | succ steps ih =>
    cases others with
    | zero => simp [lineage]
    | succ others =>
      cases start with
      | none => simp [lineage]
      | some d =>
        simp only [lineage, List.length_cons, Nat.add_lt_add_iff_right, List.take_succ_cons] at ended ⊢
        rw [ih ended]

theorem Finds.lineage_eq {visited : List Decl} {answer : Option FieldTarget}
    (finds : program.Finds name owner visited answer) (fresh : ∀ d ∈ program, program.ownField? d name = .ok none)
    (steps : Nat) : program.lineage steps (program.findInternal? owner) = visited.take steps := by
  induction finds generalizing steps with
  | undeclared unknown => cases steps <;> simp [lineage, unknown]
  | own found has => simp [fresh _ (mem_of_findInternal found)] at has
  | top found lacks root =>
    cases steps with
    | zero => simp [lineage]
    | succ steps => cases steps <;> simp [lineage, found, superclassOf?, root]
  | inherited found lacks extended resolved _ ih =>
    cases steps with
    | zero => simp [lineage]
    | succ steps => simp [lineage, found, superclassOf?, extended, resolved, Except.toOption, ih]

theorem exists_fresh (program : Program) : ∃ name, ∀ d ∈ program, program.ownField? d name = .ok none := by
  obtain ⟨name, unused⟩ := Infinite.exists_notMem_finset
    (List.flatMap (fun d : Decl => d.values ++ d.fields.map (·.name)) program).toFinset
  refine ⟨name, fun d declared => ?_⟩
  simp only [List.mem_toFinset, List.mem_flatMap, not_exists, not_and, List.mem_append, not_or] at unused
  obtain ⟨noValue, noField⟩ := unused d declared
  have missing : d.fields.find? (·.name = name) = none := by
    simp only [List.find?_eq_none, decide_eq_true_eq]
    exact fun f own same => noField (List.mem_map.2 ⟨f, own, same⟩)
  simp [ownField?, noValue, missing]

theorem exists_finds (reviewed : raw.review = .ok program) (name : String)
    (ends : (program.lineage steps (program.findInternal? owner)).length < steps) :
    ∃ visited answer, program.Finds name owner visited answer := by
  induction steps generalizing owner with
  | zero => cases ends
  | succ steps ih =>
    cases found : program.findInternal? owner with
    | none => exact ⟨_, _, .undeclared found⟩
    | some d =>
      have known := known_of_review reviewed (mem_of_findInternal found)
      have own : ∃ field, program.ownField? d name = .ok field := by
        unfold ownField?
        split_ifs
        · exact ⟨_, rfl⟩
        · split
          · exact ⟨_, rfl⟩
          next field has =>
            obtain ⟨type, typed, -⟩ :=
              known.grounded.exists_descriptor (known.fields field (List.mem_of_find?_eq_some has))
            rw [typed]
            exact ⟨_, rfl⟩
      obtain ⟨_ | field, has⟩ := own
      · cases extended : d.superclass? with
        | none => exact ⟨_, _, .top found has extended⟩
        | some superclass =>
          obtain ⟨type, typed, -⟩ :=
            known.grounded.exists_descriptor (known.parents superclass (Decl.mem_parents_of_superclass extended))
          have resolved : (program.scopeOf d).internalName superclass = .ok (type.className?.getD type.text) := by
            simp [Scope.internalName, typed]
          have shorter : (program.lineage steps
              (program.findInternal? (type.className?.getD type.text))).length < steps := by
            simpa [lineage, found, superclassOf?, extended, resolved, Except.toOption] using ends
          obtain ⟨visited, answer, rest⟩ := ih shorter
          exact ⟨_, _, .inherited found has extended resolved rest⟩
      · exact ⟨_, _, .own found has⟩

theorem finds_all_iff_lineage_nodup {raw program : Program} (reviewed : raw.review = .ok program) (owner : String) :
    ((∀ name, ∃ visited answer, program.Finds name owner visited answer) ↔
      ∀ steps, (program.lineage steps (program.findInternal? owner)).Nodup) ∧
    ∀ name visited answer, program.Finds name owner visited answer →
      visited.Nodup ∧ program.findField owner name = .ok answer := by
  refine ⟨⟨fun all steps => ?_, fun distinct name => ?_⟩, fun name visited answer finds =>
    ⟨finds.nodup, finds.findField⟩⟩
  · obtain ⟨name, fresh⟩ := program.exists_fresh
    obtain ⟨visited, answer, finds⟩ := all name
    rw [finds.lineage_eq fresh]
    exact finds.nodup.sublist (List.take_sublist _ _)
  · have inside : program.lineage (List.length program + 1) (program.findInternal? owner) ⊆ program :=
      fun d member => mem_of_findInternal (lineage_found member)
    exact exists_finds reviewed name (Nat.lt_succ_of_le ((distinct _).subperm inside).length_le)

theorem finds_all_iff_lineage_nodup_circle : ∃ raw program,
    parse ⟨"F.k"⟩ ("\n".intercalate ["class A extends B \x7b", "\x7d", "class B extends A \x7b", "\x7d",
      "class C \x7b", "int x", "\x7d", "class D extends C \x7b", "\x7d"]) = .ok raw ∧
      raw.review = .ok program ∧
      (∃ name, ∀ visited answer, ¬ program.Finds name "F/A" visited answer) ∧
      ∀ name, ∃ visited answer, program.Finds name "F/D" visited answer := by
  generalize written : "\n".intercalate _ = source
  have run : ((parse ⟨"F.k"⟩ source).toOption.bind (·.review.toOption)).map (fun program =>
        ((program.lineage 3 (program.findInternal? "F/A")).map (·.internalName),
          (program.lineage 3 (program.findInternal? "F/D")).map (·.internalName))) =
      some (["F/A", "F/B", "F/A"], ["F/D", "F/C"]) := by
    rw [← written]
    decide +kernel
  simp only [Option.map_eq_some_iff, Option.bind_eq_some_iff, toOption_eq_some, Prod.mk.injEq] at run
  obtain ⟨program, ⟨raw, parsed, reviewed⟩, circle, line⟩ := run
  refine ⟨raw, program, parsed, reviewed, ?_, ?_⟩
  · by_contra all
    push Not at all
    have distinct := (finds_all_iff_lineage_nodup reviewed "F/A").1.1 all 3
    rw [← nodup_internalNames_lineage, circle] at distinct
    exact absurd distinct (by decide)
  · refine (finds_all_iff_lineage_nodup reviewed "F/D").1.2 fun steps => ?_
    have ended : (program.lineage 3 (program.findInternal? "F/D")).length < 3 := by
      rw [← List.length_map (f := (·.internalName)), line]
      decide
    have distinct : (program.lineage 3 (program.findInternal? "F/D")).Nodup := by
      rw [← nodup_internalNames_lineage, line]
      decide
    rw [lineage_of_ended ended]
    exact distinct.sublist (List.take_sublist _ _)

end Program

end ClassForge
