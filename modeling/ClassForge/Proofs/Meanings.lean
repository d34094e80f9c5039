import ClassForge.Decl.Naming
import ClassForge.Proofs.Steps

set_option autoImplicit false

namespace ClassForge

open Text (SourcePath)

namespace Uses

theorem find?_insert (uses : Uses) (short full other : String) :
    (uses.insert short full).find? other = if other = short then some full else uses.find? other := by
  induction uses with
  | nil => by_cases same : other = short <;> simp [insert, find?, List.lookup, same]
  | cons entry rest ih =>
    obtain ⟨name, old⟩ := entry
    unfold find? at ih
    by_cases first : name = short
    · by_cases same : other = short
      · simp [insert, find?, first, same]
      · simp [insert, find?, List.lookup, first, same, beq_false_of_ne same]
    · by_cases here : other = name
      · simp [insert, find?, List.lookup, first, here]
      · simp [insert, find?, List.lookup, first, beq_false_of_ne here, ih]

theorem find?_foldl_insert (entries uses : Uses) (name : String) :
    (entries.foldl (fun uses (short, full) => uses.insert short full) uses).find? name =
      (find? entries.reverse name).or (uses.find? name) := by
  induction entries generalizing uses with
  | nil => rfl
  | cons entry rest ih =>
    obtain ⟨short, full⟩ := entry
    rw [List.foldl_cons, ih, find?_insert]
    simp only [find?, List.reverse_cons, List.lookup_append]
    by_cases same : name = short
    · simp [same]
    · simp [same, beq_false_of_ne same]

theorem find?_map {α : Type} (short full : α → String) (xs : List α) (name : String) :
    find? (xs.map fun x => (short x, full x)) name = (xs.find? fun x => short x = name).map full := by
  induction xs with
  | nil => rfl
  | cons x rest ih =>
    unfold find? at ih ⊢
    by_cases same : short x = name
    · simp [same]
    · simp [List.lookup_cons, beq_false_of_ne (Ne.symm same), same, ih]

theorem find?_reverse_eq_none {uses : Uses} {name : String} (unknown : uses.find? name = none) :
    find? uses.reverse name = none := by
  simp only [find?, List.lookup_eq_none_iff, List.mem_reverse] at unknown ⊢
  exact unknown

end Uses

namespace Program

def lastNamed? (program : Program) (scope name : String) : Option Decl :=
  program.reverse.find? fun e => e.isVisibleIn scope && e.name = name

theorem find?_usesIn (program : Program) (fileUses : Uses) (d : Decl) (name : String) :
    (usesIn program fileUses d).find? name =
      ((Uses.find? fileUses.reverse name).or ((program.lastNamed? d.scopeName name).map (·.qualified))).or
        (Uses.find? Platform.implicitUses name) := by
  unfold usesIn lastNamed?
  rw [Uses.find?_foldl_insert, List.reverse_append]
  simp only [Uses.find?, List.lookup_append, ← List.map_reverse, ← List.filter_reverse]
  have declared := Uses.find?_map (·.name) (·.qualified) (program.reverse.filter (·.isVisibleIn d.scopeName)) name
  rw [Uses.find?, List.find?_filter] at declared
  simp only [declared, Bool.decide_and, Bool.decide_eq_true]

theorem lastNamed?_append (before after : Program) (scope name : String) :
    lastNamed? (before ++ after) scope name = (lastNamed? after scope name).or (lastNamed? before scope name) := by
  unfold lastNamed?
  rw [List.reverse_append, List.find?_append]

def useLines (path : SourcePath) (source : String) : Except CompileError Grammar.FileUses := do
  let lines ← TokenLine.ofSource path source
  let (file, _) ← Grammar.uses path {} lines
  return file

theorem parse_uses {path : SourcePath} {source : String} {program : Program} {file : Grammar.FileUses}
    (parsed : parse path source = .ok program) (used : useLines path source = .ok file) :
    ∃ bare : Program, program =
      bare.map fun d => { d with uses := usesIn bare file.uses d, staticUses := file.statics } := by
  simp only [parse, useLines, bind_eq_ok, pure_eq_ok] at parsed used
  obtain ⟨lines, read, ⟨file', rest⟩, found, outlines, -, rfl⟩ := parsed
  obtain ⟨_, read', ⟨_, _⟩, found', rfl⟩ := used
  rw [read] at read'
  cases read'
  rw [found] at found'
  cases found'
  exact ⟨_, rfl⟩

theorem lastNamed?_map (bare : Program) (uses : Decl → Uses) (statics : List String) (scope name : String) :
    (lastNamed? (bare.map fun d => { d with uses := uses d, staticUses := statics }) scope name).map (·.qualified) =
      (lastNamed? bare scope name).map (·.qualified) := by
  unfold lastNamed?
  rw [← List.map_reverse, List.find?_map, Option.map_map]
  rfl

-- Inside the declaration that encloses it, and inside all that is nested there, the name of a nested
-- declaration that no use line brings in means the last of the declarations visible there that stand after it
-- and are called the same, or else the nested declaration itself.
theorem parse_uses_nested {path : SourcePath} {source : String} {program before after : Program}
    {file : Grammar.FileUses} {d n : Decl} (parsed : parse path source = .ok program)
    (used : useLines path source = .ok file) (member : d ∈ program) (cut : program = before ++ n :: after)
    (nested : n.outer = some d.scopeName) (free : file.uses.find? n.name = none) :
    d.uses.find? n.name = some ((lastNamed? after d.scopeName n.name).getD n).qualified := by
  obtain ⟨bare, all⟩ := parse_uses parsed used
  obtain ⟨e, -, rfl⟩ := List.mem_map.1 (all ▸ member)
  have visible : n.isVisibleIn e.scopeName = true := by
    have same : n.outer = some e.scopeName := nested
    simp [Decl.isVisibleIn, same]
  have meant : (lastNamed? bare e.scopeName n.name).map (·.qualified) =
      some ((lastNamed? after e.scopeName n.name).getD n).qualified := by
    rw [← lastNamed?_map bare (usesIn bare file.uses) file.statics, ← all, cut, List.append_cons,
      lastNamed?_append, lastNamed?_append]
    have alone : lastNamed? [n] e.scopeName n.name = some n := by simp [lastNamed?, visible]
    rw [alone]
    cases lastNamed? after e.scopeName n.name <;> rfl
  change (usesIn bare file.uses e).find? n.name = _
  rw [find?_usesIn, Uses.find?_reverse_eq_none free, meant]
  rfl

theorem parse_uses_nested_twice : ∃ program,
    parse ⟨"F.k"⟩ ("\n".intercalate ["class A \x7b", "class X \x7b", "\x7d", "\x7d",
      "class C \x7b", "class X \x7b", "\x7d", "\x7d",
      "class B \x7b", "private class X \x7b", "\x7d", "\x7d"]) = .ok program ∧
      ∃ d ∈ program, d.qualified = "F.A" ∧ d.uses.find? "X" = some "F.C.X" := by
  generalize written : "\n".intercalate _ = source
  have run : (parse ⟨"F.k"⟩ source).toOption.map (List.map fun d =>
        (d.name, d.qualified, d.outer, d.modifier.access)) =
      some [("A", "F.A", none, .package), ("X", "F.A.X", some "F.A", .package),
        ("C", "F.C", none, .package), ("X", "F.C.X", some "F.C", .package),
        ("B", "F.B", none, .package), ("X", "F.B.X", some "F.B", .declarer)] ∧
      (useLines ⟨"F.k"⟩ source).toOption.map (·.uses) = some [] := by
    rw [← written]
    decide +kernel
  simp only [Option.map_eq_some_iff, toOption_eq_some, List.map_eq_cons_iff, List.map_eq_nil_iff, Prod.mk.injEq] at run
  obtain ⟨⟨_, parsed, a, _, rfl, ⟨-, qualified, top, -⟩, x, _, rfl, ⟨name, -, outer, -⟩, c, _, rfl, -, y, _, rfl,
    ⟨same, last, within, seen⟩, b, _, rfl, ⟨other, -⟩, z, _, rfl, ⟨-, -, within', hidden⟩, rfl⟩,
    file, used, unused⟩ := run
  have scope : a.scopeName = "F.A" := by simp [Decl.scopeName, qualified, top]
  refine ⟨_, parsed, a, List.mem_cons_self, qualified, ?_⟩
  have cut : a :: x :: c :: y :: b :: [z] = [a] ++ x :: c :: y :: b :: [z] := rfl
  have meant := parse_uses_nested parsed used (d := a) List.mem_cons_self cut
    (by rw [outer, scope]) (by rw [unused]; rfl)
  rw [name] at meant
  rw [meant]
  simp [lastNamed?, Decl.isVisibleIn, scope, same, within, within', hidden, seen, last, other]

end Program

end ClassForge
