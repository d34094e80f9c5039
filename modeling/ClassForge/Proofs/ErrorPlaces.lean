import ClassForge.Proofs.SourceLayout

set_option autoImplicit false

namespace ClassForge

open Text (SourcePath)

namespace TokenLine

theorem ofLines_numbers {path : SourcePath} {texts : List (List Char)} {done : List TokenLine} {first last : Nat}
    (room : last = first + texts.length) (start : 1 ≤ first)
    (before : ∀ line ∈ done, 1 ≤ line.number ∧ line.number < last) :
    match ofLines path done first texts with
    | .ok lines => ∀ line ∈ lines, 1 ≤ line.number ∧ line.number < last
    | .error e => ∃ line, e.location = some { path, line } ∧ 1 ≤ line ∧ line < last := by
  induction texts generalizing done first with
  | nil =>
    intro line member
    exact before line (List.mem_reverse.1 member)
  | cons cs rest ih =>
    rw [List.length_cons] at room
    unfold ofLines
    cases Token.tokenize cs with
    | error error => exact ⟨first, rfl, start, by omega⟩
    | ok tokens =>
      cases tokens with
      | nil => exact ih (by omega) (by omega) before
      | cons t more =>
        refine ih (by omega) (by omega) (List.forall_mem_cons.2 ⟨?_, before⟩)
        exact ⟨start, by dsimp only; omega⟩

theorem ofSource_numbers (path : SourcePath) (source : String) :
    match ofSource path source with
    | .ok lines => ∀ line ∈ lines, 1 ≤ line.number ∧ line.number < 1 + (Text.lines source).length
    | .error e => ∃ line, e.location = some { path, line } ∧ 1 ≤ line ∧ line < 1 + (Text.lines source).length :=
  ofLines_numbers rfl (Nat.le_refl 1) (by simp)

end TokenLine

theorem compileLines_error_line {options : Options} {path : SourcePath} {lines : List TokenLine} {e : CompileError}
    {location : Location} (read : TokenLine.AllRead lines) (failed : compileLines options path lines = .error e)
    (place : e.location = some location) : location.path = path ∧ ∃ line ∈ lines, line.number = location.line := by
  -- The numbers of the lines stay, all others change.
  let f (n : Nat) : Nat := if n ∈ lines.map TokenLine.number then n else n + 1
  have same : lines.map (TokenLine.moved f) = lines.map (TokenLine.moved id) := by
    refine List.map_congr_left fun line member => ?_
    unfold TokenLine.moved
    rw [show f line.number = id line.number from if_pos (List.mem_map_of_mem member)]
  have moved := compileLines_moved f options path read
  have kept := compileLines_moved id options path read
  rw [failed] at moved kept
  rw [same] at moved
  generalize compileLines options path (lines.map (TokenLine.moved id)) = result at moved kept
  cases moved with
  | error first =>
    cases kept with
    | error second =>
      refine ⟨first.inside location place, ?_⟩
      have lines : f location.line = location.line := by
        have places := first.location.symm.trans second.location
        rw [place] at places
        exact congrArg Location.line (Option.some.inj places)
      by_contra missing
      rw [show f location.line = location.line + 1 from if_neg (by simpa using missing)] at lines
      omega

def readLines (path : SourcePath) (lines : List TokenLine) : Except CompileError Program := do
  let program ← Program.ofLines path lines
  let program ← program.checkDistinct
  program.review

section Reading

variable {options : Options} {path : SourcePath} {lines : List TokenLine} {source : String} {e : CompileError}

theorem Program.ofSource_eq (read : TokenLine.ofSource path source = .ok lines) :
    Program.ofSource path source = readLines path lines := by
  unfold Program.ofSource readLines
  rw [Program.parse_eq, read]
  rfl

theorem compileLines_eq : compileLines options path lines = (do
    let program ← readLines path lines
    let units ← program.units options
    return (program, units)) := by
  unfold compileLines readLines
  simp only [bind_assoc]

theorem readLines_error_located (read : TokenLine.AllRead lines) (failed : readLines path lines = .error e) :
    e.location.isSome = true := by
  have same : Alike (CompileError.MovedAt id path) (fun p p' => p' = Program.moved id p ∧ ∀ d ∈ p, d.path = path)
      (readLines path lines) (readLines path (lines.map (TokenLine.moved id))) := by
    refine (Program.ofLines_moved id path read).bind ?_
    rintro program _ ⟨rfl, inside⟩
    refine (Program.checkDistinct_moved id inside).bind ?_
    rintro _ _ ⟨rfl, rfl⟩
    exact Program.review_moved id inside
  rw [failed] at same
  generalize readLines path (lines.map (TokenLine.moved id)) = result at same
  cases same with
  | error moved => exact moved.located

end Reading

theorem exists_of_mapM_eq_error {ε α β : Type} {f : α → Except ε β} {xs : List α} {e : ε}
    (failed : xs.mapM f = .error e) : ∃ x ∈ xs, f x = .error e := by
  induction xs with
  | nil => cases failed
  | cons x xs ih =>
    rw [List.mapM_cons] at failed
    cases first : f x with
    | error cause =>
      rw [first] at failed
      cases failed
      exact ⟨x, List.mem_cons_self, first⟩
    | ok y =>
      rw [first] at failed
      change (xs.mapM f >>= fun ys => pure (y :: ys)) = _ at failed
      cases rest : xs.mapM f with
      | ok ys =>
        rw [rest] at failed
        cases failed
      | error cause =>
        rw [rest] at failed
        cases failed
        obtain ⟨other, member, found⟩ := ih rest
        exact ⟨other, List.mem_cons_of_mem _ member, found⟩

namespace Program

variable {program : Program} {options : Options} {d : Decl} {e : CompileError}

theorem assemble_error (failed : program.assemble options d = .error e) (missing : e.location = none) :
    e.cause.IsLimit := by
  unfold assemble at failed
  cases built : ({ program, decl := d, options } : Assembly.Target).build {} with
  | ok contents pool =>
    rw [built] at failed
    cases failed
  | error error pool =>
    rw [built] at failed
    cases failed
    exact Assembly.Target.bounded_build _ _ _ _ built missing

theorem unit_error (failed : program.unit options d = .error e) (missing : e.location = none) : e.cause.IsLimit := by
  unfold unit at failed
  cases assembled : program.assemble options d with
  | error error =>
    rw [assembled] at failed
    cases failed
    exact assemble_error assembled missing
  | ok classFile =>
    -- A class file that does not pass is reported at its declaration.
    rw [assembled] at failed
    change (located d.location classFile.verified >>= fun _ => _) = Except.error e at failed
    cases checked : classFile.verified with
    | ok u =>
      rw [checked] at failed
      cases failed
    | error cause =>
      rw [checked] at failed
      cases failed
      cases missing

theorem units_error (failed : program.units options = .error e) (missing : e.location = none) : e.cause.IsLimit := by
  obtain ⟨d, -, failed⟩ := exists_of_mapM_eq_error failed
  exact unit_error failed missing

end Program

theorem compileLines_error_unplaced {options : Options} {path : SourcePath} {lines : List TokenLine} {e : CompileError}
    (read : TokenLine.AllRead lines) (failed : compileLines options path lines = .error e)
    (missing : e.location = none) : e.cause.IsLimit ∧ ∃ program, readLines path lines = .ok program := by
  rw [compileLines_eq] at failed
  cases outcome : readLines path lines with
  | error error =>
    rw [outcome] at failed
    cases failed
    have placed := readLines_error_located read outcome
    rw [missing] at placed
    cases placed
  | ok program =>
    rw [outcome] at failed
    change (program.units options >>= fun units => pure (program, units)) = _ at failed
    cases made : program.units options with
    | ok units =>
      rw [made] at failed
      cases failed
    | error error =>
      rw [made] at failed
      cases failed
      exact ⟨Program.units_error made missing, program, rfl⟩

theorem Session.compile_error_place (s : Session) (path : SourcePath) (source : String) {e : CompileError}
    (failed : (s.compile path source).1 = .error e) :
    (∃ line, e.location = some { path, line } ∧ 1 ≤ line ∧ line ≤ (Text.lines source).length) ∨
      (e.location = none ∧ e.cause.IsLimit ∧ ∃ program, Program.ofSource path source = .ok program) := by
  have numbers := TokenLine.ofSource_numbers path source
  cases read : TokenLine.ofSource path source with
  | error error =>
    rw [read] at numbers
    obtain ⟨line, place, low, high⟩ := numbers
    have same : error = e := by
      unfold Session.compile Program.ofSource at failed
      rw [Program.parse_eq, read] at failed
      exact Except.error.inj failed
    exact .inl ⟨line, same ▸ place, low, by omega⟩
  | ok lines =>
    rw [read] at numbers
    rw [Session.compile_lines s read] at failed
    cases compiled : compileLines s.options path lines with
    | ok result =>
      rw [compiled] at failed
      cases failed
    | error error =>
      rw [compiled] at failed
      obtain rfl : error = e := Except.error.inj failed
      cases place : error.location with
      | none =>
        obtain ⟨limit, program, accepted⟩ := compileLines_error_unplaced (TokenLine.ofSource_read read) compiled place
        exact .inr ⟨rfl, limit, program, (Program.ofSource_eq read).trans accepted⟩
      | some location =>
        obtain ⟨rfl, line, member, number⟩ := compileLines_error_line (TokenLine.ofSource_read read) compiled place
        obtain ⟨low, high⟩ := numbers line member
        exact .inl ⟨location.line, rfl, by omega, by omega⟩

theorem Session.compile_error_place_field :
    let source := "class A {
  int x = y
}
"
    let e : CompileError :=
      { cause := .lowering (.unknownSymbol "y"), location := some { path := ⟨"A.ktj"⟩, line := 2 } }
    (({} : Session).compile ⟨"A.ktj"⟩ source).1 = .error e ∧
      ((∃ line, e.location = some { path := ⟨"A.ktj"⟩, line } ∧ 1 ≤ line ∧ line ≤ (Text.lines source).length) ∨
        (e.location = none ∧ e.cause.IsLimit ∧ ∃ program, Program.ofSource ⟨"A.ktj"⟩ source = .ok program)) := by
  intro source e
  have failed : (({} : Session).compile ⟨"A.ktj"⟩ source).1 = .error e := by decide +kernel
  exact ⟨failed, Session.compile_error_place {} ⟨"A.ktj"⟩ source failed⟩

end ClassForge
