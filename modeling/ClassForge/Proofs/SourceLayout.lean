import ClassForge.Proofs.RenumberedCode

set_option autoImplicit false

namespace ClassForge

open Text (SourcePath)

theorem Alike.forM {ε γ : Type} {E : ε → ε → Prop} (m : γ → γ) {g g' : γ → Except ε Unit} {items : List γ}
    (each : ∀ a ∈ items, Alike E Eq (g a) (g' (m a))) : Alike E Eq (items.forM g) ((items.map m).forM g') := by
  induction items with
  | nil => exact .ok rfl
  | cons a rest ih =>
    refine (each a List.mem_cons_self).bindSame fun _ => ?_
    exact ih fun b member => each b (List.mem_cons_of_mem a member)

theorem Alike.mapM {ε γ δ : Type} {E : ε → ε → Prop} (m : γ → γ) {g g' : γ → Except ε δ} {items : List γ}
    (each : ∀ a ∈ items, Alike E Eq (g a) (g' (m a))) : Alike E Eq (items.mapM g) ((items.map m).mapM g') := by
  induction items with
  | nil => exact .ok rfl
  | cons a rest ih =>
    rw [List.map_cons, List.mapM_cons, List.mapM_cons]
    refine (each a List.mem_cons_self).bindSame fun b => ?_
    exact (ih fun b member => each b (List.mem_cons_of_mem a member)).bindSame fun bs => .ok rfl

namespace Review

variable (f : Nat → Nat) (program : Program) (d : Decl)

theorem located_moved {α : Type} {x y : Except Cause α} (same : y = x) (line : Nat) :
    Alike (CompileError.MovedAt f d.path) Eq (located (d.locationAt line) x)
      (located ((d.moved f).locationAt (f line)) y) := by
  subst same
  exact (Alike.refl Cause.Same.refl).located line

theorem checkUse_moved (short qualified : String) :
    checkUse (program.moved f) (d.moved f) short qualified = checkUse program d short qualified := by
  unfold checkUse
  rw [Program.find?_moved]
  cases program.find? qualified <;> rfl

theorem checkUses_moved : checkUses (program.moved f) (d.moved f) = checkUses program d := by
  simp only [checkUses, checkUse_moved]
  rfl

variable (scope : Scope)

theorem superclassObstacle?_moved (t : TypeRef) :
    superclassObstacle? (program.moved f) t = superclassObstacle? program t := by
  obtain ⟨dims, base⟩ := t
  rcases dims with _ | dims
  · cases base with
    | primitive p | param name bound => rfl
    | named qualified =>
      simp only [superclassObstacle?, Program.find?_moved]
      cases program.find? qualified with
      | none => rfl
      | some d =>
        have same := d.sameFace_moved f
        simp only [Option.map_some, same.eq Decl.isInterface_face, same.eq Decl.isFinal_face]
  · rfl

theorem checkSuperclass_moved (superclass : TypeName) :
    checkSuperclass (scope.moved f) superclass = checkSuperclass scope superclass := by
  have obstacle : superclassObstacle? (scope.moved f).program = superclassObstacle? scope.program :=
    funext (superclassObstacle?_moved f scope.program)
  simp only [checkSuperclass, obstacle]
  rfl

theorem checkInterface_moved (parent : TypeName) :
    checkInterface (scope.moved f) parent = checkInterface scope parent := by
  have interfaces : (scope.moved f).program.isInterface = scope.program.isInterface :=
    funext (scope.program.answers_moved f).isInterface
  simp only [checkInterface, interfaces]
  rfl

theorem checkClass_moved (body : ClassBody) : checkClass (scope.moved f) (body.moved f) = checkClass scope body := by
  have superclass : checkSuperclass (scope.moved f) = checkSuperclass scope := funext (checkSuperclass_moved f scope)
  have interface : checkInterface (scope.moved f) = checkInterface scope := funext (checkInterface_moved f scope)
  have found : (body.methods.map (Method.moved f)).find? (·.modifier.has .abstract) =
      (body.methods.find? (·.modifier.has .abstract)).map (Method.moved f) := by
    rw [List.find?_map]
    rfl
  unfold checkClass
  rw [superclass, interface]
  simp only [ClassBody.moved, found]
  cases body.methods.find? (·.modifier.has .abstract) <;> rfl

theorem checkSuperCall_moved (expected : String) (c : Constructor) :
    Alike (CompileError.MovedAt f d.path) Eq (checkSuperCall d expected c)
      (checkSuperCall (d.moved f) expected (c.moved f)) := by
  obtain ⟨params, body, modifier, superCall, line⟩ := c
  cases superCall with
  | none => exact .ok rfl
  | some call => exact .ite Iff.rfl (fun _ => .ok rfl) fun _ => located_moved f d rfl line

theorem checkMembers_moved :
    Alike (CompileError.MovedAt f d.path) Eq (checkMembers program d) (checkMembers (program.moved f) (d.moved f)) := by
  obtain ⟨header, shape⟩ := d
  cases shape with
  | enumeration values => exact .ok rfl
  | record components => exact .forM (Field.moved f) fun field _ => located_moved f _ rfl field.line
  | interface parents methods => exact .forM (Method.moved f) fun m _ => located_moved f _ rfl m.line
  | plainClass body =>
    refine (Alike.forM (Field.moved f) fun field _ => located_moved f _ rfl field.line).bindSame fun _ => ?_
    refine (Alike.forM (Method.moved f) fun m _ => located_moved f _ rfl m.line).bindSame fun _ => ?_
    exact .forM (Constructor.moved f) fun c _ => located_moved f _ rfl c.line

theorem checkShape_moved :
    Alike (CompileError.MovedAt f d.path) Eq (checkShape program d) (checkShape (program.moved f) (d.moved f)) := by
  have interface (d : Decl) : checkInterface (Scope.moved f { program, decl := d }) =
      checkInterface { program, decl := d } := funext (checkInterface_moved f _)
  obtain ⟨header, shape⟩ := d
  cases shape with
  | enumeration values | record components => exact .ok rfl
  | interface parents methods =>
    exact located_moved f _ (congrArg parents.forM (interface _)) header.line
  | plainClass body =>
    refine (located_moved f _ (checkClass_moved f _ body) header.line).bindSame fun _ => ?_
    exact .forM (Constructor.moved f) fun c _ => checkSuperCall_moved f _ _ c

theorem check_moved :
    Alike (CompileError.MovedAt f d.path) Eq (check program d) (check (program.moved f) (d.moved f)) := by
  refine (located_moved f d (checkUses_moved f program d) d.line).bindSame fun _ => ?_
  refine (located_moved f d rfl d.line).bindSame fun _ => ?_
  refine (checkMembers_moved f program d).bindSame fun _ => ?_
  exact checkShape_moved f program d

theorem complete_moved : complete (d.moved f) = (complete d).moved f := by
  obtain ⟨header, shape⟩ := d
  cases shape with
  | plainClass body =>
    have empty : (body.constructors.map (Constructor.moved f)).isEmpty = body.constructors.isEmpty := List.isEmpty_map
    simp only [complete, Decl.moved, Shape.moved, ClassBody.moved, empty]
    split <;> rfl
  | enumeration values | record components | interface parents methods => rfl

end Review

theorem Program.repeated?_moved (f : Nat → Nat) (program : Program) (seen : List String) :
    (program.moved f).repeated? seen = (program.repeated? seen).map (Decl.moved f) := by
  induction program generalizing seen with
  | nil => rfl
  | cons d rest ih =>
    change Program.repeated? seen (d.moved f :: Program.moved f rest) = _
    unfold Program.repeated?
    change (if d.qualified ∈ seen then _ else _) = _
    split
    · rfl
    · exact ih (d.qualified :: seen)

theorem Program.mem_of_repeated? {program : Program} {seen : List String} {d : Decl}
    (found : program.repeated? seen = some d) : d ∈ program := by
  induction program generalizing seen with
  | nil => cases found
  | cons e rest ih =>
    unfold Program.repeated? at found
    split at found
    · cases found
      exact List.mem_cons_self
    · exact List.mem_cons_of_mem e (ih found)

theorem Program.assemble_moved (f : Nat → Nat) (program : Program) (options : Options) (d : Decl) :
    Alike (CompileError.Moved f d.path) Eq (program.assemble options d)
      ((program.moved f).assemble options (d.moved f)) := by
  have flags : AccessFlags.ofClass d.modifier (d.shape.moved f) = AccessFlags.ofClass d.modifier d.shape := by
    cases d.shape <;> rfl
  have ends := Assembly.Target.moved_build f { program, decl := d, options } {}
  rw [show Assembly.Target.moved f { program, decl := d, options } =
    { program := program.moved f, decl := d.moved f, options } from rfl] at ends
  unfold Program.assemble
  generalize Assembly.Target.build { program, decl := d, options } {} = r at ends ⊢
  generalize Assembly.Target.build { program := program.moved f, decl := d.moved f, options } {} = r' at ends ⊢
  cases ends with
  | ok contents pool =>
    refine .ok ?_
    rw [← flags]
    rfl
  | error moved pool => exact .error moved

theorem Program.unit_moved (f : Nat → Nat) (program : Program) (options : Options) (d : Decl) :
    Alike (CompileError.Moved f d.path) Eq (program.unit options d) ((program.moved f).unit options (d.moved f)) := by
  refine (Program.assemble_moved f program options d).bindSame fun classFile => ?_
  exact (Review.located_moved f d rfl d.line).anywhere.bindSame fun _ => .ok rfl

section Files

variable (f : Nat → Nat) {path : SourcePath} {program : Program} (inside : ∀ d ∈ program, d.path = path)

include inside

theorem Program.checkDistinct_moved :
    Alike (CompileError.MovedAt f path) (fun p p' => p = program ∧ p' = program.moved f) program.checkDistinct
      (program.moved f).checkDistinct := by
  unfold Program.checkDistinct
  rw [Program.repeated?_moved]
  cases found : program.repeated? [] with
  | none => exact .ok ⟨rfl, rfl⟩
  | some d =>
    rw [← inside d (Program.mem_of_repeated? found)]
    exact .error (movedAt_at f d.location)

theorem Program.review_moved :
    Alike (CompileError.MovedAt f path) (fun p p' => p' = p.moved f ∧ ∀ d ∈ p, d.path = path) program.review
      (program.moved f).review := by
  have checks : Alike (CompileError.MovedAt f path) Eq (List.forM program (Review.check program))
      (List.forM (program.moved f) (Review.check (program.moved f))) :=
    .forM (Decl.moved f) fun d member => inside d member ▸ Review.check_moved f program d
  refine checks.bindSame fun _ => ?_
  refine .ok ⟨?_, ?_⟩
  · simp only [Program.moved, List.map_map]
    exact List.map_congr_left fun d _ => Review.complete_moved f d
  · intro d member
    obtain ⟨e, found, rfl⟩ := List.mem_map.1 member
    rw [Review.complete_header]
    exact inside e found

theorem Program.units_moved (options : Options) :
    Alike (CompileError.Moved f path) Eq (program.units options) ((program.moved f).units options) :=
  .mapM (Decl.moved f) fun d member => inside d member ▸ Program.unit_moved f program options d

end Files

def compileLines (options : Options) (path : SourcePath) (lines : List TokenLine) :
    Except CompileError (Program × List ClassUnit) := do
  let program ← Program.ofLines path lines
  let program ← program.checkDistinct
  let program ← program.review
  let units ← program.units options
  return (program, units)

theorem compileLines_moved (f : Nat → Nat) (options : Options) (path : SourcePath) {lines : List TokenLine}
    (read : TokenLine.AllRead lines) : Alike (CompileError.Moved f path) (fun x y => y = (x.1.moved f, x.2))
      (compileLines options path lines) (compileLines options path (lines.map (TokenLine.moved f))) := by
  refine (Program.ofLines_moved f path read).anywhere.bind ?_
  rintro program _ ⟨rfl, inside⟩
  refine (Program.checkDistinct_moved f inside).anywhere.bind ?_
  rintro _ _ ⟨rfl, rfl⟩
  refine (Program.review_moved f inside).anywhere.bind ?_
  rintro program _ ⟨rfl, inside⟩
  exact (Program.units_moved f inside options).bindSame fun units => .ok rfl

namespace Session

theorem compile_lines (s : Session) {path : SourcePath} {source : String} {lines : List TokenLine}
    (read : TokenLine.ofSource path source = .ok lines) :
    s.compile path source =
      match compileLines s.options path lines with
      | .ok (program, units) => (.ok units.length, { s with program, units })
      | .error error => (.error error, { s with program := [], units := [] }) := by
  unfold compile compileLines Program.ofSource
  rw [Program.parse_eq, read]
  simp only [bind_assoc]
  rfl

end Session

def TokenLine.content (line : TokenLine) : List (TokenKind × String) :=
  line.tokens.map fun t => (t.kind, t.text)

def TokenLine.ofContent (content : List (TokenKind × String)) : TokenLine :=
  { number := 0, tokens := content.map fun (kind, text) => { kind, text, column := 0 } }

theorem TokenLine.map_moved_zero (lines : List TokenLine) :
    lines.map (TokenLine.moved fun _ => 0) = (lines.map TokenLine.content).map TokenLine.ofContent := by
  rw [List.map_map]
  apply List.map_congr_left
  intro line _
  simp only [TokenLine.moved, Function.comp_apply, TokenLine.content, TokenLine.ofContent, List.map_map]
  rfl

structure CompileError.SameButLine (e e' : CompileError) : Prop where
  cause : e.cause.Same e'.cause
  message : ∃ line, e'.message = ({ e with location := e.location.map fun l => { l with line } } : CompileError).message

theorem CompileError.sameButLine_of_moved {path : SourcePath} {e e0 e' : CompileError}
    (moved : CompileError.Moved (fun _ => 0) path e e0) (moved' : CompileError.Moved (fun _ => 0) path e' e0) :
    e.SameButLine e' where
  cause := moved'.cause.symm.trans moved.cause
  message := by
    obtain ⟨cause, location⟩ := e
    obtain ⟨cause', location'⟩ := e'
    have text : cause'.message = cause.message := Cause.Same.message (moved'.cause.symm.trans moved.cause)
    have places : location.map (Location.moved fun _ => 0) = location'.map (Location.moved fun _ => 0) :=
      moved.location.symm.trans moved'.location
    match location, location' with
    | none, none => exact ⟨0, text⟩
    | some l, some l' =>
      have paths : l.path = l'.path := congrArg (fun l : Option Location => l.elim path Location.path) places
      refine ⟨l'.line, ?_⟩
      simp [CompileError.message, text, Location.text, paths]

theorem Session.compile_of_same_tokens (s : Session) (path : SourcePath) {source other : String}
    {lines others : List TokenLine} (read : TokenLine.ofSource path source = .ok lines)
    (read' : TokenLine.ofSource path other = .ok others)
    (same : lines.map TokenLine.content = others.map TokenLine.content) :
    match s.compile path source, s.compile path other with
    | (.ok count, after), (.ok count', after') => count' = count ∧ after'.units = after.units
    | (.error e, after), (.error e', after') => e.SameButLine e' ∧ after' = after
    | _, _ => False := by
  rw [s.compile_lines read, s.compile_lines read']
  have first := compileLines_moved (fun _ => 0) s.options path (TokenLine.ofSource_read read)
  have second := compileLines_moved (fun _ => 0) s.options path (TokenLine.ofSource_read read')
  rw [TokenLine.map_moved_zero] at first second
  rw [← same] at second
  generalize compileLines s.options path lines = x at first ⊢
  generalize compileLines s.options path others = y at second ⊢
  generalize compileLines s.options path ((lines.map TokenLine.content).map TokenLine.ofContent) = z at first second
  cases first with
  | @ok compiled _ same =>
    cases second with
    | @ok compiled' _ same' =>
      have units : compiled'.2 = compiled.2 := (Prod.mk.inj (same'.symm.trans same)).2
      exact ⟨congrArg List.length units, units⟩
  | error moved =>
    cases second with
    | error moved' => exact ⟨CompileError.sameButLine_of_moved moved moved', rfl⟩

theorem Session.compile_of_same_tokens_commented :
    let source := "class A \x7b\n  int x = y\n\x7d\n"
    let other := "# notes #\n\nclass A \x7b # body #\nint x = y\n  \x7d\n"
    ∃ lines others, TokenLine.ofSource ⟨"A.ktj"⟩ source = .ok lines ∧ TokenLine.ofSource ⟨"A.ktj"⟩ other = .ok others ∧
      lines.map TokenLine.content = others.map TokenLine.content ∧ lines ≠ others ∧
      match ({} : Session).compile ⟨"A.ktj"⟩ source, ({} : Session).compile ⟨"A.ktj"⟩ other with
      | (.ok count, after), (.ok count', after') => count' = count ∧ after'.units = after.units
      | (.error e, after), (.error e', after') => e.SameButLine e' ∧ after' = after
      | _, _ => False := by
  intro source other
  let lines : List TokenLine :=
    [⟨1, [⟨.identifier, "class", 1⟩, ⟨.identifier, "A", 7⟩, ⟨.punctuation, "\x7b", 9⟩]⟩,
      ⟨2, [⟨.identifier, "int", 3⟩, ⟨.identifier, "x", 7⟩, ⟨.operator, "=", 9⟩, ⟨.identifier, "y", 11⟩]⟩,
      ⟨3, [⟨.punctuation, "\x7d", 1⟩]⟩]
  let others : List TokenLine :=
    [⟨3, [⟨.identifier, "class", 1⟩, ⟨.identifier, "A", 7⟩, ⟨.punctuation, "\x7b", 9⟩]⟩,
      ⟨4, [⟨.identifier, "int", 1⟩, ⟨.identifier, "x", 5⟩, ⟨.operator, "=", 7⟩, ⟨.identifier, "y", 9⟩]⟩,
      ⟨5, [⟨.punctuation, "\x7d", 3⟩]⟩]
  have read : TokenLine.ofSource ⟨"A.ktj"⟩ source = .ok lines := by decide +kernel
  have read' : TokenLine.ofSource ⟨"A.ktj"⟩ other = .ok others := by decide +kernel
  have same : lines.map TokenLine.content = others.map TokenLine.content := by decide
  exact ⟨lines, others, read, read', same, by decide, Session.compile_of_same_tokens {} _ read read' same⟩

end ClassForge
