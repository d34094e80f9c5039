import ClassForge.Decl.Naming
import ClassForge.Proofs.Columns
import ClassForge.Stmt.Parse

set_option autoImplicit false

namespace ClassForge

open Text (SourcePath)

def TokenLine.moved (f : Nat → Nat) (line : TokenLine) : TokenLine :=
  { number := f line.number, tokens := line.tokens.map Token.bare }

def Location.moved (f : Nat → Nat) (location : Location) : Location :=
  { location with line := f location.line }

structure CompileError.Moved (f : Nat → Nat) (path : SourcePath) (e e' : CompileError) : Prop where
  cause : e.cause.Same e'.cause
  location : e'.location = e.location.map (Location.moved f)
  inside : ∀ l ∈ e.location, l.path = path

structure CompileError.MovedAt (f : Nat → Nat) (path : SourcePath) (e e' : CompileError) : Prop
    extends CompileError.Moved f path e e' where
  located : e.location.isSome = true

section Reports

variable {α β : Type} {R : α → β → Prop} {f : Nat → Nat} {path : SourcePath} {x : Except Cause α} {y : Except Cause β}

theorem movedAt_error {c c' : Cause} (line : Nat) (same : c.Same c') :
    CompileError.MovedAt f path { cause := c, location := some { path, line } }
      { cause := c', location := some { path, line := f line } } where
  cause := same
  location := rfl
  inside := by simp
  located := rfl

theorem Alike.located (alike : Alike Cause.Same R x y) (line : Nat) :
    Alike (CompileError.MovedAt f path) R (ClassForge.located { path, line } x)
      (ClassForge.located { path, line := f line } y) := by
  cases alike with
  | ok same => exact .ok same
  | error same => exact .error (movedAt_error line same)

theorem Alike.unlocated (alike : Alike Cause.Same R x y) :
    Alike (CompileError.Moved f path) R (ClassForge.unlocated x) (ClassForge.unlocated y) := by
  cases alike with
  | ok same => exact .ok same
  | error same => exact .error ⟨same, rfl, by simp⟩

theorem CompileError.Moved.locate {e e' : CompileError} (moved : Moved f path e e') (line : Nat) :
    MovedAt f path (e.locate { path, line }) (e'.locate { path, line := f line }) := by
  obtain ⟨cause, location⟩ := e
  obtain ⟨cause', location'⟩ := e'
  obtain ⟨same, rfl, inside⟩ := moved
  cases location with
  | none => exact movedAt_error line same
  | some l => exact ⟨⟨same, rfl, inside⟩, rfl⟩

theorem Alike.atLocation {x : Except CompileError α} {y : Except CompileError β}
    (alike : Alike (CompileError.Moved f path) R x y) (line : Nat) :
    Alike (CompileError.MovedAt f path) R (ClassForge.atLocation { path, line } x)
      (ClassForge.atLocation { path, line := f line } y) := by
  cases alike with
  | ok same => exact .ok same
  | error moved => exact .error (moved.locate line)

theorem Alike.anywhere {x : Except CompileError α} {y : Except CompileError β}
    (alike : Alike (CompileError.MovedAt f path) R x y) : Alike (CompileError.Moved f path) R x y :=
  alike.mono fun _ _ moved => moved.toMoved

end Reports

mutual

def Stmt.moved (f : Nat → Nat) : Stmt → Stmt
  | .mk line action => .mk (f line) (action.moved f)

def Action.moved (f : Nat → Nat) : Action → Action
  | .ret value => .ret (value.map Expr.bare)
  | .raise value => .raise value.bare
  | .eval value => .eval value.bare
  | .declare isFinal type name value => .declare isFinal type name value.bare
  | .assign target value => .assign target value.bare
  | .cond chain => .cond (chain.moved f)
  | .loop condition body => .loop condition.bare (Stmt.allMoved f body)
  | .select scrutinee branches none => .select scrutinee.bare (Branch.allMoved f branches) none
  | .select scrutinee branches (some body) =>
    .select scrutinee.bare (Branch.allMoved f branches) (some (Stmt.allMoved f body))

def IfChain.moved (f : Nat → Nat) : IfChain → IfChain
  | .mk condition body otherwise => .mk condition.bare (Stmt.allMoved f body) (otherwise.moved f)

def Otherwise.moved (f : Nat → Nat) : Otherwise → Otherwise
  | .skip => .skip
  | .elif chain => .elif (chain.moved f)
  | .block body => .block (Stmt.allMoved f body)

def Branch.moved (f : Nat → Nat) : Branch → Branch
  | .mk labels body => .mk labels (Stmt.allMoved f body)

def Stmt.allMoved (f : Nat → Nat) : List Stmt → List Stmt
  | [] => []
  | stmt :: rest => stmt.moved f :: Stmt.allMoved f rest

def Branch.allMoved (f : Nat → Nat) : List Branch → List Branch
  | [] => []
  | branch :: rest => branch.moved f :: Branch.allMoved f rest

end

mutual

theorem Stmt.moved_moved (f g : Nat → Nat) : (stmt : Stmt) → (stmt.moved f).moved g = stmt.moved (g ∘ f)
  | .mk line action => by simp [Stmt.moved, Action.moved_moved f g action]

theorem Action.moved_moved (f g : Nat → Nat) : (action : Action) → (action.moved f).moved g = action.moved (g ∘ f)
  | .ret none => rfl
  | .ret (some value) => by simp [Action.moved]
  | .raise value => by simp [Action.moved]
  | .eval value => by simp [Action.moved]
  | .declare isFinal type name value => by simp [Action.moved]
  | .assign target value => by simp [Action.moved]
  | .cond chain => by simp [Action.moved, IfChain.moved_moved f g chain]
  | .loop condition body => by simp [Action.moved, Stmt.allMoved_allMoved f g body]
  | .select scrutinee branches none => by simp [Action.moved, Branch.allMoved_allMoved f g branches]
  | .select scrutinee branches (some body) => by
    simp [Action.moved, Branch.allMoved_allMoved f g branches, Stmt.allMoved_allMoved f g body]

theorem IfChain.moved_moved (f g : Nat → Nat) : (chain : IfChain) → (chain.moved f).moved g = chain.moved (g ∘ f)
  | .mk condition body otherwise => by
    simp [IfChain.moved, Stmt.allMoved_allMoved f g body, Otherwise.moved_moved f g otherwise]

theorem Otherwise.moved_moved (f g : Nat → Nat) : (other : Otherwise) → (other.moved f).moved g = other.moved (g ∘ f)
  | .skip => rfl
  | .elif chain => by simp [Otherwise.moved, IfChain.moved_moved f g chain]
  | .block body => by simp [Otherwise.moved, Stmt.allMoved_allMoved f g body]

theorem Stmt.allMoved_allMoved (f g : Nat → Nat) : (stmts : List Stmt) →
    Stmt.allMoved g (Stmt.allMoved f stmts) = Stmt.allMoved (g ∘ f) stmts
  | [] => rfl
  | stmt :: rest => by simp [Stmt.allMoved, Stmt.moved_moved f g stmt, Stmt.allMoved_allMoved f g rest]

theorem Branch.allMoved_allMoved (f g : Nat → Nat) : (branches : List Branch) →
    Branch.allMoved g (Branch.allMoved f branches) = Branch.allMoved (g ∘ f) branches
  | [] => rfl
  | .mk labels body :: rest => by
    simp [Branch.allMoved, Branch.moved, Stmt.allMoved_allMoved f g body, Branch.allMoved_allMoved f g rest]

end

section Lists

variable (f : Nat → Nat)

theorem Stmt.allMoved_eq_map (stmts : List Stmt) : Stmt.allMoved f stmts = stmts.map (Stmt.moved f) := by
  induction stmts with
  | nil => rfl
  | cons stmt rest ih => simp [Stmt.allMoved, ih]

theorem Branch.allMoved_eq_map (branches : List Branch) :
    Branch.allMoved f branches = branches.map (Branch.moved f) := by
  induction branches with
  | nil => rfl
  | cons branch rest ih => simp [Branch.allMoved, ih]

theorem Stmt.allMoved_reverse (stmts : List Stmt) :
    Stmt.allMoved f stmts.reverse = (Stmt.allMoved f stmts).reverse := by
  simp only [Stmt.allMoved_eq_map, List.map_reverse]

theorem Branch.allMoved_reverse (branches : List Branch) :
    Branch.allMoved f branches.reverse = (Branch.allMoved f branches).reverse := by
  simp only [Branch.allMoved_eq_map, List.map_reverse]

theorem Branch.labels_moved (branch : Branch) : (branch.moved f).labels = branch.labels := by
  cases branch
  rfl

theorem Branch.labels_allMoved (branches : List Branch) :
    (Branch.allMoved f branches).flatMap Branch.labels = branches.flatMap Branch.labels := by
  rw [Branch.allMoved_eq_map, List.flatMap_map]
  simp only [Branch.labels_moved]

end Lists

def Expr.callsSomething : Expr → Bool
  | .operand (.atom (.load _ (_ :: _)) none) _ => true
  | .operand (.create ..) _ => true
  | _ => false

def Expr.assigned? : Expr → Option Head
  | .operand (.atom (.load head []) none) _ => some head
  | _ => none

namespace Expr

theorem bare_alike (tree : Expr) :
    tree.bare.callsSomething = tree.callsSomething ∧ tree.bare.assigned? = tree.assigned? := by
  match tree with
  | .binary .. => exact ⟨rfl, rfl⟩
  | .operand (.atom (.load _ []) none) _ => exact ⟨rfl, rfl⟩
  | .operand (.atom (.load _ (_ :: _)) none) _ => exact ⟨rfl, rfl⟩
  | .operand (.atom (.load _ []) (some _)) _ => exact ⟨rfl, rfl⟩
  | .operand (.atom (.load _ (_ :: _)) (some _)) _ => exact ⟨rfl, rfl⟩
  | .operand (.atom (.literal _) _) _ => exact ⟨rfl, rfl⟩
  | .operand (.atom (.nested _) _) _ => exact ⟨rfl, rfl⟩
  | .operand (.cast ..) _ => exact ⟨rfl, rfl⟩
  | .operand (.array _) _ => exact ⟨rfl, rfl⟩
  | .operand (.create ..) _ => exact ⟨rfl, rfl⟩

end Expr

namespace Grammar

theorem lineEnd_bare (ts : List Token) : Blind TokenRule.lineEnd ts Eq := by
  cases ts with
  | nil => exact .ok rfl
  | cons t ts => exact .error rfl

theorem punct_bare (p : Char) (ts : List Token) :
    Blind (TokenRule.punct p) ts fun x y => y = (x.1, x.2.map Token.bare) ∧ x.2 ⊆ ts := by
  cases ts with
  | nil => exact expected_same _ none
  | cons t ts =>
    exact .ite Iff.rfl (fun _ => .ok ⟨rfl, List.subset_cons_self t ts⟩) fun _ => expected_same _ (some t)

theorem opening_bare (ts : List Token) : Blind opening ts Eq := by
  refine (punct_bare '{' ts).bindKeep fun ⟨_, rest⟩ _ => ?_
  exact lineEnd_bare rest

theorem header_bare (ts : List Token) : Blind header ts fun tree tree' => tree' = tree.bare := by
  unfold Blind header
  simp only [List.getLast?_map, ← List.map_dropLast]
  refine .ite ?_ (fun _ => Expr.parse_bare _) fun _ => .error rfl
  cases ts.getLast? <;> simp [-List.map_dropLast]

theorem labelValue_bare (negative : Bool) (t : Token) :
    Alike Cause.Same Eq (labelValue negative t) (labelValue negative t.bare) :=
  .ite Iff.rfl (fun _ => .ite Iff.rfl (fun _ => .ok rfl) fun _ => .error rfl) fun _ =>
    .ite Iff.rfl (fun _ => .ok rfl) fun _ => expected_same _ (some t)

mutual

theorem caseLabels_bare (ts : List Token) : Blind caseLabels ts Eq := by
  cases ts with
  | nil =>
    unfold Blind caseLabels
    exact expected_same _ none
  | cons t rest =>
    unfold Blind caseLabels
    refine .ite Iff.rfl (fun _ => ?_) fun _ => ?_
    · cases rest with
      | nil => exact expected_same _ none
      | cons u rest =>
        refine (labelValue_bare true u).bindSame fun label => ?_
        exact moreLabels_bare label rest
    · refine (labelValue_bare false t).bindSame fun label => ?_
      exact moreLabels_bare label rest
termination_by 2 * ts.length

theorem moreLabels_bare (label : Int) (ts : List Token) : Blind (caseLabels.moreLabels label) ts Eq := by
  cases ts with
  | nil =>
    unfold Blind caseLabels.moreLabels
    exact expected_same _ none
  | cons t rest =>
    unfold Blind caseLabels.moreLabels
    refine .ite Iff.rfl (fun _ => ?_) fun _ => .ite Iff.rfl (fun _ => ?_) fun _ => expected_same _ (some t)
    · exact (lineEnd_bare rest).bindSame fun _ => .ok rfl
    · exact (caseLabels_bare rest).bindSame fun labels => .ok rfl
termination_by 2 * ts.length + 1

end

theorem declarationHead?_bare (ts : List Token) :
    declarationHead? (ts.map Token.bare) = (declarationHead? ts).map fun x => (x.1, x.2.1, x.2.2.map Token.bare) := by
  cases ts with
  | nil => rfl
  | cons t ts =>
    simp only [declarationHead?, List.map_cons, Token.bare_isIdentifier, Token.bare_text, dimensions_bare]
    obtain ⟨dims, _ | ⟨name, _ | ⟨eq, value⟩⟩⟩ := dimensions ts
    · cases t.isIdentifier <;> rfl
    · cases t.isIdentifier <;> rfl
    · cases t.isIdentifier with
      | false => rfl
      | true =>
        dsimp only [List.map_cons]
        rw [apply_ite (Option.map _)]
        rfl

theorem evalAction_eq (tree : Expr) :
    evalAction tree =
      if tree.callsSomething then .ok (.eval tree) else .error (.parse (.notStatement tree.text)) := by
  fun_cases evalAction tree with
  | case1 | case2 => rfl
  | case3 tree noCall noCreation =>
    have silent : tree.callsSomething = false := by
      fun_cases Expr.callsSomething tree with
      | case1 head call calls grouped => exact absurd rfl (noCall head call calls grouped)
      | case2 className arguments grouped => exact absurd rfl (noCreation className arguments grouped)
      | case3 => rfl
    simp [silent]

theorem evalAction_bare (f : Nat → Nat) (tree : Expr) :
    Alike Cause.Same (fun a b => b = a.moved f) (evalAction tree) (evalAction tree.bare) := by
  rw [evalAction_eq, evalAction_eq, (Expr.bare_alike _).1, Expr.text_bare]
  exact .ite Iff.rfl (fun _ => .ok rfl) fun _ => .error rfl

theorem plainAction_eq (ts : List Token) :
    plainAction ts = (match ts.dropWhile (fun t => ¬ t.isOperator "=") with
      | [] => Expr.parse ts >>= evalAction
      | _ :: value => do
        let tree ← Expr.parse (ts.takeWhile (fun t => ¬ t.isOperator "="))
        match tree.assigned? with
        | some head => return .assign head (← Expr.parse value)
        | none => .error (.parse .assignmentTarget)) := by
  unfold plainAction
  cases ts.dropWhile fun t => decide ¬ t.isOperator "=" = true with
  | nil => rfl
  | cons eq value =>
    dsimp only
    congr 1
    funext tree
    fun_cases Expr.assigned? tree with
    | case1 => rfl
    | case2 tree other =>
      split
      next head grouped => exact absurd rfl (other head grouped)
      next => rfl

theorem plainAction_bare (f : Nat → Nat) (ts : List Token) : Blind plainAction ts fun a b => b = a.moved f := by
  have same : (fun t : Token => decide ¬ t.isOperator "=" = true) ∘ Token.bare =
      fun t => decide ¬ t.isOperator "=" = true := rfl
  rw [Blind, plainAction_eq, plainAction_eq, List.dropWhile_map, List.takeWhile_map, same]
  cases ts.dropWhile fun t => decide ¬ t.isOperator "=" = true with
  | nil =>
    refine (Expr.parse_bare ts).bindMap fun tree => ?_
    exact evalAction_bare f tree
  | cons eq value =>
    refine (Expr.parse_bare _).bindMap fun tree => ?_
    rw [(Expr.bare_alike _).2]
    cases tree.assigned? with
    | none => exact .error rfl
    | some head =>
      exact (Expr.parse_bare value).bindMap fun value => .ok rfl

theorem simpleAction_bare (f : Nat → Nat) (ts : List Token) : Blind simpleAction ts fun a b => b = a.moved f := by
  have isFinal : (ts.map Token.bare).head?.any (·.isWord "final") = ts.head?.any (·.isWord "final") := by
    cases ts <;> rfl
  unfold Blind simpleAction
  simp only [isFinal]
  generalize ts.head?.any (·.isWord "final") = isFinal
  have rest : (if isFinal = true then (ts.map Token.bare).tail else ts.map Token.bare) =
      (if isFinal = true then ts.tail else ts).map Token.bare := by
    cases isFinal <;> simp
  rw [rest, declarationHead?_bare]
  generalize (if isFinal = true then ts.tail else ts) = rest
  cases declarationHead? rest with
  | none => exact .ite Iff.rfl (fun _ => .error rfl) fun _ => plainAction_bare f rest
  | some found =>
    obtain ⟨type, name, value⟩ := found
    exact (Expr.parse_bare value).bindMap fun value => .ok rfl

theorem action_select (f : Nat → Nat) (scrutinee : Expr) (branches : List Branch) (default : Option (List Stmt)) :
    (Action.select scrutinee branches default).moved f =
      .select scrutinee.bare (Branch.allMoved f branches) (default.map (Stmt.allMoved f)) := by
  cases default <;> rfl

section Statements

variable (f : Nat → Nat) (path : SourcePath)

-- The recursion is that of the rules: a rule that is asked for the lines left by another one has fewer of them.
mutual

theorem statement_moved (line : TokenLine) (lines : List TokenLine) :
    Alike (CompileError.MovedAt f path) (SameRest (TokenLine.moved f) (Stmt.moved f)) (statement path line lines)
      (statement path (line.moved f) (lines.map (TokenLine.moved f))) := by
  unfold statement
  refine Alike.atLocation ?_ line.number
  exact (action_moved line.tokens lines).bindRest fun act left h _ => .ok ⟨rfl, rfl⟩
termination_by 5 * lines.length + 4

theorem action_moved (ts : List Token) (lines : List TokenLine) :
    Alike (CompileError.Moved f path) (SameRest (TokenLine.moved f) (Action.moved f)) (action path ts lines)
      (action path (ts.map Token.bare) (lines.map (TokenLine.moved f))) := by
  have simple : ∀ ts : List Token, Alike (CompileError.Moved f path) (SameRest (TokenLine.moved f) (Action.moved f))
      (do return (← unlocated (simpleAction ts), (⟨lines, by simp⟩ : LinesLeft lines)))
      (do return (← unlocated (simpleAction (ts.map Token.bare)),
        (⟨lines.map (TokenLine.moved f), by simp⟩ : LinesLeft (lines.map (TokenLine.moved f))))) := by
    intro ts
    exact (simpleAction_bare f ts).unlocated.bindMap fun act => .ok ⟨rfl, rfl⟩
  cases ts with
  | nil =>
    unfold action
    exact simple []
  | cons t rest =>
    change Alike _ _ (action path (t :: rest) lines) (action path (t.bare :: rest.map Token.bare) _)
    unfold action
    refine .ite Iff.rfl (fun _ => ?_) fun _ => .ite Iff.rfl (fun _ => ?_) fun _ => .ite Iff.rfl (fun _ => ?_) fun _ =>
      .ite Iff.rfl (fun _ => ?_) fun _ => .ite Iff.rfl (fun _ => ?_) fun _ => simple (t :: rest)
    · refine .ite (by simp) (fun _ => .ok ⟨rfl, rfl⟩) fun _ => ?_
      exact (Expr.parse_bare rest).unlocated.bindMap fun value => .ok ⟨rfl, rfl⟩
    · exact (Expr.parse_bare rest).unlocated.bindMap fun value => .ok ⟨rfl, rfl⟩
    · exact (ifChain_moved rest lines).bindRest fun chain left h _ => .ok ⟨rfl, rfl⟩
    · refine (header_bare rest).unlocated.bindMap fun condition => ?_
      refine (block_moved [] lines).bind ?_
      rintro ⟨body, tail, left, h⟩ ⟨_, _, _, _⟩ ⟨rfl, rfl, rfl⟩
      exact (lineEnd_bare tail).unlocated.bindSame fun _ => .ok ⟨rfl, rfl⟩
    · refine (header_bare rest).unlocated.bindMap fun scrutinee => ?_
      refine (cases_moved [] none lines).bind ?_
      rintro ⟨branches, default, left, h⟩ ⟨_, _, _, _⟩ ⟨rfl, rfl, rfl⟩
      exact .ok ⟨action_select f scrutinee branches default, rfl⟩
termination_by 5 * lines.length + 3

theorem block_moved (done : List Stmt) (lines : List TokenLine) :
    Alike (CompileError.Moved f path) (fun x y => Stmt.allMoved f x.1 = y.1 ∧
        SameRest (TokenLine.moved f) (List.map Token.bare) x.2 y.2)
      (block path done lines) (block path (Stmt.allMoved f done) (lines.map (TokenLine.moved f))) := by
  cases lines with
  | nil =>
    unfold block
    exact .error ⟨rfl, rfl, by simp⟩
  | cons line lines =>
    change Alike _ _ (block path done (line :: lines))
      (block path (Stmt.allMoved f done) (line.moved f :: lines.map (TokenLine.moved f)))
    unfold block
    refine .ite (by simp only [TokenLine.moved, nextIs_bare]) (fun _ => ?_) fun _ => ?_
    · exact .ok ⟨Stmt.allMoved_reverse f done, List.map_tail, rfl⟩
    · refine (statement_moved line lines).anywhere.bindRest fun stmt left h _ => ?_
      refine (block_moved (stmt :: done) left).bind ?_
      rintro ⟨body, tail, left', h'⟩ ⟨_, _, _, _⟩ ⟨rfl, rfl, rfl⟩
      exact .ok ⟨rfl, rfl, rfl⟩
termination_by 5 * lines.length

theorem ifChain_moved (ts : List Token) (lines : List TokenLine) :
    Alike (CompileError.Moved f path) (SameRest (TokenLine.moved f) (IfChain.moved f)) (ifChain path ts lines)
      (ifChain path (ts.map Token.bare) (lines.map (TokenLine.moved f))) := by
  unfold ifChain
  refine (header_bare ts).unlocated.bindMap fun condition => ?_
  refine (block_moved [] lines).bind ?_
  rintro ⟨body, tail, left, h⟩ ⟨_, _, _, _⟩ ⟨rfl, rfl, rfl⟩
  exact (otherwise_moved tail left).bindRest fun other left' h' _ => .ok ⟨rfl, rfl⟩
termination_by 5 * lines.length + 1

theorem otherwise_moved (tail : List Token) (lines : List TokenLine) :
    Alike (CompileError.Moved f path) (SameRest (TokenLine.moved f) (Otherwise.moved f)) (otherwise path tail lines)
      (otherwise path (tail.map Token.bare) (lines.map (TokenLine.moved f))) := by
  cases tail with
  | cons t ts =>
    unfold otherwise
    exact clause_moved t ts lines
  | nil =>
    cases lines with
    | nil =>
      unfold otherwise
      exact .ok ⟨rfl, rfl⟩
    | cons line lines =>
      obtain ⟨number, _ | ⟨t, ts⟩⟩ := line
      · unfold otherwise
        exact .ok ⟨rfl, rfl⟩
      · unfold otherwise
        refine .ite Iff.rfl (fun _ => ?_) fun _ => .ok ⟨rfl, rfl⟩
        exact (clause_moved t ts lines).bindRest fun other left h _ => .ok ⟨rfl, rfl⟩
termination_by 5 * lines.length + 3

theorem clause_moved (t : Token) (ts : List Token) (lines : List TokenLine) :
    Alike (CompileError.Moved f path) (SameRest (TokenLine.moved f) (Otherwise.moved f)) (clause path t ts lines)
      (clause path t.bare (ts.map Token.bare) (lines.map (TokenLine.moved f))) := by
  unfold clause
  refine .ite Iff.rfl (fun _ => ?_) fun _ => .ite Iff.rfl (fun _ => ?_) fun _ => (expected_same _ (some t)).unlocated
  · exact (ifChain_moved ts lines).bindRest fun chain left h _ => .ok ⟨rfl, rfl⟩
  · refine (opening_bare ts).unlocated.bindSame fun _ => ?_
    refine (block_moved [] lines).bind ?_
    rintro ⟨body, tail, left, h⟩ ⟨_, _, _, _⟩ ⟨rfl, rfl, rfl⟩
    exact (lineEnd_bare tail).unlocated.bindSame fun _ => .ok ⟨rfl, rfl⟩
termination_by 5 * lines.length + 2

theorem cases_moved (done : List Branch) (default : Option (List Stmt)) (lines : List TokenLine) :
    Alike (CompileError.Moved f path) (fun x y => Branch.allMoved f x.1 = y.1 ∧
        SameRest (TokenLine.moved f) (Option.map (Stmt.allMoved f)) x.2 y.2)
      (cases path done default lines)
      (cases path (Branch.allMoved f done) (default.map (Stmt.allMoved f)) (lines.map (TokenLine.moved f))) := by
  cases lines with
  | nil =>
    unfold cases
    exact .error ⟨rfl, rfl, by simp⟩
  | cons line lines =>
    obtain ⟨number, _ | ⟨t, ts⟩⟩ := line
    · unfold cases
      exact ((expected_same _ none).located number).anywhere
    · change Alike _ _ (cases path done default (⟨number, t :: ts⟩ :: lines))
        (cases path (Branch.allMoved f done) (default.map (Stmt.allMoved f))
          (⟨f number, t.bare :: ts.map Token.bare⟩ :: lines.map (TokenLine.moved f)))
      unfold cases
      refine .ite Iff.rfl (fun _ => ?_) fun _ => .ite Iff.rfl (fun _ => ?_) fun _ => .ite Iff.rfl (fun _ => ?_) fun _ =>
        ((expected_same _ (some t)).located number).anywhere
      · refine (lineEnd_bare ts).unlocated.bindSame fun _ => ?_
        exact .ok ⟨Branch.allMoved_reverse f done, rfl, rfl⟩
      · refine ((caseLabels_bare ts).located number).anywhere.bindSame fun labels => ?_
        rw [Branch.labels_allMoved]
        cases repeatedLabel? (done.flatMap Branch.labels) labels with
        | some label => exact ((Alike.error (Cause.Same.refl _)).located number).anywhere
        | none =>
          refine (block_moved [] lines).bind ?_
          rintro ⟨body, tail, left, h⟩ ⟨_, _, _, _⟩ ⟨rfl, rfl, rfl⟩
          refine (lineEnd_bare tail).unlocated.bindSame fun _ => ?_
          refine (cases_moved (.mk labels body :: done) default left).bind ?_
          rintro ⟨branches, last, left', h'⟩ ⟨_, _, _, _⟩ ⟨rfl, rfl, rfl⟩
          exact .ok ⟨rfl, rfl, rfl⟩
      · refine .ite (by simp) (fun _ => ((Alike.error (Cause.Same.refl _)).located number).anywhere) fun _ => ?_
        refine (opening_bare ts).unlocated.bindSame fun _ => ?_
        refine (block_moved [] lines).bind ?_
        rintro ⟨body, tail, left, h⟩ ⟨_, _, _, _⟩ ⟨rfl, rfl, rfl⟩
        refine (lineEnd_bare tail).unlocated.bindSame fun _ => ?_
        refine (cases_moved done (some body) left).bind ?_
        rintro ⟨branches, last, left', h'⟩ ⟨_, _, _, _⟩ ⟨rfl, rfl, rfl⟩
        exact .ok ⟨rfl, rfl, rfl⟩
termination_by 5 * lines.length

end

theorem statements_moved (done : List Stmt) (lines : List TokenLine) :
    Alike (CompileError.MovedAt f path) (fun stmts stmts' => stmts' = Stmt.allMoved f stmts)
      (statements path done lines) (statements path (Stmt.allMoved f done) (lines.map (TokenLine.moved f))) := by
  cases lines with
  | nil =>
    unfold statements
    exact .ok (Stmt.allMoved_reverse f done).symm
  | cons line lines =>
    change Alike _ _ (statements path done (line :: lines))
      (statements path (Stmt.allMoved f done) (line.moved f :: lines.map (TokenLine.moved f)))
    unfold statements
    refine .ite (by simp only [TokenLine.moved, nextIs_bare]) (fun _ => ?_) fun _ => ?_
    · exact .error (movedAt_error line.number rfl)
    · refine (statement_moved f path line lines).bindRest fun stmt left h _ => ?_
      exact statements_moved (stmt :: done) left
termination_by lines.length

end Statements

end Grammar

theorem Stmt.parseBody_moved (f : Nat → Nat) (path : SourcePath) (lines : List TokenLine) :
    Alike (CompileError.MovedAt f path) (fun stmts stmts' => stmts' = Stmt.allMoved f stmts)
      (Stmt.parseBody path lines) (Stmt.parseBody path (lines.map (TokenLine.moved f))) :=
  Grammar.statements_moved f path [] lines

end ClassForge
