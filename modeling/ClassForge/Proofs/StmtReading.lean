import ClassForge.Proofs.StmtLines

set_option autoImplicit false

namespace ClassForge

open Text (SourcePath)
open Token (word symbol mark)

variable {ts : List Token} {act : Action} {value : Expr} {stmts body : List Stmt} {blocks : List (List (List Token))}
variable {rest : List TokenLine} {branches : List Branch} {condition scrutinee : Expr}

namespace Grammar

def plainLine (ts : List Token) : TokenLine :=
  { number := 0, tokens := ts }

def OpensStmt (ts : List Token) : Prop :=
  nextIs '}' ts = false ∧ ∀ t ∈ ts.head?, ¬ (t.isWord "elif" = true ∨ t.isWord "else" = true)

def ActionStands (path : SourcePath) (act : Action) (lines : List (List Token)) : Prop :=
  ∃ first more, lines = first :: more ∧ OpensStmt first ∧
    ∀ rest, NoClause rest → Takes (action path first) (more.map plainLine ++ rest) act rest

def Stands (path : SourcePath) (stmt : Stmt) (lines : List (List Token)) : Prop :=
  ∃ first more, lines = first :: more ∧ OpensStmt first ∧
    ∀ rest, NoClause rest → Takes (statement path (plainLine first)) (more.map plainLine ++ rest) stmt rest

def OtherwiseStands (path : SourcePath) (other : Otherwise) (lines : List (List Token)) : Prop :=
  ∃ tail more, lines = (mark '}' :: tail) :: more ∧
    ∀ rest, NoClause rest → Takes (otherwise path tail) (more.map plainLine ++ rest) other rest

def BranchStands (path : SourcePath) (branch : Branch) (lines : List (List Token)) : Prop :=
  ∃ ts inner, lines = (word "case" :: ts) :: (inner ++ [[mark '}']]) ∧ caseLabels ts = .ok branch.labels ∧
    ∀ rest, BlockTakes path [] (inner.map plainLine ++ plainLine [mark '}'] :: rest) branch.body [] rest

theorem noClause_nil : NoClause [] := by
  simp [NoClause]

theorem OpensStmt.noClause (opens : OpensStmt ts) (rest : List TokenLine) : NoClause (plainLine ts :: rest) := by
  rintro _ ⟨⟩
  exact opens.2

theorem noClause_closing (tail : List Token) (rest : List TokenLine) :
    NoClause (plainLine (mark '}' :: tail) :: rest) := by
  rintro _ ⟨⟩ _ ⟨⟩
  decide

theorem opensStmt_word {text : String} (apart : text ≠ "elif" ∧ text ≠ "else") (ts : List Token) :
    OpensStmt (word text :: ts) := by
  refine ⟨by simp [nextIs], ?_⟩
  rintro _ ⟨⟩
  simp [Token.isWord, apart]

theorem opensStmt_free (free : StartsFree ts) (inner : ∀ t ∈ ts.head?, t.IsInner) : OpensStmt ts := by
  cases ts with
  | nil => simp [OpensStmt, nextIs]
  | cons t ts =>
    refine ⟨by simpa [nextIs] using (inner t rfl).1, ?_⟩
    rintro _ ⟨⟩
    simp [free t rfl "elif" (by decide), free t rfl "else" (by decide)]

section Lists

variable {path : SourcePath}

theorem ActionStands.stands {lines : List (List Token)} (stands : ActionStands path act lines) :
    Stands path (.mk 0 act) lines := by
  obtain ⟨first, more, rfl, opens, takes⟩ := stands
  exact ⟨first, more, rfl, opens, fun rest noClause => takes_statement (plainLine first) (takes rest noClause)⟩

theorem actionStands_line {first : List Token} (opens : OpensStmt first)
    (takes : ∀ rest, Takes (action path first) rest act rest) : ActionStands path act [first] :=
  ⟨first, [], rfl, opens, fun rest _ => takes rest⟩

theorem actionStands_simple (some : ts ≠ []) (free : StartsFree ts)
    (inner : ∀ t ∈ ts.head?, t.IsInner) (next : simpleAction ts = .ok act) : ActionStands path act [ts] := by
  cases ts with
  | nil => exact absurd rfl some
  | cons t ts =>
    refine actionStands_line (opensStmt_free free inner) fun _ => takes_simple (fun keyword among => ?_) next
    have known : Stmt.leading ⊆ Stmt.keywords := by decide
    simp [free t rfl keyword (known among)]

theorem actionStands_eval (read : value.IsRead) (calls : value.callsSomething = true)
    (free : StartsFree value.tokens) : ActionStands path (.eval value.bare) [value.tokens] := by
  refine actionStands_simple read.tokens_ne_nil free ?_ (simpleAction_eval read calls free)
  exact fun t first => Expr.isInner_tokens value read.canonical t (List.mem_of_mem_head? first)

theorem actionStands_assign {target : Head} (place : target.place.IsRead) (read : value.IsRead)
    (free : StartsFree target.place.tokens) :
    ActionStands path (.assign target value.bare) [target.place.tokens ++ symbol "=" :: value.tokens] := by
  have some := place.tokens_ne_nil
  refine actionStands_simple (by simp) (startsFree_append some free _) ?_ (simpleAction_assign place read free)
  intro t first
  rw [List.head?_append_of_ne_nil _ some] at first
  exact Expr.isInner_tokens target.place place.canonical t (List.mem_of_mem_head? first)

theorem actionStands_declare {type : TypeName} (plain : type.base ∉ Stmt.keywords) (read : value.IsRead)
    (isFinal : Bool) (name : String) :
    ActionStands path (.declare isFinal type name value.bare)
      [(if isFinal then [word "final"] else []) ++ (type.tokens ++ word name :: symbol "=" :: value.tokens)] := by
  have next := simpleAction_declare plain read isFinal name
  -- `final` is a keyword, so the line is not free then, but none that the rule looks for first.
  cases isFinal with
  | true => exact actionStands_line (opensStmt_word (by decide) _) fun _ => takes_simple (by decide) next
  | false =>
    exact actionStands_simple (by simp [TypeName.tokens]) (startsFree_type plain _) (by simp [TypeName.tokens]) next

theorem noClause_append (stand : List.Forall₂ (Stands path) stmts blocks) (noClause : NoClause rest) :
    NoClause (blocks.flatten.map plainLine ++ rest) := by
  cases stand with
  | nil => exact noClause
  | cons stands _ =>
    obtain ⟨first, more, rfl, opens, -⟩ := stands
    exact opens.noClause _

theorem blockTakes_of_stand
    (stand : List.Forall₂ (Stands path) stmts blocks) (done : List Stmt) (tail : List Token) (rest : List TokenLine) :
    BlockTakes path done (blocks.flatten.map plainLine ++ plainLine (mark '}' :: tail) :: rest)
      (done.reverse ++ stmts) tail
      rest := by
  induction stand generalizing done with
  | nil =>
    rw [List.append_nil]
    exact blockTakes_nil (plainLine [])
  | @cons stmt block stmts blocks stands stand ih =>
    have noClause := noClause_append stand (noClause_closing tail rest)
    obtain ⟨first, more, rfl, opens, takes⟩ := stands
    have body := blockTakes_cons (plainLine first) opens.1 (takes _ noClause) (ih (stmt :: done))
    simpa using body

theorem statements_of_stand (stand : List.Forall₂ (Stands path) stmts blocks) (done : List Stmt) :
    statements path done (blocks.flatten.map plainLine) = .ok (done.reverse ++ stmts) := by
  induction stand generalizing done with
  | nil => simp [statements]
  | @cons stmt block stmts blocks stands stand ih =>
    have noClause := noClause_append stand noClause_nil
    obtain ⟨first, more, rfl, opens, takes⟩ := stands
    have next := takes _ noClause
    simp only [List.append_nil] at next
    have all := statements_cons (plainLine first) opens.1 next (ih (stmt :: done))
    simpa using all

theorem repeatedLabel?_eq_none {taken labels : List Int} (distinct : (taken ++ labels).Nodup) :
    repeatedLabel? taken labels = none := by
  induction labels generalizing taken with
  | nil => rfl
  | cons label rest ih =>
    obtain ⟨fresh, others⟩ := List.nodup_middle.1 distinct |> List.nodup_cons.1
    have untaken : ¬ taken.contains label = true := by
      simp only [List.contains_iff_mem]
      exact fun among => fresh (List.mem_append_left _ among)
    rw [repeatedLabel?, if_neg untaken]
    exact ih (List.nodup_cons.2 ⟨fresh, others⟩)

theorem casesTake_closing (branches : List Branch) (default : Option (List Stmt)) (rest : List TokenLine) :
    CasesTake path branches.reverse default (plainLine [mark '}'] :: rest) branches default rest := by
  nth_rewrite 2 [← branches.reverse_reverse]
  exact casesTake_nil (plainLine [])

theorem casesTake_of_stand {all : List Branch}
    (stand : List.Forall₂ (BranchStands path) branches blocks) (before : List Branch)
    {default default' : Option (List Stmt)}
    {lines : List TokenLine} (distinct : ((before ++ branches).flatMap Branch.labels).Nodup)
    (more : CasesTake path (branches.reverse ++ before) default lines all default' rest) :
    CasesTake path before default (blocks.flatten.map plainLine ++ lines) all default' rest := by
  induction stand generalizing before with
  | nil => simpa using more
  | @cons branch block branches blocks stands stand ih =>
    obtain ⟨labels, body⟩ := branch
    obtain ⟨ts, inner, rfl, read, takes⟩ := stands
    have later : ((.mk labels body :: before ++ branches).flatMap Branch.labels).Nodup := by
      refine (List.Perm.nodup_iff ?_).1 distinct
      exact (List.perm_middle).flatMap_right _
    have first : repeatedLabel? (before.flatMap Branch.labels) labels = none := by
      refine repeatedLabel?_eq_none (distinct.sublist ?_)
      simp [List.flatMap_append, Branch.labels]
    have others := ih (.mk labels body :: before) later (by simpa using more)
    have taken := casesTake_case (plainLine []) read first (takes _) others
    simpa [plainLine] using taken

theorem actionStands_while (read : condition.IsRead) (stand : List.Forall₂ (Stands path) body blocks) :
    ActionStands path (.loop condition.bare body)
      ((word "while" :: (condition.tokens ++ [mark '{'])) :: (blocks.flatten ++ [[mark '}']])) := by
  refine ⟨_, _, rfl, opensStmt_word (by decide) _, fun rest _ => ?_⟩
  simpa using takes_while (header_tokens read) (blockTakes_of_stand stand [] [] rest)

theorem branchStands {labels : List Int} (some : labels ≠ [])
    (range : ∀ label ∈ labels, -(2 ^ 31) ≤ label ∧ label < 2 ^ 31) (stand : List.Forall₂ (Stands path) body blocks) :
    BranchStands path (.mk labels body)
      ((word "case" :: (labelsTokens labels ++ [mark '{'])) :: (blocks.flatten ++ [[mark '}']])) :=
  ⟨_, _, rfl, caseLabels_tokens some range, fun rest => blockTakes_of_stand stand [] [] rest⟩

theorem actionStands_switch (read : scrutinee.IsRead) (stand : List.Forall₂ (BranchStands path) branches blocks)
    (distinct : (branches.flatMap Branch.labels).Nodup) :
    ActionStands path (.select scrutinee.bare branches none)
      ((word "switch" :: (scrutinee.tokens ++ [mark '{'])) :: (blocks.flatten ++ [[mark '}']])) := by
  refine ⟨_, _, rfl, opensStmt_word (by decide) _, fun rest _ => takes_switch (header_tokens read) ?_⟩
  simpa using casesTake_of_stand stand [] distinct (by simpa using casesTake_closing branches none rest)

theorem actionStands_switch_default {before after inner : List (List (List Token))} (read : scrutinee.IsRead)
    (stand : List.Forall₂ (BranchStands path) branches (before ++ after))
    (distinct : (branches.flatMap Branch.labels).Nodup) (stand_body : List.Forall₂ (Stands path) body inner) :
    ActionStands path (.select scrutinee.bare branches (some body))
      ((word "switch" :: (scrutinee.tokens ++ [mark '{'])) :: (before.flatten ++
        ([word "default", mark '{'] :: (inner.flatten ++ [[mark '}']])) ++ after.flatten ++ [[mark '}']])) := by
  refine ⟨_, _, rfl, opensStmt_word (by decide) _, fun rest _ => takes_switch (header_tokens read) ?_⟩
  -- The branches split where the default block stands.
  obtain ⟨early, late, rfl, stand_early, stand_late⟩ : ∃ early late, branches = early ++ late ∧
      List.Forall₂ (BranchStands path) early before ∧ List.Forall₂ (BranchStands path) late after :=
    ⟨_, _, (List.take_append_drop before.length branches).symm, List.forall₂_take_append _ _ _ stand,
      List.forall₂_drop_append _ _ _ stand⟩
  have last : CasesTake path early.reverse (some body) (after.flatten.map plainLine ++ plainLine [mark '}'] :: rest)
      (early ++ late) (some body) rest := by
    refine casesTake_of_stand stand_late _ ?_ ?_
    · refine (List.Perm.nodup_iff ?_).1 distinct
      exact ((List.reverse_perm early).symm.append_right late).flatMap_right _
    · simpa using casesTake_closing (early ++ late) (some body) rest
  have middle := casesTake_default (plainLine []) (blockTakes_of_stand stand_body [] [] _) last
  have all := casesTake_of_stand stand_early [] (distinct.sublist (by simp)) (by simpa using middle)
  simpa [plainLine] using all

theorem takes_ifChain_of_stand {other : Otherwise} {others : List (List Token)} (read : condition.IsRead)
    (stand : List.Forall₂ (Stands path) body blocks) (stand_other : OtherwiseStands path other others)
    (noClause : NoClause rest) :
    Takes (ifChain path (condition.tokens ++ [mark '{'])) ((blocks.flatten ++ others).map plainLine ++ rest)
      (.mk condition.bare body other) rest := by
  obtain ⟨tail, more, rfl, takes⟩ := stand_other
  have inner := blockTakes_of_stand stand [] tail (more.map plainLine ++ rest)
  simpa using takes_ifChain (header_tokens read) inner (takes rest noClause)

end Lists

end Grammar

open Grammar

section Reading

variable (path : SourcePath)

-- The induction is on the statements. A list of statements is cut into one block of lines for each, so that
-- what comes after a statement is known to start with the next one or with a brace.
mutual

theorem Stmt.stands : (stmt : Stmt) → stmt.Regular → ∀ {lines}, stmt.Written lines →
    Stands path (stmt.moved fun _ => 0) lines
  | .mk _ act, regular, _, written => (Action.stands act regular written).stands

theorem Action.stands : (act : Action) → act.Regular → ∀ {lines}, act.Written lines →
    ActionStands path (act.moved fun _ => 0) lines
  | .ret none, _, _, rfl => actionStands_line (opensStmt_word (by decide) _) fun _ => takes_return
  | .ret (some value), read, _, rfl =>
    actionStands_line (opensStmt_word (by decide) _) fun _ => takes_return_value read.parse read.tokens_ne_nil
  | .raise value, read, _, rfl => actionStands_line (opensStmt_word (by decide) _) fun _ => takes_throw read.parse
  | .eval value, ⟨read, calls, free⟩, _, rfl => actionStands_eval read calls free
  | .declare isFinal type name value, ⟨read, plain⟩, _, rfl => actionStands_declare plain read isFinal name
  | .assign target value, ⟨read, place, free⟩, _, rfl => actionStands_assign place read free
  | .cond chain, regular, _, ⟨first, rest, written, rfl⟩ =>
    ⟨_, _, rfl, opensStmt_word (by decide) _, fun _ noClause => takes_if (IfChain.takes chain regular written noClause)⟩
  | .loop condition body, ⟨read, regular⟩, _, ⟨inner, written, rfl⟩ => by
    obtain ⟨blocks, rfl, stand⟩ := Stmt.allStand body regular written
    exact actionStands_while read stand
  | .select scrutinee branches none, ⟨read, regular, distinct⟩, _, ⟨blocks, written, rfl⟩ => by
    refine actionStands_switch read (Branch.allStand branches regular written) ?_
    rwa [Branch.labels_allMoved]
  | .select scrutinee branches (some body), ⟨read, regular, distinct, regular_body⟩, _,
      ⟨before, inner, after, written, written_body, rfl⟩ => by
    obtain ⟨blocks, rfl, stand⟩ := Stmt.allStand body regular_body written_body
    refine actionStands_switch_default read (Branch.allStand branches regular written) ?_ stand
    rwa [Branch.labels_allMoved]

theorem IfChain.takes : (chain : IfChain) → chain.Regular → ∀ {first lines}, chain.Written first lines →
    ∀ {rest}, NoClause rest → Takes (ifChain path first) (lines.map plainLine ++ rest) (chain.moved fun _ => 0) rest
  | .mk condition body other, ⟨read, regular, regular_other⟩, _, _,
    ⟨inner, others, written, written_other, rfl, rfl⟩, _, noClause => by
    obtain ⟨blocks, rfl, stand⟩ := Stmt.allStand body regular written
    exact takes_ifChain_of_stand read stand (Otherwise.stands other regular_other written_other) noClause

theorem Otherwise.stands : (other : Otherwise) → other.Regular → ∀ {lines}, other.Written lines →
    OtherwiseStands path (other.moved fun _ => 0) lines
  | .skip, _, _, rfl => ⟨[], [], rfl, fun _ noClause => takes_skip noClause⟩
  | .elif chain, regular, _, ⟨first, rest, written, place⟩ => by
    have takes {after : List TokenLine} (noClause : NoClause after) :=
      takes_elif (IfChain.takes chain regular written noClause)
    rcases place with rfl | rfl
    · exact ⟨_, _, rfl, fun _ noClause => takes_clause_here (takes noClause)⟩
    · exact ⟨_, _, rfl, fun _ noClause => takes_clause_below (plainLine []) (by decide) (takes noClause)⟩
  | .block body, regular, _, ⟨inner, written, place⟩ => by
    obtain ⟨blocks, rfl, stand⟩ := Stmt.allStand body regular written
    have takes (after : List TokenLine) := takes_else (blockTakes_of_stand stand [] [] after)
    rcases place with rfl | rfl
    · exact ⟨_, _, rfl, fun after _ => by simpa [Otherwise.moved] using takes_clause_here (takes after)⟩
    · exact ⟨_, _, rfl, fun after _ => by
        simpa [Otherwise.moved, plainLine] using takes_clause_below (plainLine []) (by decide) (takes after)⟩

theorem Stmt.allStand : (stmts : List Stmt) → Stmt.AllRegular stmts → ∀ {lines}, Stmt.AllWritten stmts lines →
    ∃ blocks, lines = blocks.flatten ∧ List.Forall₂ (Stands path) (Stmt.allMoved (fun _ => 0) stmts) blocks
  | [], _, _, rfl => ⟨[], rfl, .nil⟩
  | stmt :: rest, ⟨regular, regular_rest⟩, _, ⟨first, more, written, written_rest, rfl⟩ => by
    obtain ⟨blocks, rfl, stand⟩ := Stmt.allStand rest regular_rest written_rest
    exact ⟨first :: blocks, rfl, .cons (Stmt.stands stmt regular written) stand⟩

theorem Branch.allStand : (branches : List Branch) → Branch.AllRegular branches → ∀ {blocks},
    Branch.AllWritten branches blocks → List.Forall₂ (BranchStands path) (Branch.allMoved (fun _ => 0) branches) blocks
  | [], _, _, rfl => .nil
  | .mk labels body :: rest, ⟨labelled, range, regular, regular_rest⟩, _,
    ⟨inner, more, written, written_rest, rfl⟩ => by
    obtain ⟨blocks, rfl, stand⟩ := Stmt.allStand body regular written
    exact .cons (branchStands labelled range stand) (Branch.allStand rest regular_rest written_rest)

end

end Reading

mutual

theorem Stmt.exists_written : (stmt : Stmt) → ∃ lines, stmt.Written lines
  | .mk _ act => Action.exists_written act

theorem Action.exists_written : (act : Action) → ∃ lines, act.Written lines
  | .ret none | .ret (some _) | .raise _ | .eval _ | .declare .. | .assign .. => ⟨_, rfl⟩
  | .cond chain => by
    obtain ⟨first, rest, written⟩ := IfChain.exists_written chain
    exact ⟨_, first, rest, written, rfl⟩
  | .loop _ body => by
    obtain ⟨inner, written⟩ := Stmt.exists_allWritten body
    exact ⟨_, inner, written, rfl⟩
  | .select _ branches none => by
    obtain ⟨blocks, written⟩ := Branch.exists_allWritten branches
    exact ⟨_, blocks, written, rfl⟩
  | .select _ branches (some body) => by
    obtain ⟨blocks, written⟩ := Branch.exists_allWritten branches
    obtain ⟨inner, written_body⟩ := Stmt.exists_allWritten body
    exact ⟨_, blocks, inner, [], by simpa using written, written_body, rfl⟩

theorem IfChain.exists_written : (chain : IfChain) → ∃ first rest, chain.Written first rest
  | .mk _ body other => by
    obtain ⟨inner, written⟩ := Stmt.exists_allWritten body
    obtain ⟨others, written_other⟩ := Otherwise.exists_written other
    exact ⟨_, _, inner, others, written, written_other, rfl, rfl⟩

theorem Otherwise.exists_written : (other : Otherwise) → ∃ lines, other.Written lines
  | .skip => ⟨_, rfl⟩
  | .elif chain => by
    obtain ⟨first, rest, written⟩ := IfChain.exists_written chain
    exact ⟨_, first, rest, written, .inl rfl⟩
  | .block body => by
    obtain ⟨inner, written⟩ := Stmt.exists_allWritten body
    exact ⟨_, inner, written, .inl rfl⟩

theorem Stmt.exists_allWritten : (stmts : List Stmt) → ∃ lines, Stmt.AllWritten stmts lines
  | [] => ⟨_, rfl⟩
  | stmt :: rest => by
    obtain ⟨first, written⟩ := Stmt.exists_written stmt
    obtain ⟨more, written_rest⟩ := Stmt.exists_allWritten rest
    exact ⟨_, first, more, written, written_rest, rfl⟩

theorem Branch.exists_allWritten : (branches : List Branch) → ∃ blocks, Branch.AllWritten branches blocks
  | [] => ⟨_, rfl⟩
  | .mk _ body :: rest => by
    obtain ⟨inner, written⟩ := Stmt.exists_allWritten body
    obtain ⟨more, written_rest⟩ := Branch.exists_allWritten rest
    exact ⟨_, inner, more, written, written_rest, rfl⟩

end

theorem Expr.Canonical.isRead {tree : Expr} (canonical : tree.Canonical) (bare : tree.bare = tree) : tree.IsRead := by
  refine ⟨tree.tokens, Expr.parse_eq_ok.2 ?_⟩
  simpa [bare] using canonical.yields Grammar.closes_nil

namespace Stmt

-- Statements can be written, and lines with the tokens that they are written with are read as the same
-- statements. Only the numbers of lines and columns are those of the lines read.
theorem parseBody_written {stmts : List Stmt} (regular : Stmt.AllRegular stmts) (path : SourcePath) :
    (∃ written, Stmt.AllWritten stmts written) ∧ ∀ written lines, Stmt.AllWritten stmts written →
      lines.map (fun line => line.tokens.map Token.bare) = written.map (List.map Token.bare) →
      ∃ read, Stmt.parseBody path lines = .ok read ∧
        Stmt.allMoved (fun _ => 0) read = Stmt.allMoved (fun _ => 0) stmts := by
  refine ⟨Stmt.exists_allWritten stmts, fun written lines rendered same => ?_⟩
  obtain ⟨blocks, rfl, stand⟩ := Stmt.allStand path stmts regular rendered
  have plain := statements_of_stand stand []
  have image : lines.map (TokenLine.moved fun _ => 0) =
      (blocks.flatten.map plainLine).map (TokenLine.moved fun _ => 0) := by
    have tokens := congrArg (List.map plainLine) same
    rw [List.map_map, List.map_map] at tokens
    rw [List.map_map]
    exact tokens
  -- Both lists of lines have the same image, and reading goes along with it.
  have run := Stmt.parseBody_moved (fun _ => 0) path lines
  have run_plain := Stmt.parseBody_moved (fun _ => 0) path (blocks.flatten.map plainLine)
  rw [Stmt.parseBody, plain, ← image] at run_plain
  generalize Stmt.parseBody path (lines.map (TokenLine.moved fun _ => 0)) = moved at run run_plain
  cases run_plain with
  | ok moved_eq =>
    generalize Stmt.parseBody path lines = result at run
    cases run with
    | ok read_eq =>
      refine ⟨_, rfl, read_eq.symm.trans ?_⟩
      simpa [Stmt.allMoved_allMoved, Function.comp_def] using moved_eq

theorem parseBody_written_clauses :
    let x : Expr := (Head.named "x").place
    let one : Expr := .literal { kind := .int, text := "1", column := 0 }
    let call : Expr := .leaf (.atom (.load .implicit [.call "f" [x]]) none)
    let stmts : List Stmt :=
      [.mk 0 (.cond (.mk (.binary .lt x one false) [.mk 0 (.ret none)] (.elif (.mk call
          [.mk 0 (.assign (.member "this" "y") one)]
          (.block [.mk 0 (.declare true { dims := 1, base := "int" } "a" (.leaf (.array [x])))]))))),
        .mk 0 (.select x [.mk [-2147483648, 97] [.mk 0 (.loop x [.mk 0 (.eval call)])]] (some []))]
    ∃ lines read,
      TokenLine.ofLines ⟨"demo"⟩ [] 1 (["if x < 1 \x7b", "return", "\x7d", "elif f(x) \x7b", "this.y = 1",
        "\x7d else \x7b",
        "final int[] a = [x]", "\x7d", "", "switch x \x7b", "default \x7b", "\x7d", "case -2147483648, 97 \x7b",
        "while x \x7b", "f(x)", "\x7d", "\x7d", "\x7d"].map String.toList) = .ok lines ∧
      Stmt.parseBody ⟨"demo"⟩ lines = .ok read ∧ Stmt.allMoved (fun _ => 0) read =
        Stmt.allMoved (fun _ => 0) stmts := by
  intro x one call stmts
  generalize text : List.map String.toList _ = source
  have canonical : x.Canonical := ⟨by simp [Head.Takes, IsLoadable], trivial⟩
  have read_x : x.IsRead := canonical.isRead rfl
  have read_one : one.IsRead := Expr.Canonical.isRead (.inl rfl) rfl
  have read_call : call.IsRead :=
    Expr.Canonical.isRead ⟨by simp [Head.Takes, IsLoadable], ⟨canonical, trivial⟩, trivial⟩ rfl
  have read_less : (Expr.binary .lt x one false).IsRead :=
    Expr.Canonical.isRead ⟨canonical, .inl rfl, by decide, by decide⟩ rfl
  have read_array : (Expr.leaf (.array [x])).IsRead := Expr.Canonical.isRead ⟨canonical, trivial⟩ rfl
  have read_place : (Head.member "this" "y").place.IsRead :=
    Expr.Canonical.isRead ⟨by simp [Head.Takes, IsLoadable], trivial⟩ rfl
  have free_call : StartsFree call.tokens := by rintro _ ⟨⟩; decide
  have free_place : StartsFree (Head.member "this" "y").place.tokens := by rintro _ ⟨⟩; decide
  have range : ∀ label ∈ [-2147483648, (97 : Int)], -(2 ^ 31) ≤ label ∧ label < 2 ^ 31 := by decide
  have regular : Stmt.AllRegular stmts :=
    ⟨⟨read_less, ⟨trivial, trivial⟩, read_call, ⟨⟨read_one, read_place, free_place⟩, trivial⟩, ⟨read_array, by decide⟩,
        trivial⟩,
      ⟨read_x, ⟨by decide, range, ⟨⟨read_x, ⟨read_call, rfl, free_call⟩, trivial⟩, trivial⟩, trivial⟩,
        by decide, trivial⟩,
      trivial⟩
  obtain ⟨written, rendered, scanned⟩ : ∃ written, Stmt.AllWritten stmts written ∧
      (TokenLine.ofLines ⟨"demo"⟩ [] 1 source).toOption.map (List.map fun line => line.tokens.map Token.bare) =
        some (written.map (List.map Token.bare)) := by
    refine ⟨_,
      ⟨_, _, ⟨_, _, ⟨_, _, ⟨_, _, rfl, rfl, rfl⟩, ⟨_, _, ⟨_, _, ⟨_, _, rfl, rfl, rfl⟩, ⟨_, ⟨_, _, rfl, rfl, rfl⟩,
      .inl rfl⟩, rfl, rfl⟩, .inr rfl⟩, rfl, rfl⟩, rfl⟩,
      ⟨_, _, ⟨[], [], _, ⟨_, [], ⟨_, _, ⟨_, ⟨_, _, rfl, rfl, rfl⟩, rfl⟩, rfl, rfl⟩, rfl, rfl⟩, rfl, rfl⟩, rfl,
        rfl⟩, rfl⟩, ?_⟩
    rw [← text]
    decide +kernel
  simp only [Option.map_eq_some_iff, toOption_eq_some] at scanned
  obtain ⟨lines, scanned, same⟩ := scanned
  obtain ⟨read, parsed, equal⟩ := (parseBody_written regular ⟨"demo"⟩).2 written lines rendered same
  exact ⟨lines, read, scanned, parsed, equal⟩

end Stmt

end ClassForge
