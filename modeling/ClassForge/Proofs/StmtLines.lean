import ClassForge.Proofs.ExprReading
import ClassForge.Proofs.DeclarationHeads

set_option autoImplicit false

namespace ClassForge

open Text (SourcePath)
open Token (word symbol mark)

def Stmt.keywords : List String :=
  ["return", "throw", "if", "elif", "else", "while", "switch", "case", "default", "final"]

def Stmt.leading : List String :=
  ["return", "throw", "if", "while", "switch"]

def Grammar.StartsFree (ts : List Token) : Prop :=
  ∀ t ∈ ts.head?, ∀ keyword ∈ Stmt.keywords, t.isWord keyword = false

def Expr.IsRead (tree : Expr) : Prop :=
  ∃ ts, Expr.parse ts = .ok tree

def Head.place (target : Head) : Expr :=
  .leaf (.atom (.load target []) none)

def labelTokens (label : Int) : List Token :=
  let digits : Token := { kind := .int, text := toString label.natAbs, column := 0 }
  if label < 0 then [symbol "-", digits] else [digits]

def labelsTokens : List Int → List Token
  | [] => []
  | [label] => labelTokens label
  | label :: rest => labelTokens label ++ mark ',' :: labelsTokens rest

mutual

-- Statements that can be told apart by how they start. Their expressions are some that can be read.
def Stmt.Regular : Stmt → Prop
  | .mk _ action => action.Regular

def Action.Regular : Action → Prop
  | .ret none => True
  | .ret (some value) => value.IsRead
  | .raise value => value.IsRead
  | .eval value => value.IsRead ∧ value.callsSomething = true ∧ Grammar.StartsFree value.tokens
  | .declare _ type _ value => value.IsRead ∧ type.base ∉ Stmt.keywords
  | .assign target value => value.IsRead ∧ target.place.IsRead ∧ Grammar.StartsFree target.place.tokens
  | .cond chain => chain.Regular
  | .loop condition body => condition.IsRead ∧ Stmt.AllRegular body
  | .select scrutinee branches none =>
    scrutinee.IsRead ∧ Branch.AllRegular branches ∧ (branches.flatMap Branch.labels).Nodup
  | .select scrutinee branches (some body) =>
    scrutinee.IsRead ∧ Branch.AllRegular branches ∧ (branches.flatMap Branch.labels).Nodup ∧ Stmt.AllRegular body

def IfChain.Regular : IfChain → Prop
  | .mk condition body otherwise => condition.IsRead ∧ Stmt.AllRegular body ∧ otherwise.Regular

def Otherwise.Regular : Otherwise → Prop
  | .skip => True
  | .elif chain => chain.Regular
  | .block body => Stmt.AllRegular body

def Stmt.AllRegular : List Stmt → Prop
  | [] => True
  | stmt :: rest => stmt.Regular ∧ Stmt.AllRegular rest

def Branch.AllRegular : List Branch → Prop
  | [] => True
  | .mk labels body :: rest =>
    labels ≠ [] ∧ (∀ label ∈ labels, -(2 ^ 31) ≤ label ∧ label < 2 ^ 31) ∧ Stmt.AllRegular body ∧ Branch.AllRegular rest

end

mutual

def Stmt.Written : Stmt → List (List Token) → Prop
  | .mk _ action, lines => action.Written lines

def Action.Written : Action → List (List Token) → Prop
  | .ret none, lines => lines = [[word "return"]]
  | .ret (some value), lines => lines = [word "return" :: value.tokens]
  | .raise value, lines => lines = [word "throw" :: value.tokens]
  | .eval value, lines => lines = [value.tokens]
  | .declare isFinal type name value, lines =>
    lines = [(if isFinal then [word "final"] else []) ++ (type.tokens ++ word name :: symbol "=" :: value.tokens)]
  | .assign target value, lines => lines = [target.place.tokens ++ symbol "=" :: value.tokens]
  | .cond chain, lines => ∃ first rest, chain.Written first rest ∧ lines = (word "if" :: first) :: rest
  | .loop condition body, lines =>
    ∃ inner, Stmt.AllWritten body inner ∧
      lines = (word "while" :: (condition.tokens ++ [mark '{'])) :: (inner ++ [[mark '}']])
  | .select scrutinee branches none, lines =>
    ∃ blocks, Branch.AllWritten branches blocks ∧
      lines = (word "switch" :: (scrutinee.tokens ++ [mark '{'])) :: (blocks.flatten ++ [[mark '}']])
  -- The default block stands between two branches, before all of them or after all of them.
  | .select scrutinee branches (some body), lines =>
    ∃ before inner after, Branch.AllWritten branches (before ++ after) ∧ Stmt.AllWritten body inner ∧
      lines = (word "switch" :: (scrutinee.tokens ++ [mark '{'])) :: (before.flatten ++
        ([word "default", mark '{'] :: (inner ++ [[mark '}']])) ++ after.flatten ++ [[mark '}']])

def IfChain.Written : IfChain → List Token → List (List Token) → Prop
  | .mk condition body otherwise, first, rest =>
    ∃ inner others, Stmt.AllWritten body inner ∧ otherwise.Written others ∧
      first = condition.tokens ++ [mark '{'] ∧ rest = inner ++ others

def Otherwise.Written : Otherwise → List (List Token) → Prop
  | .skip, lines => lines = [[mark '}']]
  | .elif chain, lines =>
    ∃ first rest, chain.Written first rest ∧
      (lines = (mark '}' :: word "elif" :: first) :: rest ∨ lines = [mark '}'] :: (word "elif" :: first) :: rest)
  | .block body, lines =>
    ∃ inner, Stmt.AllWritten body inner ∧
      (lines = [mark '}', word "else", mark '{'] :: (inner ++ [[mark '}']]) ∨
        lines = [mark '}'] :: [word "else", mark '{'] :: (inner ++ [[mark '}']]))

def Stmt.AllWritten : List Stmt → List (List Token) → Prop
  | [], lines => lines = []
  | stmt :: rest, lines => ∃ first more, stmt.Written first ∧ Stmt.AllWritten rest more ∧ lines = first ++ more

def Branch.AllWritten : List Branch → List (List (List Token)) → Prop
  | [], blocks => blocks = []
  | .mk labels body :: rest, blocks =>
    ∃ inner more, Stmt.AllWritten body inner ∧ Branch.AllWritten rest more ∧
      blocks = ((word "case" :: (labelsTokens labels ++ [mark '{'])) :: (inner ++ [[mark '}']])) :: more

end

namespace Expr.IsRead

variable {tree : Expr}

theorem canonical (read : tree.IsRead) : tree.Canonical := by
  obtain ⟨ts, parsed⟩ := read
  exact (Expr.kept_of_parse parsed).1

theorem parse (read : tree.IsRead) : Expr.parse tree.tokens = .ok tree.bare :=
  Expr.parse_eq_ok.2 (by simpa using read.canonical.yields Grammar.closes_nil)

theorem tokens_ne_nil (read : tree.IsRead) : tree.tokens ≠ [] := by
  intro empty
  have opens := Expr.opens read.canonical
  rw [empty] at opens
  exact opens

end Expr.IsRead

-- A token that an expression can hold: it neither closes a block nor is the sign of an assignment.
def Token.IsInner (t : Token) : Prop :=
  t.isPunct '}' = false ∧ t.isOperator "=" = false

namespace Token

@[simp] theorem isInner_word (text : String) : (word text).IsInner := by simp [IsInner, isOperator]

@[simp]
theorem isInner_mark {c : Char} : (mark c).IsInner ↔ c ≠ '}' := by
  simp [IsInner, isOperator]

@[simp]
theorem isInner_binary (op : BinaryOp) : (symbol op.symbol).IsInner := by
  cases op <;> simp [IsInner, isOperator, BinaryOp.symbol]

@[simp]
theorem isInner_unary (op : UnaryOp) : (symbol op.symbol).IsInner := by
  cases op <;> simp [IsInner, isOperator, UnaryOp.symbol]

theorem isInner_literal {t : Token} (literal : t.isLiteral ∨ Grammar.isWordLiteral t) : t.IsInner := by
  obtain ⟨kind, text, column⟩ := t
  cases kind <;> simp_all [IsInner, isOperator, isPunct, isLiteral, isInteger, Grammar.isWordLiteral, isWord]

end Token

theorem TypeName.isInner_tokens (t : TypeName) : ∀ token ∈ t.tokens, token.IsInner := by
  simp +contextual [TypeName.tokens, List.mem_replicate, or_imp]

mutual

theorem Expr.isInner_tokens : (tree : Expr) → tree.Canonical → ∀ t ∈ tree.tokens, t.IsInner
  | .operand arg grouped, canonical => by
    have inner := Operand.isInner_tokens arg canonical
    cases grouped
    · exact inner
    · simpa [Expr.tokens, or_imp, forall_and] using inner
  | .binary op left right grouped, canonical => by
    have first := Expr.isInner_tokens left canonical.1
    have second := Expr.isInner_tokens right canonical.2.1
    cases grouped <;> simpa [Expr.tokens, or_imp, forall_and] using And.intro first second

theorem Operand.isInner_tokens : (arg : Operand) → arg.Canonical → ∀ t ∈ arg.tokens, t.IsInner
  | .atom (.literal token) none, canonical => Atom.isInner_tokens (.literal token) canonical
  | .atom (.load head calls) none, canonical => Atom.isInner_tokens (.load head calls) canonical
  | .atom (.literal token) (some op), canonical => by
    simpa [Operand.tokens] using Atom.isInner_tokens (.literal token) canonical
  | .atom (.load head calls) (some op), canonical => by
    simpa [Operand.tokens] using Atom.isInner_tokens (.load head calls) canonical
  | .atom (.nested inner) (some op), canonical => by
    simpa [Operand.tokens, Atom.tokens] using Expr.isInner_tokens inner canonical.1
  | .cast target inner, canonical => by
    have inside := Expr.isInner_tokens inner canonical.2.1
    simpa [Operand.tokens, or_imp, forall_and] using And.intro target.isInner_tokens inside
  | .array elements, canonical => by
    have inside := Expr.isInner_listed elements canonical
    simpa [Operand.tokens, or_imp, forall_and] using inside
  | .create className arguments, canonical => by
    have inside := Expr.isInner_listed arguments canonical
    simpa [Operand.tokens, or_imp, forall_and] using inside

theorem Atom.isInner_tokens : (value : Atom) → value.Canonical → ∀ t ∈ value.tokens, t.IsInner
  | .literal token, canonical => by
    have bare : token.bare.IsInner := Token.isInner_literal canonical
    simpa [Atom.tokens] using bare
  | .load head calls, canonical => by
    have inside := Call.isInner_dotted calls canonical.2
    cases head with
    | implicit => exact fun t member => inside t (List.mem_of_mem_tail member)
    | self | named | member => simpa [Atom.tokens, or_imp, forall_and] using inside
  | .nested inner, canonical => Expr.isInner_tokens inner canonical.1

theorem Call.isInner_dotted : (calls : List Call) → Call.AllCanonical calls → ∀ t ∈ Call.dotted calls, t.IsInner
  | [], _ => by simp [Call.dotted]
  | .call name arguments :: rest, canonical => by
    have given := Expr.isInner_listed arguments canonical.1
    have more := Call.isInner_dotted rest canonical.2
    simpa [Call.dotted, or_imp, forall_and] using And.intro given more

theorem Expr.isInner_listed : (trees : List Expr) → Expr.AllCanonical trees → ∀ t ∈ Expr.listed trees, t.IsInner
  | [], _ => by simp [Expr.listed]
  | tree :: rest, canonical => by
    have first := Expr.isInner_tokens tree canonical.1
    have more := Expr.isInner_followed rest canonical.2
    simpa [Expr.listed, or_imp, forall_and] using And.intro first more

theorem Expr.isInner_followed : (trees : List Expr) → Expr.AllCanonical trees → ∀ t ∈ Expr.followed trees, t.IsInner
  | [], _ => by simp [Expr.followed]
  | tree :: rest, canonical => by
    have first := Expr.isInner_tokens tree canonical.1
    have more := Expr.isInner_followed rest canonical.2
    simpa [Expr.followed, or_imp, forall_and] using And.intro first more

end

variable {ts : List Token} {value : Expr} {type : TypeName}

namespace Grammar

theorem header_tokens {tree : Expr} (read : tree.IsRead) : header (tree.tokens ++ [mark '{']) = .ok tree.bare := by
  unfold header
  rw [if_pos ⟨by simp, by simpa using read.tokens_ne_nil⟩]
  simpa using read.parse

theorem labelValue_digits {label : Int} (low : -(2 ^ 31) ≤ label) (high : label < 2 ^ 31) :
    labelValue (label < 0) { kind := .int, text := toString label.natAbs, column := 0 } = .ok label := by
  have digits : Text.ofDigits (toString label.natAbs).toList = label.natAbs := by
    rw [Nat.toString_eq_repr, Nat.toList_repr]
    change Nat.ofDigitChars 10 _ 0 = _
    simp
  have value : (if decide (label < 0) = true then -(label.natAbs : Int) else label.natAbs) = label := by
    simp only [decide_eq_true_eq]
    split_ifs <;> omega
  have bounded : (label.natAbs : Int) < (Nat.pow 2 63 : Nat) ∧ -(Nat.pow 2 31 : Nat) ≤ label ∧
      label < (Nat.pow 2 31 : Nat) := by
    simp only [show Nat.pow 2 63 = 9223372036854775808 from rfl, show Nat.pow 2 31 = 2147483648 from rfl]
    omega
  unfold labelValue
  rw [if_pos (by simp [Token.isInteger])]
  simp only [digits, value]
  rw [if_pos bounded]

theorem caseLabels_tokens {labels : List Int} (some : labels ≠ [])
    (range : ∀ label ∈ labels, -(2 ^ 31) ≤ label ∧ label < 2 ^ 31) :
    caseLabels (labelsTokens labels ++ [mark '{']) = .ok labels := by
  induction labels with
  | nil => exact absurd rfl some
  | cons label rest ih =>
    obtain ⟨⟨low, high⟩, others⟩ := List.forall_mem_cons.1 range
    -- The tokens of the label are read the same way whatever follows them.
    have first (ts : List Token) : caseLabels (labelTokens label ++ ts) = caseLabels.moreLabels label ts := by
      have value := labelValue_digits low high
      unfold labelTokens
      by_cases negative : label < 0
      · simp only [negative, decide_true] at value
        simp only [negative, if_true, List.cons_append, List.nil_append]
        unfold caseLabels
        rw [if_pos (by simp [Token.isOperator])]
        simp only [value]
        rfl
      · simp only [negative, decide_false] at value
        simp only [negative, if_false, List.cons_append, List.nil_append]
        unfold caseLabels
        rw [if_neg (by simp [Token.isOperator]), value]
        rfl
    cases rest with
    | nil =>
      rw [labelsTokens, first, caseLabels.moreLabels, if_pos (by decide)]
      rfl
    | cons next more =>
      rw [labelsTokens, List.append_assoc, first, List.cons_append, caseLabels.moreLabels, if_neg (by decide),
        if_pos (by decide), ih (by simp) others]
      · rfl
      · simp

theorem declarationHead?_eq_none (inner : ∀ t ∈ ts, t.IsInner) : declarationHead? ts = none := by
  cases ts with
  | nil => rfl
  | cons t ts =>
    have among := dimensions_subset ts
    rcases split : dimensions ts with ⟨dims, _ | ⟨name, _ | ⟨eq, value⟩⟩⟩
    · cases isIdentifier : t.isIdentifier <;> simp [declarationHead?, split, isIdentifier]
    · cases isIdentifier : t.isIdentifier <;> simp [declarationHead?, split, isIdentifier]
    · rw [split] at among
      have noSign : eq.isOperator "=" = false := (inner eq (List.mem_cons_of_mem t (among (by simp)))).2
      cases isIdentifier : t.isIdentifier <;> simp [declarationHead?, split, isIdentifier, noSign]

theorem declarationHead?_tokens (type : TypeName) (name : String) (value : List Token) :
    declarationHead? (type.tokens ++ word name :: symbol "=" :: value) = some (type, name, value) := by
  have found := dimensions_replicate type.dims (Token.isPunct_word name '[') (symbol "=" :: value)
  simp [TypeName.tokens, declarationHead?, Token.isIdentifier, Token.isOperator, found]

theorem not_final (free : StartsFree ts) : ts.head?.any (·.isWord "final") = false := by
  cases first : ts.head? with
  | none => rfl
  | some t => exact free t (by simp [first]) "final" (by decide)

theorem simpleAction_plain (free : StartsFree ts) (undeclared : declarationHead? ts = none) :
    simpleAction ts = plainAction ts := by
  simp [simpleAction, not_final free, undeclared]

theorem simpleAction_declared {value : List Token} {name : String} {tree : Expr} (free : StartsFree ts)
    (head : declarationHead? ts = some (type, name, value)) (read : Expr.parse value = .ok tree) :
    simpleAction ts = .ok (.declare false type name tree) := by
  simp [simpleAction, not_final free, head, read]

theorem startsFree_append (some : ts ≠ []) (free : StartsFree ts) (us : List Token) : StartsFree (ts ++ us) := by
  cases ts with
  | nil => exact absurd rfl some
  | cons t ts => exact free

theorem simpleAction_eval (read : value.IsRead) (calls : value.callsSomething = true)
    (free : StartsFree value.tokens) : simpleAction value.tokens = .ok (.eval value.bare) := by
  have inner := Expr.isInner_tokens value read.canonical
  have noSign : value.tokens.dropWhile (fun t => ¬ t.isOperator "=") = [] := by
    rw [List.dropWhile_eq_nil_iff]
    intro t member
    simp [(inner t member).2]
  rw [simpleAction_plain free (declarationHead?_eq_none inner), plainAction_eq, noSign]
  simp only [read.parse]
  change evalAction value.bare = _
  rw [evalAction_eq, (Expr.bare_alike _).1, if_pos calls]

theorem simpleAction_assign {target : Head} (place : target.place.IsRead) (read : value.IsRead)
    (free : StartsFree target.place.tokens) :
    simpleAction (target.place.tokens ++ symbol "=" :: value.tokens) = .ok (.assign target value.bare) := by
  have inner := Expr.isInner_tokens target.place place.canonical
  have skipped : ∀ t ∈ target.place.tokens, decide (¬ t.isOperator "=" = true) = true := by
    intro t member
    simp [(inner t member).2]
  have undeclared : declarationHead? (target.place.tokens ++ symbol "=" :: value.tokens) = none := by
    have takes : target.Takes [] := place.canonical.1
    cases target with
    | implicit => exact takes.elim
    | self => exact absurd rfl takes
    | named id =>
      have found : dimensions (symbol "=" :: value.tokens) = (0, symbol "=" :: value.tokens) :=
        dimensions_eq (by simp) _
      rcases ended : value.tokens with _ | ⟨t, ts⟩
      · exact absurd ended read.tokens_ne_nil
      · rw [ended] at found
        simp [Head.place, Expr.leaf, Expr.tokens, Operand.tokens, Atom.tokens, Call.dotted, declarationHead?, found,
          Token.isIdentifier]
    | member owner id =>
      have found := dimensions_eq (u := mark '.') (by decide) (word id :: symbol "=" :: value.tokens)
      simp [Head.place, Expr.leaf, Expr.tokens, Operand.tokens, Atom.tokens, Call.dotted, declarationHead?, found,
        Token.isIdentifier]
  rw [simpleAction_plain (startsFree_append place.tokens_ne_nil free _) undeclared, plainAction_eq,
    List.dropWhile_append_of_pos skipped, List.takeWhile_append_of_pos skipped, List.dropWhile_cons_of_neg (by decide),
    List.takeWhile_cons_of_neg (by decide), List.append_nil, place.parse]
  simp only [read.parse]
  rfl

theorem startsFree_type (plain : type.base ∉ Stmt.keywords) (ts : List Token) : StartsFree (type.tokens ++ ts) := by
  rintro _ ⟨⟩ keyword among
  have other : type.base ≠ keyword := fun same => plain (same ▸ among)
  simp [Token.isWord, other]

theorem simpleAction_declare (plain : type.base ∉ Stmt.keywords) (read : value.IsRead)
    (isFinal : Bool) (name : String) :
    simpleAction ((if isFinal then [word "final"] else []) ++
      (type.tokens ++ word name :: symbol "=" :: value.tokens)) =
      .ok (.declare isFinal type name value.bare) := by
  have head := declarationHead?_tokens type name value.tokens
  cases isFinal with
  | false =>
    simpa using simpleAction_declared (startsFree_type plain _) head read.parse
  | true =>
    simp only [if_true, List.cons_append, List.nil_append]
    unfold simpleAction
    simp [Token.isWord, head, read.parse]

def Takes {α : Type} (rule : (lines : List TokenLine) → Except CompileError (α × LinesLeft lines))
    (lines : List TokenLine) (a : α) (rest : List TokenLine) : Prop :=
  ∃ fewer, rule lines = .ok (a, ⟨rest, fewer⟩)

def BlockTakes (path : SourcePath) (done : List Stmt) (lines : List TokenLine) (body : List Stmt) (tail : List Token)
    (rest : List TokenLine) : Prop :=
  ∃ fewer, block path done lines = .ok (body, tail, ⟨rest, fewer⟩)

def CasesTake (path : SourcePath) (done : List Branch) (default : Option (List Stmt)) (lines : List TokenLine)
    (branches : List Branch) (default' : Option (List Stmt)) (rest : List TokenLine) : Prop :=
  ∃ fewer, cases path done default lines = .ok (branches, default', ⟨rest, fewer⟩)

def NoClause (lines : List TokenLine) : Prop :=
  ∀ line ∈ lines.head?, ∀ t ∈ line.tokens.head?, ¬ (t.isWord "elif" = true ∨ t.isWord "else" = true)

section Steps

variable {path : SourcePath} {t : Token} {ts tail : List Token} {lines lines1 rest : List TokenLine} {act : Action}
  {tree : Expr} {stmt : Stmt} {body done : List Stmt} {chain : IfChain} {other : Otherwise}

theorem takes_statement (line : TokenLine) (next : Takes (action path line.tokens) lines act rest) :
    Takes (statement path line) lines (.mk line.number act) rest := by
  obtain ⟨_, run⟩ := next
  constructor
  rw [statement, run]
  rfl

theorem takes_return : Takes (action path [word "return"]) lines (.ret none) lines := by
  constructor
  rw [action, if_pos (by decide), if_pos (by decide)]

theorem takes_return_value (read : Expr.parse ts = .ok tree) (some : ts ≠ []) :
    Takes (action path (word "return" :: ts)) lines (.ret tree) lines := by
  constructor
  rw [action, if_pos (by decide), if_neg (by simpa using some), read]
  rfl

theorem takes_throw (read : Expr.parse ts = .ok tree) :
    Takes (action path (word "throw" :: ts)) lines (.raise tree) lines := by
  constructor
  rw [action, if_neg (by decide), if_pos (by decide), read]
  rfl

theorem takes_if (next : Takes (ifChain path ts) lines chain rest) :
    Takes (action path (word "if" :: ts)) lines (.cond chain) rest := by
  obtain ⟨_, run⟩ := next
  constructor
  rw [action, if_neg (by decide), if_neg (by decide), if_pos (by decide), run]
  rfl

theorem takes_while (read : header ts = .ok tree) (next : BlockTakes path [] lines body [] rest) :
    Takes (action path (word "while" :: ts)) lines (.loop tree body) rest := by
  obtain ⟨_, run⟩ := next
  constructor
  rw [action, if_neg (by decide), if_neg (by decide), if_neg (by decide), if_pos (by decide), read]
  change (block path [] lines >>= _) = _
  rw [run]
  rfl

theorem takes_switch {branches : List Branch} {default : Option (List Stmt)} (read : header ts = .ok tree)
    (next : CasesTake path [] none lines branches default rest) :
    Takes (action path (word "switch" :: ts)) lines (.select tree branches default) rest := by
  obtain ⟨_, run⟩ := next
  constructor
  rw [action, if_neg (by decide), if_neg (by decide), if_neg (by decide), if_neg (by decide), if_pos (by decide), read]
  change (cases path [] none lines >>= _) = _
  rw [run]
  rfl

theorem takes_simple (plain : ∀ keyword ∈ Stmt.leading, ¬ t.isWord keyword = true)
    (next : simpleAction (t :: ts) = .ok act) : Takes (action path (t :: ts)) lines act lines := by
  constructor
  rw [action, if_neg (plain _ (by decide)), if_neg (plain _ (by decide)), if_neg (plain _ (by decide)),
    if_neg (plain _ (by decide)), if_neg (plain _ (by decide)), next]
  rfl

theorem blockTakes_nil (line : TokenLine) :
    BlockTakes path done ({ line with tokens := mark '}' :: tail } :: rest) done.reverse tail rest := by
  constructor
  rw [block, if_pos (by simp [nextIs])]
  rfl

theorem blockTakes_cons (line : TokenLine) (opens : nextIs '}' line.tokens = false)
    (next : Takes (statement path line) lines stmt lines1)
    (more : BlockTakes path (stmt :: done) lines1 body tail rest) :
    BlockTakes path done (line :: lines) body tail rest := by
  obtain ⟨_, run1⟩ := next
  obtain ⟨_, run2⟩ := more
  constructor
  rw [block, if_neg (by simp [opens]), run1]
  change (block path (stmt :: done) lines1 >>= _) = _
  rw [run2]
  rfl

theorem takes_ifChain (read : header ts = .ok tree) (next : BlockTakes path [] lines body tail lines1)
    (more : Takes (otherwise path tail) lines1 other rest) :
    Takes (ifChain path ts) lines (.mk tree body other) rest := by
  obtain ⟨_, run1⟩ := next
  obtain ⟨_, run2⟩ := more
  constructor
  rw [ifChain, read]
  change (block path [] lines >>= _) = _
  rw [run1]
  change (otherwise path tail lines1 >>= _) = _
  rw [run2]
  rfl

theorem takes_skip (noClause : NoClause rest) : Takes (otherwise path []) rest .skip rest := by
  refine ⟨Nat.le_refl _, ?_⟩
  unfold otherwise
  cases rest with
  | nil => rfl
  | cons line rest =>
    have apart := noClause line rfl
    cases tokens : line.tokens with
    | nil => simp only [tokens]
    | cons t ts =>
      rw [tokens] at apart
      simp only [tokens, if_neg (apart t rfl)]

theorem takes_clause_here (next : Takes (clause path t ts) lines other rest) :
    Takes (otherwise path (t :: ts)) lines other rest := by
  obtain ⟨_, run⟩ := next
  constructor
  rw [otherwise, run]

theorem takes_clause_below (line : TokenLine) (isClause : t.isWord "elif" = true ∨ t.isWord "else" = true)
    (next : Takes (clause path t ts) lines other rest) :
    Takes (otherwise path []) ({ line with tokens := t :: ts } :: lines) other rest := by
  obtain ⟨_, run⟩ := next
  constructor
  unfold otherwise
  simp only [if_pos isClause]
  rw [run]
  rfl

theorem takes_elif (next : Takes (ifChain path ts) lines chain rest) :
    Takes (clause path (word "elif") ts) lines (.elif chain) rest := by
  obtain ⟨_, run⟩ := next
  constructor
  rw [clause, if_pos (by decide), run]
  rfl

theorem takes_else (next : BlockTakes path [] lines body [] rest) :
    Takes (clause path (word "else") [mark '{']) lines (.block body) rest := by
  obtain ⟨_, run⟩ := next
  constructor
  rw [clause, if_neg (by decide), if_pos (by decide)]
  change (block path [] lines >>= _) = _
  rw [run]
  rfl

variable {branches before : List Branch} {default default' : Option (List Stmt)} {labels : List Int}

theorem casesTake_nil (line : TokenLine) :
    CasesTake path before default ({ line with tokens := [mark '}'] } :: rest) before.reverse default rest := by
  constructor
  unfold cases
  simp only [Token.isPunct_mark, decide_true, if_true]
  rfl

theorem casesTake_case (line : TokenLine) (read : caseLabels ts = .ok labels)
    (distinct : repeatedLabel? (before.flatMap Branch.labels) labels = none)
    (next : BlockTakes path [] lines body [] lines1)
    (more : CasesTake path (.mk labels body :: before) default lines1 branches default' rest) :
    CasesTake path before default ({ line with tokens := word "case" :: ts } :: lines) branches default' rest := by
  obtain ⟨_, run1⟩ := next
  obtain ⟨_, run2⟩ := more
  constructor
  unfold cases
  dsimp only
  rw [if_neg (by simp), if_pos (by decide), read]
  have labelled {β : Type} (f : List Int → Except CompileError β) :
      (located ⟨path, line.number⟩ (Except.ok labels) >>= f) = f labels := rfl
  rw [labelled]
  simp only [distinct]
  rw [run1]
  change (cases path (.mk labels body :: before) default lines1 >>= _) = _
  rw [run2]
  rfl

theorem casesTake_default (line : TokenLine) (next : BlockTakes path [] lines body [] lines1)
    (more : CasesTake path before (some body) lines1 branches default' rest) :
    CasesTake path before none ({ line with tokens := [word "default", mark '{'] } :: lines)
      branches default' rest := by
  obtain ⟨_, run1⟩ := next
  obtain ⟨_, run2⟩ := more
  constructor
  unfold cases
  dsimp only
  rw [if_neg (by simp), if_neg (by decide), if_pos (by decide), if_neg (by decide)]
  change (block path [] lines >>= _) = _
  rw [run1]
  change (cases path before (some body) lines1 >>= _) = _
  rw [run2]
  rfl

theorem statements_cons (line : TokenLine) {stmts : List Stmt} (opens : nextIs '}' line.tokens = false)
    (next : Takes (statement path line) lines stmt rest) (more : statements path (stmt :: done) rest = .ok stmts) :
    statements path done (line :: lines) = .ok stmts := by
  obtain ⟨_, run⟩ := next
  rw [statements, if_neg (by simp [opens]), run]
  exact more

end Steps

end Grammar

end ClassForge
