import ClassForge.Proofs.ExprTokens
import ClassForge.Proofs.Steps

set_option autoImplicit false

namespace ClassForge

open Token (word symbol mark)

def Gives {ε α : Type} (P : α → Prop) (x : Except ε α) : Prop :=
  ∀ a, x = .ok a → P a

namespace Gives

variable {ε α β : Type} {P : α → Prop} {Q : β → Prop}

theorem ok {a : α} (holds : P a) : Gives P (.ok a : Except ε α) := by
  rintro _ ⟨⟩
  exact holds

theorem error (e : ε) : Gives P (.error e : Except ε α) := by
  rintro _ ⟨⟩

theorem bind {x : Except ε α} {f : α → Except ε β} (first : Gives P x) (second : ∀ a, P a → Gives Q (f a)) :
    Gives Q (x >>= f) := by
  cases x with
  | ok a => exact second a (first a rfl)
  | error e => exact error e

theorem ite {p : Prop} [Decidable p] {x y : Except ε α} (yes : p → Gives P x) (no : ¬ p → Gives P y) :
    Gives P (if p then x else y) := by
  by_cases h : p
  · simpa only [if_pos h] using yes h
  · simpa only [if_neg h] using no h

end Gives

variable {t : Token} {op : BinaryOp}

namespace Token

def isParen (t : Token) : Bool :=
  t.isPunct '(' || t.isPunct ')'

def significant (ts : List Token) : List Token :=
  (ts.map bare).filter (¬ ·.isParen)

@[simp] theorem significant_nil : significant [] = [] := rfl

@[simp]
theorem significant_append (ts us : List Token) : significant (ts ++ us) = significant ts ++ significant us := by
  simp [significant]

@[simp]
theorem significant_word (text : String) (ts : List Token) :
    significant (word text :: ts) = word text :: significant ts := by
  simp [significant, isParen]

@[simp]
theorem significant_symbol (text : String) (ts : List Token) :
    significant (symbol text :: ts) = symbol text :: significant ts := by
  simp [significant, isParen]

@[simp]
theorem significant_mark (c : Char) (ts : List Token) :
    significant (mark c :: ts) = if c = '(' ∨ c = ')' then significant ts else mark c :: significant ts := by
  by_cases paren : c = '(' ∨ c = ')'
  · rcases paren with rfl | rfl <;> simp [significant, isParen]
  · have other := not_or.1 paren
    simp [significant, isParen, other.1, other.2]

theorem significant_cons_bare (t : Token) (ts : List Token) : significant (t :: ts) = significant (t.bare :: ts) :=
  rfl

theorem bare_of_isIdentifier (h : t.isIdentifier = true) : t.bare = word t.text := by
  simp only [isIdentifier, decide_eq_true_eq] at h
  simp [bare, word, h]

theorem bare_of_isPunct {c : Char} (h : t.isPunct c = true) : t.bare = mark c := by
  simp only [isPunct, decide_eq_true_eq] at h
  simp [bare, mark, h.1, h.2]

theorem bare_of_binaryOp? (h : Grammar.binaryOp? t = some op) : t.bare = symbol op.symbol := by
  unfold Grammar.binaryOp? at h
  split_ifs at h with kind
  have text : op.symbol = t.text := by simpa using List.find?_some h
  simp [bare, symbol, kind, text]

theorem bare_of_ofSymbol? {op : UnaryOp} (kind : t.kind = .operator) (h : UnaryOp.ofSymbol? t.text = some op) :
    t.bare = symbol op.symbol := by
  have text : op.symbol = t.text := by simpa using List.find?_some h
  simp [bare, symbol, kind, text]

end Token

open Token (significant)

variable {tree : Expr} {head : Head}

namespace Expr

theorem strength_of_isPrimary (primary : tree.isPrimary = true) : tree.strength = 11 := by
  rcases tree with ⟨arg, grouped⟩ | ⟨op, left, right, _ | _⟩
  · rfl
  · cases primary
  · rfl

theorem tokens_push (tree : Expr) (op : BinaryOp) (rhs : Expr) :
    (tree.push op rhs).tokens = tree.tokens ++ symbol op.symbol :: rhs.tokens := by
  fun_induction push tree op rhs with
  | case1 | case2 => rfl
  | case3 own left right op rhs stronger ih => simp [tokens, ih]
  | case4 => rfl

theorem lt_strength_push {n : Nat} (strong : n < tree.strength) (stronger : n < op.precedence)
    (rhs : Expr) : n < (tree.push op rhs).strength := by
  fun_cases push tree op rhs with
  | case1 | case2 => exact stronger
  | case3 => exact strong
  | case4 => exact stronger

theorem Canonical.push {rhs : Expr} (canonical : tree.Canonical) (canonicalRhs : rhs.Canonical)
    (strong : rhs.strength = 11) (op : BinaryOp) : (tree.push op rhs).Canonical := by
  have weaker : op.precedence < rhs.strength := strong ▸ precedence_lt op
  fun_induction Expr.push tree op rhs with
  | case1 | case2 => exact ⟨canonical, canonicalRhs, (precedence_lt _).le, weaker⟩
  | case3 own left right op rhs stronger ih =>
    obtain ⟨canonicalLeft, canonicalRight, leftStrong, rightStrong⟩ := canonical
    exact ⟨canonicalLeft, ih canonicalRight canonicalRhs strong weaker, leftStrong,
      lt_strength_push rightStrong stronger rhs⟩
  | case4 own left right op rhs notStronger => exact ⟨canonical, canonicalRhs, Nat.not_lt.1 notStronger, weaker⟩

theorem tokens_applyUnary (op : UnaryOp) (tree : Expr) :
    (tree.applyUnary op).tokens = symbol op.symbol :: tree.tokens := by
  fun_cases applyUnary op tree <;> rfl

theorem Canonical.applyUnary (canonical : tree.Canonical) (strong : tree.strength = 11) (op : UnaryOp) :
    (tree.applyUnary op).Canonical := by
  rcases tree with ⟨⟨_ | _ | _, _ | _⟩ | _ | _ | _, _ | _⟩ | _
  case operand.atom.literal.none.false => exact canonical
  case operand.atom.load.none.false => exact canonical
  case operand.atom.nested.none.false => exact canonical.elim
  all_goals exact ⟨canonical, strong, rfl⟩

theorem canonical_group : tree.group.Canonical ↔ tree.Canonical := by
  cases tree <;> rfl

theorem isPrimary_group (tree : Expr) : tree.group.isPrimary = true := by
  rcases tree with ⟨⟨_, _ | _⟩ | _ | _ | _, _⟩ | _ <;> rfl

theorem significant_group (tree : Expr) : significant tree.group.tokens = significant tree.tokens := by
  rcases tree with ⟨arg, _ | _⟩ | ⟨op, left, right, _ | _⟩ <;> simp [group, tokens]

theorem followed_eq {trees : List Expr} (some : trees ≠ []) : followed trees = mark ',' :: listed trees := by
  cases trees with
  | nil => exact absurd rfl some
  | cons tree rest => rfl

end Expr

theorem Call.dotted_append (calls more : List Call) :
    Call.dotted (calls ++ more) = Call.dotted calls ++ Call.dotted more := by
  induction calls with
  | nil => rfl
  | cons call rest ih =>
    obtain ⟨name, arguments⟩ := call
    simp [Call.dotted, ih]

theorem Call.allCanonical_append {calls more : List Call} :
    Call.AllCanonical (calls ++ more) ↔ Call.AllCanonical calls ∧ Call.AllCanonical more := by
  induction calls with
  | nil => simp [Call.AllCanonical]
  | cons call rest ih =>
    obtain ⟨name, arguments⟩ := call
    simp [Call.AllCanonical, ih, and_assoc]

theorem Atom.tokens_load_append {calls : List Call} (takes : head.Takes calls) (more : List Call) :
    (Atom.load head (calls ++ more)).tokens = (Atom.load head calls).tokens ++ Call.dotted more := by
  cases head with
  | implicit =>
    cases calls with
    | nil => exact takes.elim
    | cons call rest =>
      obtain ⟨name, arguments⟩ := call
      simp [tokens, Call.dotted, Call.dotted_append]
  | self | named | member => simp [tokens, Call.dotted_append]

theorem Atom.tokens_receiver (first second : String) (args : List Expr) :
    (Atom.load (if first = "this" then .self else .named first) [.call second args]).tokens =
      word first :: mark '.' :: word second :: mark '(' :: (Expr.listed args ++ [mark ')']) := by
  by_cases this : first = "this"
  · rw [if_pos this, this]
    rfl
  · rw [if_neg this]
    rfl

variable {ts : List Token}

namespace Grammar

def Kept {α : Type} (sound : α → Prop) (written : α → List Token) (before : List Token) (x : α × Unread ts) : Prop :=
  sound x.1 ∧ significant before = significant (written x.1) ++ significant x.2.1

theorem significant_punct {c : Char} (h : t.isPunct c = true) (ts : List Token) :
    significant (t :: ts) = significant (mark c :: ts) := by
  rw [Token.significant_cons_bare, Token.bare_of_isPunct h]

theorem significant_identifier (h : t.isIdentifier = true) (ts : List Token) :
    significant (t :: ts) = word t.text :: significant ts := by
  rw [Token.significant_cons_bare, Token.bare_of_isIdentifier h, Token.significant_word]

theorem gives_expected {α : Type} {P : α → Prop} (what : String) (found : Option Token) :
    Gives P (TokenRule.expected what found) :=
  .error _

theorem identifier_kept (what : String) (ts : List Token) :
    Gives (Kept (fun _ => True) (fun name => [word name]) ts) (identifier what ts) := by
  cases ts with
  | nil => exact gives_expected _ _
  | cons t ts =>
    refine .ite (fun isIdentifier => .ok ⟨trivial, ?_⟩) fun _ => gives_expected _ _
    simpa using significant_identifier isIdentifier ts

theorem dimensions_kept (ts : List Token) :
    significant ts = significant (List.replicate (dimensions ts).1 [mark '[', mark ']']).flatten ++
      significant (dimensions ts).2 := by
  fun_induction dimensions ts with
  | case1 a b ts pair dims rest split ih =>
    rw [split] at ih
    have here : significant (a :: b :: ts) = significant (mark '[' :: mark ']' :: ts) := by
      rw [← Token.bare_of_isPunct pair.1, ← Token.bare_of_isPunct pair.2]
      rfl
    rw [here]
    simp [List.replicate_succ, ih]
  | case2 | case3 => simp

theorem castParts?_kept {rest : List Token} {target : TypeName} (h : castParts? ts = some (target, rest)) :
    target.IsCastable ∧ startsOperand rest = true ∧
      significant ts = significant (target.tokens ++ [mark ')']) ++ significant rest := by
  cases ts with
  | nil => cases h
  | cons t ts =>
    have brackets := dimensions_kept ts
    simp only [castParts?] at h
    split_ifs at h with type
    rcases split : dimensions ts with ⟨dims, _ | ⟨close, left⟩⟩
    · simp [split] at h
    · simp only [split] at h brackets
      split_ifs at h with ended
      cases h
      refine ⟨type.2, ended.2, ?_⟩
      rw [significant_identifier type.1, brackets, significant_punct ended.1]
      simp [TypeName.tokens]

theorem nextIs_kept {p : Char} (h : nextIs p ts = true) :
    significant ts = significant [mark p] ++ significant ts.tail := by
  cases ts with
  | nil => cases h
  | cons t ts =>
    have isPunct : t.isPunct p = true := by simpa [nextIs] using h
    rw [significant_punct isPunct, ← Token.significant_append]
    rfl

theorem calls_stop {done : List Call} (ends : nextIs '.' ts = false) :
    calls head done ts = .ok (.load head done.reverse, ⟨ts, Nat.le_refl _⟩) :=
  (yields_calls_nil ends).2

mutual

theorem expression_kept (ts : List Token) : Gives (Kept Expr.Canonical Expr.tokens ts) (expression ts) := by
  unfold expression
  refine (operand_kept ts).bind ?_
  rintro ⟨left, ts1, h1⟩ ⟨⟨canonical, -⟩, same⟩
  refine (operators_kept left canonical ts1).bind ?_
  rintro ⟨tree, ts2, h2⟩ ⟨canonical, more⟩
  refine .ok ⟨canonical, ?_⟩
  rw [← more]
  simpa using same
termination_by 5 * ts.length + 1

theorem operators_kept (left : Expr) (canonical : left.Canonical) (ts : List Token) :
    Gives (Kept Expr.Canonical Expr.tokens (left.tokens ++ ts)) (operators left ts) := by
  cases ts with
  | nil =>
    unfold operators
    exact .ok ⟨canonical, by simp⟩
  | cons t ts =>
    unfold operators
    dsimp only
    cases found : binaryOp? t with
    | none => exact .ok ⟨canonical, by simp⟩
    | some op =>
      refine (operand_kept ts).bind ?_
      rintro ⟨right, ts1, h1⟩ ⟨⟨canonicalRight, strong, -⟩, same⟩
      refine (operators_kept (left.push op right) (canonical.push canonicalRight strong op) ts1).bind ?_
      rintro ⟨tree, ts2, h2⟩ ⟨canonical, more⟩
      refine .ok ⟨canonical, ?_⟩
      dsimp only at same more ⊢
      rw [← more, Token.significant_append, Token.significant_cons_bare, Token.bare_of_binaryOp? found]
      simp [Expr.tokens_push, same]
termination_by 5 * ts.length

theorem operand_kept (ts : List Token) :
    Gives (Kept (fun tree : Expr => tree.Canonical ∧ tree.strength = 11 ∧
      (startsOperand ts = true → tree.isPrimary = true))
      Expr.tokens ts) (operand ts) := by
  cases ts with
  | nil =>
    unfold operand
    exact gives_expected _ _
  | cons t ts =>
    unfold operand
    refine .ite (fun isOperator => ?_) fun _ => ?_
    · cases found : UnaryOp.ofSymbol? t.text with
      | none => exact .error _
      | some op =>
        refine (operand_kept ts).bind ?_
        rintro ⟨tree, ts1, h1⟩ ⟨⟨canonical, strong, -⟩, same⟩
        have noStart : startsOperand (t :: ts) = false := by
          simp [startsOperand, Token.isIdentifier, Token.isLiteral, Token.isInteger, Token.isPunct, isOperator]
        refine .ok ⟨⟨canonical.applyUnary strong op, ?_, by simp [noStart]⟩, ?_⟩
        · fun_cases Expr.applyUnary op tree <;> rfl
        · dsimp only at same ⊢
          rw [Token.significant_cons_bare, Token.bare_of_ofSymbol? isOperator found]
          simp [Expr.tokens_applyUnary, same]
    · refine (primary_kept t ts).bind ?_
      rintro ⟨tree, ts1, h1⟩ ⟨⟨canonical, primary⟩, same⟩
      exact .ok ⟨⟨canonical, Expr.strength_of_isPrimary primary, fun _ => primary⟩, same⟩
termination_by 5 * ts.length

theorem primary_kept (t : Token) (ts : List Token) :
    Gives (Kept (fun tree : Expr => tree.Canonical ∧ tree.isPrimary = true) Expr.tokens (t :: ts)) (primary t ts) := by
  unfold primary
  refine .ite (fun literal => .ok ⟨⟨literal, rfl⟩, ?_⟩) fun notLiteral => .ite (fun isNew => ?_) fun notNew =>
    .ite (fun isIdentifier => ?_) fun _ => .ite (fun isParen => ?_) fun _ => .ite (fun isBracket => ?_) fun _ =>
      .error _
  · rw [Token.significant_cons_bare, ← Token.significant_append]
    rfl
  · refine (identifier_kept "class name" ts).bind ?_
    rintro ⟨className, ts1, h1⟩ ⟨-, name⟩
    refine (arguments_kept ts1).bind ?_
    rintro ⟨args, ts2, h2⟩ ⟨canonical, same⟩
    refine .ok ⟨⟨canonical, rfl⟩, ?_⟩
    simp only [Token.isWord, decide_eq_true_eq] at isNew
    dsimp only at name same ⊢
    rw [significant_identifier (by simp [Token.isIdentifier, isNew.1]), isNew.2, name, same]
    simp [Expr.leaf, Expr.tokens, Operand.tokens]
  · have loadable : IsLoadable t.text := by
      have kind : t.kind = .identifier := by simpa [Token.isIdentifier] using isIdentifier
      simp only [isWordLiteral, Token.isWord, kind, true_and, decide_eq_true_eq, not_or] at notLiteral notNew
      simp [IsLoadable, notLiteral.2, notNew]
    refine (load_kept t.text loadable ts).bind ?_
    rintro ⟨atom, ts1, h1⟩ ⟨canonical, same⟩
    refine .ok ⟨⟨canonical, rfl⟩, ?_⟩
    rw [significant_identifier isIdentifier, ← Token.significant_word]
    exact same
  · cases found : castTarget? ts with
    | none =>
      refine (expression_kept ts).bind ?_
      rintro ⟨inner, ts1, h1⟩ ⟨canonical, same⟩
      cases ts1 with
      | nil => exact gives_expected _ _
      | cons close ts2 =>
        refine .ite (fun isClose => .ok ⟨⟨Expr.canonical_group.2 canonical, Expr.isPrimary_group inner⟩, ?_⟩) fun _ =>
          gives_expected _ _
        dsimp only at same ⊢
        rw [significant_punct isClose] at same
        rw [significant_punct isParen, Expr.significant_group]
        simpa using same
    | some cast =>
      obtain ⟨target, ts1, h1⟩ := cast
      have parts := castTarget?_parts ts
      rw [found, Option.map_some] at parts
      obtain ⟨castable, starts, before⟩ := castParts?_kept parts.symm
      refine (operand_kept ts1).bind ?_
      rintro ⟨inner, ts2, h2⟩ ⟨⟨canonical, -, primary⟩, same⟩
      refine .ok ⟨⟨⟨castable, canonical, primary starts⟩, rfl⟩, ?_⟩
      dsimp only at same ⊢
      rw [significant_punct isParen, Token.significant_mark, if_pos (by decide), before, same]
      simp [Expr.leaf, Expr.tokens, Operand.tokens]
  · refine (items_kept ']' (by decide) ts).bind ?_
    rintro ⟨elements, ts1, h1⟩ ⟨canonical, same⟩
    refine .ok ⟨⟨canonical, rfl⟩, ?_⟩
    dsimp only at same ⊢
    rw [significant_punct isBracket, Token.significant_mark, if_neg (by decide), same]
    simp [Expr.leaf, Expr.tokens, Operand.tokens]
termination_by 5 * ts.length + 4

theorem arguments_kept (ts : List Token) : Gives (Kept Expr.AllCanonical Expr.listed ts) (arguments ts) := by
  cases ts with
  | nil =>
    unfold arguments
    exact gives_expected _ _
  | cons t ts =>
    unfold arguments
    refine .ite (fun isParen => ?_) fun _ => gives_expected _ _
    refine (items_kept ')' (by decide) ts).bind ?_
    rintro ⟨args, ts1, h1⟩ ⟨canonical, same⟩
    refine .ok ⟨canonical, ?_⟩
    dsimp only at same ⊢
    rw [significant_punct isParen, Token.significant_mark, if_pos (by decide), same]
    simp
termination_by 5 * ts.length

theorem items_kept (close : Char) (closing : close ∈ [')', ']']) (ts : List Token) :
    Gives (Kept Expr.AllCanonical (fun trees => Expr.listed trees ++ [mark close]) ts) (items close ts) := by
  unfold items
  refine .ite (fun ended => .ok ⟨trivial, ?_⟩) fun _ => ?_
  · simpa [Expr.listed] using nextIs_kept ended
  · intro x h
    exact ⟨(moreItems_kept close closing ts x h).1.1, (moreItems_kept close closing ts x h).2⟩
termination_by 5 * ts.length + 3

theorem moreItems_kept (close : Char) (closing : close ∈ [')', ']']) (ts : List Token) :
    Gives (Kept (fun trees => Expr.AllCanonical trees ∧ trees ≠ []) (fun trees => Expr.listed trees ++ [mark close]) ts)
      (moreItems close ts) := by
  unfold moreItems
  refine (expression_kept ts).bind ?_
  rintro ⟨item, ts1, h1⟩ ⟨canonical, same⟩
  cases ts1 with
  | nil => exact gives_expected _ _
  | cons t ts2 =>
    refine .ite (fun isClose => .ok ⟨⟨⟨canonical, trivial⟩, by simp⟩, ?_⟩) fun _ => .ite (fun isComma => ?_) fun _ =>
      gives_expected _ _
    · dsimp only at same ⊢
      rw [significant_punct isClose] at same
      rw [same, Expr.listed, ← Token.significant_append, ← Token.significant_append]
      simp [Expr.followed]
    · refine (moreItems_kept close closing ts2).bind ?_
      rintro ⟨rest, ts3, h3⟩ ⟨⟨canonicalRest, some⟩, more⟩
      refine .ok ⟨⟨⟨canonical, canonicalRest⟩, by simp⟩, ?_⟩
      dsimp only at same more ⊢
      rw [same, significant_punct isComma, Token.significant_mark, if_neg (by decide), more]
      simp [Expr.listed, Expr.followed_eq some]
termination_by 5 * ts.length + 2
decreasing_by
  · omega
  · simp only [List.length_cons] at h1
    omega

theorem load_kept (first : String) (loadable : IsLoadable first) (ts : List Token) :
    Gives (Kept (fun value => Operand.Canonical (.atom value none)) Atom.tokens (word first :: ts))
      (load first ts) := by
  have alone {us : List Token} (ends : nextIs '.' us = false) :
      Gives (Kept (fun value => Operand.Canonical (.atom value none)) Atom.tokens (word first :: us))
        (calls (.named first) [] us) := by
    rw [calls_stop ends]
    exact .ok ⟨⟨⟨loadable, fun _ => rfl⟩, trivial⟩, by simp [Atom.tokens, Call.dotted]⟩
  unfold load
  refine .ite (fun this => alone (by simpa using this.2)) fun notThis => .ite (fun isCall => ?_) fun notCall => ?_
  · have other : first ≠ "this" := by
      rintro rfl
      cases ts with
      | nil => cases isCall
      | cons t ts =>
        have paren := Token.bare_of_isPunct (by simpa [nextIs] using isCall)
        refine notThis ⟨rfl, ?_⟩
        rw [← nextIs_bare, List.map_cons, paren]
        simp [nextIs]
    refine (arguments_kept ts).bind ?_
    rintro ⟨args, ts1, h1⟩ ⟨canonical, same⟩
    refine (calls_kept .implicit [.call first args] (fun _ => ⟨loadable, other⟩) ⟨canonical, trivial⟩ ts1).bind ?_
    rintro ⟨atom, ts2, h2⟩ ⟨canonical, more⟩
    refine .ok ⟨canonical, ?_⟩
    dsimp only at same more ⊢
    rw [← more, Token.significant_word, same]
    simp [Atom.tokens, Call.dotted]
  · cases ts with
    | nil => exact alone rfl
    | cons t ts =>
      refine .ite (fun isDot => ?_) fun notDot => alone (by simpa [nextIs] using notDot)
      refine (identifier_kept _ ts).bind ?_
      rintro ⟨second, ts1, h1⟩ ⟨-, name⟩
      dsimp only at name
      refine .ite (fun _ => ?_) fun _ => ?_
      · refine (arguments_kept ts1).bind ?_
        rintro ⟨args, ts2, h2⟩ ⟨canonical, same⟩
        have takes : ∀ more, (if first = "this" then Head.self else .named first).Takes
          ([.call second args] ++ more) := by
          intro more
          by_cases this : first = "this"
          · simp [this, Head.Takes]
          · simp [this, Head.Takes, loadable]
        refine (calls_kept _ [.call second args] takes ⟨canonical, trivial⟩ ts2).bind ?_
        rintro ⟨atom, ts3, h3⟩ ⟨canonical, more⟩
        refine .ok ⟨canonical, ?_⟩
        dsimp only at same more ⊢
        rw [← more, Token.significant_word, significant_punct isDot, Token.significant_mark, if_neg (by decide),
          name, same]
        simp only [List.reverse_singleton, Atom.tokens_receiver]
        simp
      · refine (calls_kept (.member first second) [] (fun _ => loadable) trivial ts1).bind ?_
        rintro ⟨atom, ts2, h2⟩ ⟨canonical, more⟩
        refine .ok ⟨canonical, ?_⟩
        dsimp only at more ⊢
        rw [← more, Token.significant_word, significant_punct isDot, Token.significant_mark, if_neg (by decide), name]
        simp [Atom.tokens, Call.dotted]
termination_by 5 * ts.length + 1

theorem calls_kept (head : Head) (done : List Call) (takes : ∀ more, head.Takes (done.reverse ++ more))
    (canonical : Call.AllCanonical done.reverse) (ts : List Token) :
    Gives (Kept (fun value => Operand.Canonical (.atom value none)) Atom.tokens
      ((Atom.load head done.reverse).tokens ++ ts)) (calls head done ts) := by
  have taken : head.Takes done.reverse := by simpa using takes []
  cases ts with
  | nil =>
    unfold calls
    exact .ok ⟨⟨taken, canonical⟩, by simp⟩
  | cons t ts =>
    unfold calls
    refine .ite (fun isDot => ?_) fun _ => .ok ⟨⟨taken, canonical⟩, by simp⟩
    refine (identifier_kept _ ts).bind ?_
    rintro ⟨name, ts1, h1⟩ ⟨-, named⟩
    refine .ite (fun _ => ?_) fun _ => .error _
    refine (arguments_kept ts1).bind ?_
    rintro ⟨args, ts2, h2⟩ ⟨canonicalArgs, same⟩
    have longer : (Call.call name args :: done).reverse = done.reverse ++ [.call name args] := List.reverse_cons
    refine (calls_kept head (.call name args :: done) (fun more => ?_) ?_ ts2).bind ?_
    · rw [longer, List.append_assoc]
      exact takes _
    · rw [longer]
      exact Call.allCanonical_append.2 ⟨canonical, canonicalArgs, trivial⟩
    rintro ⟨atom, ts3, h3⟩ ⟨canonical, more⟩
    refine .ok ⟨canonical, ?_⟩
    dsimp only at named same more ⊢
    rw [← more, longer, Atom.tokens_load_append taken, Token.significant_append, significant_punct isDot,
      Token.significant_mark, if_neg (by decide), named, same]
    simp [Call.dotted]
termination_by 5 * ts.length

end

end Grammar

namespace Expr

variable {ts : List Token} {tree : Expr}

theorem parse_eq_ok : parse ts = .ok tree ↔ Grammar.Yields Grammar.expression ts tree [] := by
  unfold parse parseFirst Grammar.Yields
  cases Grammar.expression ts with
  | error cause => simp [Except.map, bind, Except.bind]
  | ok x =>
    obtain ⟨found, rest, fewer⟩ := x
    cases rest <;> simp [Except.map, bind, Except.bind, pure, Except.pure]

theorem kept_of_parse (h : parse ts = .ok tree) : tree.Canonical ∧ significant ts = significant tree.tokens := by
  obtain ⟨fewer, run⟩ := parse_eq_ok.1 h
  simpa [Grammar.Kept] using Grammar.expression_kept ts _ run

-- Writing an expression that was read gives tokens that are read as the same expression. Apart from parentheses
-- they are the tokens it was read from.
theorem parse_tokens (h : parse ts = .ok tree) :
    parse tree.tokens = .ok tree.bare ∧ significant tree.tokens = significant ts := by
  obtain ⟨canonical, same⟩ := kept_of_parse h
  refine ⟨parse_eq_ok.2 ?_, same.symm⟩
  simpa using canonical.yields Grammar.closes_nil

theorem parse_tokens_groups : ∃ ts tree,
    Token.tokenize "-((a)) + this.b.c(1, (Foo[]) [x]) * ! ~new D(((2)))".toList = .ok ts ∧ parse ts = .ok tree ∧
      tree.text = "[-((a)) + [this.b.c(1, ([Foo) [x]) * !(~(new D((2))))]]" ∧ ts.length = tree.tokens.length + 4 ∧
      parse tree.tokens = .ok tree.bare ∧ significant tree.tokens = significant ts := by
  generalize written : "-((a)) + this.b.c(1, (Foo[]) [x]) * ! ~new D(((2)))".toList = source
  have run : ((Token.tokenize source).toOption.bind fun ts => (parse ts).toOption.map fun tree =>
        (tree.text, ts.length, tree.tokens.length)) =
      some ("[-((a)) + [this.b.c(1, ([Foo) [x]) * !(~(new D((2))))]]", 36, 32) := by
    rw [← written]
    decide +kernel
  simp only [Option.bind_eq_some_iff, Option.map_eq_some_iff, toOption_eq_some, Prod.mk.injEq] at run
  obtain ⟨ts, scanned, tree, parsed, text, before, after⟩ := run
  exact ⟨ts, tree, scanned, parsed, text, by omega, parse_tokens parsed⟩

end Expr

end ClassForge
