import ClassForge.Proofs.Columns

set_option autoImplicit false

namespace ClassForge

namespace Token

def word (text : String) : Token :=
  { kind := .identifier, text, column := 0 }

def symbol (text : String) : Token :=
  { kind := .operator, text, column := 0 }

def mark (c : Char) : Token :=
  { kind := .punctuation, text := String.singleton c, column := 0 }

@[simp] theorem bare_word (text : String) : (word text).bare = word text := rfl
@[simp] theorem bare_symbol (text : String) : (symbol text).bare = symbol text := rfl
@[simp] theorem bare_mark (c : Char) : (mark c).bare = mark c := rfl
@[simp] theorem word_text (text : String) : (word text).text = text := rfl
@[simp] theorem word_kind (text : String) : (word text).kind = .identifier := rfl
@[simp] theorem symbol_text (text : String) : (symbol text).text = text := rfl
@[simp] theorem symbol_kind (text : String) : (symbol text).kind = .operator := rfl
@[simp] theorem mark_kind (c : Char) : (mark c).kind = .punctuation := rfl

@[simp]
theorem isPunct_mark (c c' : Char) : (mark c).isPunct c' = decide (c = c') := by
  have same : String.singleton c = String.singleton c' ↔ c = c' := by
    constructor
    · intro h
      simpa using congrArg String.toList h
    · rintro rfl
      rfl
  simp [mark, isPunct, same]

@[simp] theorem isPunct_word (text : String) (c : Char) : (word text).isPunct c = false := by simp [isPunct]
@[simp] theorem isPunct_symbol (text : String) (c : Char) : (symbol text).isPunct c = false := by simp [isPunct]

end Token

open Token (word symbol mark)

def TypeName.tokens (t : TypeName) : List Token :=
  word t.base :: (List.replicate t.dims [mark '[', mark ']']).flatten

mutual

def Expr.tokens : Expr → List Token
  | .operand arg false => arg.tokens
  | .operand arg true => mark '(' :: (arg.tokens ++ [mark ')'])
  | .binary op left right false => left.tokens ++ symbol op.symbol :: right.tokens
  | .binary op left right true => mark '(' :: (left.tokens ++ symbol op.symbol :: (right.tokens ++ [mark ')']))

def Operand.tokens : Operand → List Token
  | .atom value none => value.tokens
  | .atom value (some op) => symbol op.symbol :: value.tokens
  | .cast target inner => mark '(' :: (target.tokens ++ mark ')' :: inner.tokens)
  | .array elements => mark '[' :: (Expr.listed elements ++ [mark ']'])
  | .create className arguments => word "new" :: word className :: mark '(' :: (Expr.listed arguments ++ [mark ')'])

def Atom.tokens : Atom → List Token
  | .literal token => [token.bare]
  -- A call on nothing has no dot before its name.
  | .load .implicit calls => (Call.dotted calls).tail
  | .load .self calls => word "this" :: Call.dotted calls
  | .load (.named id) calls => word id :: Call.dotted calls
  | .load (.member owner id) calls => word owner :: mark '.' :: word id :: Call.dotted calls
  | .nested inner => inner.tokens

def Call.dotted : List Call → List Token
  | [] => []
  | .call name arguments :: rest =>
    mark '.' :: word name :: mark '(' :: (Expr.listed arguments ++ mark ')' :: Call.dotted rest)

def Expr.listed : List Expr → List Token
  | [] => []
  | tree :: rest => tree.tokens ++ Expr.followed rest

def Expr.followed : List Expr → List Token
  | [] => []
  | tree :: rest => mark ',' :: (tree.tokens ++ Expr.followed rest)

end

namespace Expr

def strength : Expr → Nat
  | .binary op _ _ false => op.precedence
  | _ => 11

def isPrimary : Expr → Bool
  | .operand (.atom _ (some _)) false => false
  | .binary _ _ _ false => false
  | _ => true

def isBareAtom : Expr → Bool
  | .operand (.atom _ none) false => true
  | _ => false

end Expr

def IsLoadable (name : String) : Prop :=
  name ∉ ["true", "false", "null", "new"]

def Head.Takes : Head → List Call → Prop
  | .implicit, .call name _ :: _ => IsLoadable name ∧ name ≠ "this"
  | .implicit, [] => False
  | .self, calls => calls ≠ []
  | .named id, calls => IsLoadable id ∧ (id = "this" → calls = [])
  | .member owner _, _ => IsLoadable owner

def TypeName.IsCastable (t : TypeName) : Prop :=
  Primitive.isKeyword t.base ∨ t.base.toList.head?.any Char.isUpper

mutual

-- The tree has the shape that its tokens are read in: an operator is not stronger than its left side and weaker
-- than its right side, and every part is one that can be told apart.
def Expr.Canonical : Expr → Prop
  | .operand arg _ => arg.Canonical
  | .binary op left right _ =>
    left.Canonical ∧ right.Canonical ∧ op.precedence ≤ left.strength ∧ op.precedence < right.strength

def Operand.Canonical : Operand → Prop
  | .atom (.nested _) none => False
  | .atom value _ => value.Canonical
  | .cast target inner => target.IsCastable ∧ inner.Canonical ∧ inner.isPrimary
  | .array elements => Expr.AllCanonical elements
  | .create _ arguments => Expr.AllCanonical arguments

def Atom.Canonical : Atom → Prop
  | .literal token => token.isLiteral ∨ Grammar.isWordLiteral token
  | .load head calls => head.Takes calls ∧ Call.AllCanonical calls
  | .nested inner => inner.Canonical ∧ inner.strength = 11 ∧ inner.isBareAtom = false

def Expr.AllCanonical : List Expr → Prop
  | [] => True
  | tree :: rest => tree.Canonical ∧ Expr.AllCanonical rest

def Call.AllCanonical : List Call → Prop
  | [] => True
  | .call _ arguments :: rest => Expr.AllCanonical arguments ∧ Call.AllCanonical rest

end

variable {tree : Expr} {op : BinaryOp}

namespace Expr

def operands : Expr → List Expr
  | .binary _ left right false => left.operands ++ right.operands
  | tree => [tree]

def first : Expr → Expr
  | .binary _ left _ false => left.first
  | tree => tree

def steps : Expr → List (BinaryOp × Expr)
  | .binary op left right false => left.steps ++ (op, right.first) :: right.steps
  | _ => []

def pushAll (tree : Expr) (steps : List (BinaryOp × Expr)) : Expr :=
  steps.foldl (fun tree step => tree.push step.1 step.2) tree

@[elab_as_elim]
theorem operator_induction {motive : Expr → Prop} (tree : Expr)
    (alone : ∀ tree : Expr, tree.operands = [tree] → tree.first = tree → tree.steps = [] → motive tree)
    (binary : ∀ op left right, motive left → motive right → motive (.binary op left right false)) : motive tree := by
  fun_induction operands tree with
  | case1 op left right ihl ihr => exact binary op left right ihl ihr
  | case2 tree other =>
    rcases tree with ⟨arg, grouped⟩ | ⟨op, left, right, _ | _⟩
    · exact alone _ rfl rfl rfl
    · exact absurd rfl (other op left right)
    · exact alone _ rfl rfl rfl

def root? : Expr → Option BinaryOp
  | .binary op _ _ false => some op
  | _ => none

-- Outside its groups, no operator stands over a weaker one, and of two equally strong ones the later stands
-- over the earlier.
def Ordered : Expr → Prop
  | .binary op left right false =>
    left.Ordered ∧ right.Ordered ∧ (∀ own ∈ left.root?, op.precedence ≤ own.precedence) ∧
      ∀ own ∈ right.root?, op.precedence < own.precedence
  | _ => True

theorem precedence_lt (op : BinaryOp) : op.precedence < 11 := by
  cases op <;> decide

theorem le_strength_iff {n : Nat} (small : n ≤ 11) (tree : Expr) :
    n ≤ tree.strength ↔ ∀ own ∈ tree.root?, n ≤ own.precedence := by
  rcases tree with ⟨arg, grouped⟩ | ⟨op, left, right, _ | _⟩ <;> simp [strength, root?, small]

theorem strength_of_root?_none (alone : tree.root? = none) : tree.strength = 11 := by
  rcases tree with ⟨arg, grouped⟩ | ⟨op, left, right, _ | _⟩
  · rfl
  · cases alone
  · rfl

theorem Ordered.binary_iff {left right : Expr} :
    (Expr.binary op left right false).Ordered ↔
      left.Ordered ∧ right.Ordered ∧ op.precedence ≤ left.strength ∧ op.precedence < right.strength := by
  have leftSide := le_strength_iff (precedence_lt op).le left
  have rightSide := le_strength_iff (precedence_lt op) right
  rw [Ordered, leftSide, ← Nat.succ_le_iff, rightSide]
  rfl

theorem Canonical.ordered (canonical : tree.Canonical) : tree.Ordered := by
  fun_induction Ordered tree with
  | case1 op left right ihl ihr =>
    obtain ⟨canonicalLeft, canonicalRight, strong⟩ := canonical
    exact Ordered.binary_iff.2 ⟨ihl canonicalLeft, ihr canonicalRight, strong⟩
  | case2 => trivial

theorem operands_eq (tree : Expr) : tree.operands = tree.first :: tree.steps.map (·.2) := by
  induction tree using operator_induction with
  | alone tree alone first steps => simp [alone, first, steps]
  | binary op left right ihl ihr => simp [operands, first, steps, ihl, ihr]

theorem tokens_steps (tree : Expr) :
    tree.tokens = tree.first.tokens ++ tree.steps.flatMap fun step => symbol step.1.symbol :: step.2.tokens := by
  induction tree using operator_induction with
  | alone tree alone first steps => simp [first, steps]
  | binary op left right ihl ihr => simp [tokens, first, steps, ihl, ihr]

theorem Ordered.strength_le (ordered : tree.Ordered) : ∀ step ∈ tree.steps, tree.strength ≤ step.1.precedence := by
  induction tree using operator_induction with
  | alone tree alone first steps => simp [steps]
  | binary op left right ihl ihr =>
    obtain ⟨orderedLeft, orderedRight, leftStrong, rightStrong⟩ := binary_iff.1 ordered
    intro step member
    change op.precedence ≤ _
    rcases List.mem_append.1 member with before | later
    · exact leftStrong.trans (ihl orderedLeft step before)
    · rcases List.mem_cons.1 later with rfl | after
      · exact Nat.le_refl _
      · exact rightStrong.le.trans (ihr orderedRight step after)

theorem pushAll_right {left right : Expr} {steps : List (BinaryOp × Expr)}
    (stronger : ∀ step ∈ steps, op.precedence < step.1.precedence) :
    pushAll (.binary op left right false) steps = .binary op left (right.pushAll steps) false := by
  induction steps generalizing right with
  | nil => rfl
  | cons step steps ih =>
    obtain ⟨first, rest⟩ := List.forall_mem_cons.1 stronger
    simp only [pushAll, List.foldl_cons, push, if_pos first]
    exact ih rest

theorem push_eq_joinRight (notWeaker : op.precedence ≤ tree.strength) (rhs : Expr) :
    tree.push op rhs = .binary op tree rhs false := by
  rcases tree with ⟨arg, grouped⟩ | ⟨own, left, right, _ | _⟩
  · rfl
  · have : ¬ own.precedence < op.precedence := Nat.not_lt.2 notWeaker
    simp [push, joinRight, this]
  · rfl

theorem Ordered.pushAll_steps (ordered : tree.Ordered) : tree.first.pushAll tree.steps = tree := by
  induction tree using operator_induction with
  | alone tree alone first steps => simp [first, steps, pushAll]
  | binary op left right ihl ihr =>
    obtain ⟨orderedLeft, orderedRight, leftStrong, rightStrong⟩ := binary_iff.1 ordered
    have stronger : ∀ step ∈ right.steps, op.precedence < step.1.precedence :=
      fun step member => Nat.lt_of_lt_of_le rightStrong (orderedRight.strength_le step member)
    calc pushAll left.first (left.steps ++ (op, right.first) :: right.steps)
        = pushAll ((pushAll left.first left.steps).push op right.first) right.steps := by simp [pushAll]
      _ = pushAll (.binary op left right.first false) right.steps := by
        rw [ihl orderedLeft, push_eq_joinRight leftStrong]
      _ = .binary op left right false := by rw [pushAll_right stronger, ihr orderedRight]

end Expr

variable {close : Char} {rest : List Token} {u : Token}

namespace Grammar

def Yields {α : Type} (rule : (ts : List Token) → Rule α ts) (ts : List Token) (a : α) (rest : List Token) : Prop :=
  ∃ fewer, rule ts = .ok (a, ⟨rest, fewer⟩)

def Ends (rest : List Token) : Prop :=
  startsOperand rest = false ∧ nextIs '.' rest = false

def Closes (rest : List Token) : Prop :=
  Ends rest ∧ ∀ t ∈ rest.head?, binaryOp? t = none

theorem ends_symbol (text : String) (rest : List Token) : Ends (symbol text :: rest) := by
  simp [Ends, startsOperand, nextIs, Token.isIdentifier, Token.isLiteral, Token.isInteger]

theorem closes_mark {c : Char} (other : c ∉ ['(', '[', '.']) (rest : List Token) : Closes (mark c :: rest) := by
  simp only [List.mem_cons, List.not_mem_nil, or_false, not_or] at other
  obtain ⟨paren, bracket, dot⟩ := other
  simp [Closes, Ends, startsOperand, nextIs, binaryOp?, Token.isIdentifier, Token.isLiteral, Token.isInteger, paren,
    bracket, dot]

theorem closes_closing (closing : close ∈ [')', ']']) (rest : List Token) : Closes (mark close :: rest) := by
  simp only [List.mem_cons, List.not_mem_nil, or_false] at closing
  rcases closing with rfl | rfl
  · exact closes_mark (by decide) rest
  · exact closes_mark (by decide) rest

theorem closes_nil : Closes [] := by
  simp [Closes, Ends, startsOperand, nextIs]

theorem Ends.not_paren (ends : Ends rest) : nextIs '(' rest = false := by
  cases rest with
  | nil => rfl
  | cons t rest =>
    have := ends.1
    simp only [startsOperand, decide_eq_false_iff_not, not_or] at this
    simpa [nextIs] using this.2.2.1

section Steps

variable {t : Token} {ts ts1 rest : List Token} {tree left right item : Expr} {trees : List Expr} {head : Head}
  {done : List Call} {atom : Atom} {name : String}

theorem ok_bind {α β : Type} (a : α) (f : α → Except Cause β) : (Except.ok a >>= f) = f a :=
  rfl

theorem yields_expression (first : Yields operand ts left ts1) (more : Yields (operators left) ts1 tree rest) :
    Yields expression ts tree rest := by
  obtain ⟨_, run1⟩ := first
  obtain ⟨_, run2⟩ := more
  constructor
  rw [expression, run1]
  change (operators left ts1 >>= _) = _
  rw [run2]
  rfl

@[simp]
theorem binaryOp?_symbol (op : BinaryOp) : binaryOp? (symbol op.symbol) = some op := by
  cases op <;> rfl

@[simp]
theorem ofSymbol?_symbol (op : UnaryOp) : UnaryOp.ofSymbol? op.symbol = some op := by
  cases op <;> rfl

theorem yields_operators_nil (closes : Closes rest) : Yields (operators left) rest left rest := by
  cases rest with
  | nil => exact ⟨Nat.le_refl _, by rw [operators]⟩
  | cons t rest =>
    have none := closes.2 t rfl
    refine ⟨Nat.le_refl _, ?_⟩
    rw [operators]
    simp only [none]

theorem yields_operators_cons (next : Yields operand ts right ts1)
    (more : Yields (operators (left.push op right)) ts1 tree rest) :
    Yields (operators left) (symbol op.symbol :: ts) tree rest := by
  obtain ⟨_, run1⟩ := next
  obtain ⟨_, run2⟩ := more
  constructor
  rw [operators]
  simp only [binaryOp?_symbol]
  rw [run1]
  change (operators (left.push op right) ts1 >>= _) = _
  rw [run2]
  rfl

theorem yields_operand_unary (op : UnaryOp) (next : Yields operand ts tree rest) :
    Yields operand (symbol op.symbol :: ts) (tree.applyUnary op) rest := by
  obtain ⟨_, run⟩ := next
  constructor
  rw [operand, if_pos (Token.symbol_kind _)]
  simp only [Token.symbol_text, ofSymbol?_symbol]
  rw [run]
  rfl

theorem yields_operand_primary (other : t.kind ≠ .operator) (next : Yields (primary t) ts tree rest) :
    Yields operand (t :: ts) tree rest := by
  obtain ⟨_, run⟩ := next
  constructor
  rw [operand, if_neg other, run]
  rfl

theorem yields_primary_literal (literal : t.isLiteral ∨ isWordLiteral t) : Yields (primary t) rest (.literal t) rest :=
  ⟨Nat.le_refl _, by rw [primary, if_pos literal]⟩

theorem yields_primary_create (name : String) (next : Yields arguments ts trees rest) :
    Yields (primary (word "new")) (word name :: ts) (.leaf (.create name trees)) rest := by
  obtain ⟨_, run⟩ := next
  have plain : ¬ ((word "new").isLiteral ∨ isWordLiteral (word "new")) := by decide
  constructor
  rw [primary, if_neg plain, if_pos (by decide)]
  simp only [identifier, Token.isIdentifier, Token.word_kind, decide_true, if_true, Token.word_text]
  change (arguments ts >>= _) = _
  rw [run]
  rfl

theorem yields_primary_load (loadable : IsLoadable name) (next : Yields (load name) ts atom rest) :
    Yields (primary (word name)) ts (.leaf (.atom atom none)) rest := by
  obtain ⟨_, run⟩ := next
  simp only [IsLoadable, List.mem_cons, List.not_mem_nil, or_false, not_or] at loadable
  obtain ⟨noTrue, noFalse, noNull, noNew⟩ := loadable
  have plain : ¬ ((word name).isLiteral ∨ isWordLiteral (word name)) := by
    simp [Token.isLiteral, Token.isInteger, isWordLiteral, Token.isWord, noTrue, noFalse, noNull]
  have made : ¬ (word name).isWord "new" := by simp [Token.isWord, noNew]
  constructor
  rw [primary, if_neg plain, if_neg made, if_pos (by simp [Token.isIdentifier]), Token.word_text, run]
  rfl

theorem not_isLiteral_mark (c : Char) : ¬ ((mark c).isLiteral ∨ isWordLiteral (mark c)) := by
  simp [Token.isLiteral, Token.isInteger, isWordLiteral, Token.isWord]

theorem yields_primary_cast {target : TypeName} (found : castParts? ts = some (target, ts1))
    (next : Yields operand ts1 tree rest) : Yields (primary (mark '(')) ts (.leaf (.cast target tree)) rest := by
  obtain ⟨_, run⟩ := next
  rw [← castTarget?_parts, Option.map_eq_some_iff] at found
  obtain ⟨⟨_, _, fewer1⟩, found, same⟩ := found
  cases same
  constructor
  rw [primary, if_neg (not_isLiteral_mark _), if_neg (by decide), if_neg (by decide), if_pos (by decide)]
  simp only [found]
  rw [run]
  rfl

theorem yields_primary_group (noCast : castParts? ts = none) (next : Yields expression ts tree (mark ')' :: rest)) :
    Yields (primary (mark '(')) ts tree.group rest := by
  obtain ⟨_, run⟩ := next
  rw [← castTarget?_parts, Option.map_eq_none_iff] at noCast
  constructor
  rw [primary, if_neg (not_isLiteral_mark _), if_neg (by decide), if_neg (by decide), if_pos (by decide)]
  simp only [noCast]
  rw [run]
  rfl

theorem yields_primary_array (next : Yields (items ']') ts trees rest) :
    Yields (primary (mark '[')) ts (.leaf (.array trees)) rest := by
  obtain ⟨_, run⟩ := next
  constructor
  rw [primary, if_neg (not_isLiteral_mark _), if_neg (by decide), if_neg (by decide), if_neg (by decide),
    if_pos (by decide), run]
  rfl

theorem yields_arguments (next : Yields (items ')') ts trees rest) : Yields arguments (mark '(' :: ts) trees rest := by
  obtain ⟨_, run⟩ := next
  constructor
  rw [arguments, if_pos (by decide), run]
  rfl

theorem yields_items_nil (close : Char) : Yields (items close) (mark close :: rest) [] rest := by
  constructor
  rw [items, if_pos (by simp [nextIs])]
  rfl

theorem yields_items_more (more : nextIs close ts = false) (next : Yields (moreItems close) ts trees rest) :
    Yields (items close) ts trees rest := by
  obtain ⟨_, run⟩ := next
  constructor
  rw [items, if_neg (by simp [more]), run]

theorem yields_moreItems_last (next : Yields expression ts item (mark close :: rest)) :
    Yields (moreItems close) ts [item] rest := by
  obtain ⟨_, run⟩ := next
  constructor
  rw [moreItems, run]
  change (if (mark close).isPunct close then _ else _) = _
  rw [if_pos (by simp)]
  rfl

theorem yields_moreItems_cons (other : close ≠ ',') (next : Yields expression ts item (mark ',' :: ts1))
    (more : Yields (moreItems close) ts1 trees rest) : Yields (moreItems close) ts (item :: trees) rest := by
  obtain ⟨_, run1⟩ := next
  obtain ⟨_, run2⟩ := more
  constructor
  rw [moreItems, run1]
  change (if (mark ',').isPunct close then _ else if (mark ',').isPunct ',' then (moreItems close ts1 >>= _) else _) = _
  rw [if_neg (by simpa using other.symm), if_pos (by decide), run2]
  rfl

theorem yields_calls_nil (ends : nextIs '.' rest = false) :
    Yields (calls head done) rest (.load head done.reverse) rest := by
  refine ⟨Nat.le_refl _, ?_⟩
  cases rest with
  | nil => rw [calls]
  | cons t rest =>
    have other : ¬ t.isPunct '.' := by simpa [nextIs] using ends
    rw [calls, if_neg other]

theorem identifier_word (what name : String) (ts : List Token) :
    identifier what (word name :: ts) = .ok (name, ⟨ts, Nat.le_succ _⟩) := by
  simp [identifier, Token.isIdentifier]

theorem yields_calls_cons (given : Yields arguments (mark '(' :: ts) trees ts1)
    (more : Yields (calls head (.call name trees :: done)) ts1 atom rest) :
    Yields (calls head done) (mark '.' :: word name :: mark '(' :: ts) atom rest := by
  obtain ⟨_, run1⟩ := given
  obtain ⟨_, run2⟩ := more
  have paren : nextIs '(' (mark '(' :: ts) = true := by simp [nextIs]
  constructor
  rw [calls, if_pos (by decide), identifier_word, ok_bind]
  simp only [paren, if_true]
  rw [run1, ok_bind]
  simp only []
  rw [run2]
  rfl

theorem yields_load_named (ends : Ends rest) : Yields (load name) rest (.load (.named name) []) rest := by
  obtain ⟨fewer, run⟩ : Yields (calls (.named name) []) rest (.load (.named name) []) rest := yields_calls_nil ends.2
  refine ⟨fewer, ?_⟩
  unfold load
  by_cases this : name = "this"
  · rw [if_pos (by simp [this, ends.2]), run]
  · rw [if_neg (by simp [this]), if_neg (by simp [ends.not_paren])]
    cases rest with
    | nil => exact run
    | cons t rest =>
      have other : ¬ t.isPunct '.' := by simpa [nextIs] using ends.2
      simp only [if_neg other]
      exact run

theorem yields_load_implicit (this : name ≠ "this") (given : Yields arguments (mark '(' :: ts) trees ts1)
    (more : Yields (calls .implicit [.call name trees]) ts1 atom rest) :
    Yields (load name) (mark '(' :: ts) atom rest := by
  obtain ⟨_, run1⟩ := given
  obtain ⟨_, run2⟩ := more
  constructor
  rw [load, if_neg (by simp [this]), if_pos (by simp [nextIs]), run1]
  change (calls .implicit [.call name trees] ts1 >>= _) = _
  rw [run2]
  rfl

theorem yields_load_call {first : String} (given : Yields arguments (mark '(' :: ts) trees ts1)
    (more : Yields (calls (if first = "this" then .self else .named first) [.call name trees]) ts1 atom rest) :
    Yields (load first) (mark '.' :: word name :: mark '(' :: ts) atom rest := by
  obtain ⟨_, run1⟩ := given
  obtain ⟨_, run2⟩ := more
  have paren : nextIs '(' (mark '(' :: ts) = true := by simp [nextIs]
  constructor
  rw [load, if_neg (by simp [nextIs]), if_neg (by simp [nextIs])]
  simp only [Token.isPunct_mark, decide_true, if_true, identifier_word, ok_bind, paren]
  rw [run1]
  simp only [ok_bind]
  rw [run2]
  rfl

theorem yields_load_member {first : String} (field : nextIs '(' ts = false)
    (more : Yields (calls (.member first name) []) ts atom rest) :
    Yields (load first) (mark '.' :: word name :: ts) atom rest := by
  obtain ⟨_, run⟩ := more
  constructor
  rw [load, if_neg (by simp [nextIs]), if_neg (by simp [nextIs])]
  simp only [Token.isPunct_mark, decide_true, if_true, identifier_word, ok_bind, field, Bool.false_eq_true, if_false]
  rw [run]
  rfl

end Steps

theorem dimensions_eq (noBracket : u.isPunct '[' = false) (us : List Token) : dimensions (u :: us) = (0, u :: us) := by
  cases us with
  | nil => rfl
  | cons v us => simp [dimensions, noBracket]

theorem dimensions_replicate (dims : Nat) (noBracket : u.isPunct '[' = false) (us : List Token) :
    dimensions ((List.replicate dims [mark '[', mark ']']).flatten ++ u :: us) = (dims, u :: us) := by
  induction dims with
  | zero => exact dimensions_eq noBracket us
  | succ dims ih => simp [List.replicate_succ, dimensions, ih]

def Opens : List Token → Prop
  | [] => False
  | t :: ts => t.isPunct ')' = false ∧ t.isPunct ']' = false ∧
    (t.isIdentifier = true → ∀ u ∈ ts.head?, u.isPunct '[' = false ∧ u.isPunct ')' = false)

theorem opens_of_not_identifier {t : Token} (ts : List Token) (other : t.isIdentifier = false)
    (paren : t.isPunct ')' = false) (bracket : t.isPunct ']' = false) : Opens (t :: ts) :=
  ⟨paren, bracket, fun isIdentifier => by simp [other] at isIdentifier⟩

namespace Opens

variable {ts : List Token}

theorem append (opens : Opens ts) (noBracket : u.isPunct '[' = false) (noParen : u.isPunct ')' = false)
    (us : List Token) : Opens (ts ++ u :: us) := by
  match ts, opens with
  | [t], opens =>
    refine ⟨opens.1, opens.2.1, fun _ v first => ?_⟩
    cases first
    exact ⟨noBracket, noParen⟩
  | t :: v :: ts, opens => exact opens

theorem nextIs_eq_false (opens : Opens ts) (closing : close ∈ [')', ']']) (rest : List Token) :
    nextIs close (ts ++ rest) = false := by
  cases ts with
  | nil => exact opens.elim
  | cons t ts =>
    simp only [List.mem_cons, List.not_mem_nil, or_false] at closing
    rcases closing with rfl | rfl
    · exact opens.1
    · exact opens.2.1

theorem castParts?_eq_none (opens : Opens ts) (ends : startsOperand rest = false) :
    castParts? (ts ++ mark ')' :: rest) = none := by
  cases ts with
  | nil => exact opens.elim
  | cons t ts =>
    simp only [List.cons_append, castParts?]
    by_cases isIdentifier : t.isIdentifier = true
    · cases ts with
      | nil => simp [dimensions_eq, ends]
      | cons u us =>
        obtain ⟨noBracket, noParen⟩ := opens.2.2 isIdentifier u rfl
        simp [dimensions_eq noBracket, noParen]
    · simp [isIdentifier]

end Opens

end Grammar

open Grammar

theorem Atom.opens {value : Atom} (canonical : Operand.Canonical (.atom value none)) : Opens value.tokens := by
  match value, canonical with
  | .literal t, canonical =>
    obtain ⟨kind, text, column⟩ := t
    refine ⟨?_, ?_, by simp⟩ <;>
    · cases kind <;> simp_all [Operand.Canonical, Atom.Canonical, Token.isLiteral, Token.isInteger, isWordLiteral,
        Token.isWord, Token.bare, Token.isPunct]
  | .load .implicit (.call _ _ :: _), _ | .load .self (.call _ _ :: _), _ | .load (.named _) [], _
  | .load (.named _) (.call _ _ :: _), _ | .load (.member _ _) _, _ => simp [tokens, Call.dotted, Opens]
  | .load .self [], canonical => exact absurd rfl canonical.1
  | .load .implicit [], canonical => exact canonical.1.elim

theorem Operand.opens {arg : Operand} (canonical : arg.Canonical) : Opens arg.tokens := by
  match arg, canonical with
  | .atom value none, canonical => exact Atom.opens canonical
  | .atom value (some op), _ => exact opens_of_not_identifier _ rfl (by simp) (by simp)
  | .cast target inner, _ => exact opens_of_not_identifier _ rfl (by decide) (by decide)
  | .array elements, _ => exact opens_of_not_identifier _ rfl (by decide) (by decide)
  | .create className arguments, _ => simp [tokens, Opens]

theorem Expr.opens (canonical : tree.Canonical) : Opens tree.tokens := by
  induction tree using operator_induction with
  | alone tree alone first steps =>
    rcases tree with ⟨arg, _ | _⟩ | ⟨op, left, right, _ | _⟩
    · exact Operand.opens canonical
    · exact opens_of_not_identifier _ rfl (by decide) (by decide)
    · simp [Expr.steps] at steps
    · exact opens_of_not_identifier _ rfl (by decide) (by decide)
  | binary op left right ihl ihr => exact (ihl canonical.1).append (by simp) (by simp) _

theorem Expr.startsOperand_tokens (canonical : tree.Canonical) (primary : tree.isPrimary = true)
    (rest : List Token) : startsOperand (tree.tokens ++ rest) = true := by
  match tree, canonical, primary with
  | .operand _ true, _, _ => simp [tokens, startsOperand]
  | .binary _ _ _ true, _, _ => simp [tokens, startsOperand]
  | .operand (.atom (.literal t) none) false, canonical, _ =>
    rcases canonical with literal | literal
    · simp [tokens, Operand.tokens, Atom.tokens, startsOperand, literal]
    · have isIdentifier : t.isIdentifier = true := by
        simp only [isWordLiteral, Token.isWord, decide_eq_true_eq] at literal
        simp only [Token.isIdentifier, decide_eq_true_eq]
        rcases literal with ⟨kind, -⟩ | ⟨kind, -⟩ | ⟨kind, -⟩ <;> exact kind
      simp [tokens, Operand.tokens, Atom.tokens, startsOperand, isIdentifier]
  | .operand (.atom (.load head calls) none) false, canonical, _ =>
    rcases head with _ | _ | _ | _
    on_goal 1 =>
      rcases calls with - | ⟨⟨name, arguments⟩, more⟩
      · exact canonical.1.elim
    all_goals simp [tokens, Operand.tokens, Atom.tokens, Call.dotted, startsOperand, Token.isIdentifier]
  | .operand (.cast target inner) false, _, _ => simp [tokens, Operand.tokens, startsOperand]
  | .operand (.array elements) false, _, _ => simp [tokens, Operand.tokens, startsOperand]
  | .operand (.create className arguments) false, _, _ =>
    simp [tokens, Operand.tokens, startsOperand, Token.isIdentifier]

theorem TypeName.castParts?_tokens {target : TypeName} (castable : target.IsCastable) {ts : List Token}
    (starts : startsOperand ts = true) : castParts? (target.tokens ++ mark ')' :: ts) = some (target, ts) := by
  obtain ⟨dims, base⟩ := target
  have brackets : dimensions ((List.replicate dims [mark '[', mark ']']).flatten ++ mark ')' :: ts) =
      (dims, mark ')' :: ts) := dimensions_replicate dims (by decide) ts
  have found : (word base).isIdentifier ∧ (Primitive.isKeyword base ∨ base.toList.head?.any Char.isUpper) :=
    ⟨rfl, castable⟩
  simp only [tokens, List.cons_append, castParts?, Token.word_text, if_pos found, brackets]
  rw [if_pos ⟨by decide, starts⟩]

namespace Expr

def ReadsBack (tree : Expr) : Prop :=
  ∀ rest, Ends rest → Yields Grammar.operand (tree.tokens ++ rest) tree.bare rest

theorem yields_operators {steps : List (BinaryOp × Expr)} (each : ∀ step ∈ steps, step.2.ReadsBack)
    (closes : Closes rest) (left : Expr) :
    Yields (operators left.bare) (steps.flatMap (fun step => symbol step.1.symbol :: step.2.tokens) ++ rest)
      (left.pushAll steps).bare rest := by
  induction steps generalizing left with
  | nil => exact yields_operators_nil closes
  | cons step steps ih =>
    obtain ⟨first, others⟩ := List.forall_mem_cons.1 each
    have ends : Ends (steps.flatMap (fun step => symbol step.1.symbol :: step.2.tokens) ++ rest) := by
      cases steps with
      | nil => exact closes.1
      | cons next steps => exact ends_symbol _ _
    have more := ih others (left.push step.1 step.2)
    rw [bare_push] at more
    simpa [pushAll] using yields_operators_cons (first _ ends) more

theorem Canonical.yields_expression (canonical : tree.Canonical) (each : ∀ x ∈ tree.operands, x.ReadsBack)
    (closes : Closes rest) : Yields expression (tree.tokens ++ rest) tree.bare rest := by
  rw [operands_eq, List.forall_mem_cons] at each
  obtain ⟨first, others⟩ := each
  have others : ∀ step ∈ tree.steps, step.2.ReadsBack := fun step member => others _ (List.mem_map_of_mem member)
  have ends : Ends (tree.steps.flatMap (fun step => symbol step.1.symbol :: step.2.tokens) ++ rest) := by
    cases steps : tree.steps with
    | nil => exact closes.1
    | cons next steps => exact ends_symbol _ _
  have more := yields_operators others closes tree.first
  rw [canonical.ordered.pushAll_steps] at more
  rw [tokens_steps, List.append_assoc]
  exact Grammar.yields_expression (first _ ends) more

theorem Canonical.yields_group (canonical : tree.Canonical) (each : ∀ x ∈ tree.operands, x.ReadsBack)
    (ends : Ends rest) :
    Yields Grammar.operand (mark '(' :: (tree.tokens ++ mark ')' :: rest)) tree.bare.group rest := by
  refine yields_operand_primary (by simp) (yields_primary_group ((opens canonical).castParts?_eq_none ends.1) ?_)
  exact canonical.yields_expression each (closes_mark (by decide) rest)

theorem operands_of_strength (strong : tree.strength = 11) : tree.operands = [tree] := by
  rcases tree with ⟨arg, grouped⟩ | ⟨op, left, right, _ | _⟩
  · rfl
  · cases op <;> cases strong
  · rfl

theorem operands_of_isPrimary (primary : tree.isPrimary = true) : tree.operands = [tree] := by
  rcases tree with ⟨arg, grouped⟩ | ⟨op, left, right, _ | _⟩
  · rfl
  · cases primary
  · rfl

theorem applyUnary_bare (other : tree.isBareAtom = false) (op : UnaryOp) :
    tree.bare.applyUnary op = .leaf (.atom (.nested tree.bare) (some op)) := by
  rcases tree with ⟨⟨value, _ | _⟩ | _ | _ | _, _ | _⟩ | _
  case operand.atom.none.false => cases other
  all_goals rfl

end Expr

mutual

theorem Expr.readsBack : (tree : Expr) → tree.Canonical → ∀ x ∈ tree.operands, x.ReadsBack
  | .operand arg false, canonical => by simpa [Expr.operands] using Operand.readsBack arg canonical
  | .operand arg true, canonical => by
    have plain : (Expr.operand arg false).Canonical := canonical
    have inner : ∀ x ∈ (Expr.operand arg false).operands, x.ReadsBack := by
      simpa [Expr.operands] using Operand.readsBack arg canonical
    simp only [Expr.operands, List.mem_singleton, forall_eq]
    intro rest ends
    have := plain.yields_group inner ends
    simpa [Expr.tokens, Expr.bare, Expr.group] using this
  | .binary op left right false, canonical => by
    intro x member
    rcases List.mem_append.1 member with before | after
    · exact Expr.readsBack left canonical.1 x before
    · exact Expr.readsBack right canonical.2.1 x after
  | .binary op left right true, canonical => by
    have plain : (Expr.binary op left right false).Canonical := canonical
    have inner : ∀ x ∈ (Expr.binary op left right false).operands, x.ReadsBack := by
      intro x member
      rcases List.mem_append.1 member with before | after
      · exact Expr.readsBack left canonical.1 x before
      · exact Expr.readsBack right canonical.2.1 x after
    simp only [Expr.operands, List.mem_singleton, forall_eq]
    intro rest ends
    have := plain.yields_group inner ends
    simpa [Expr.tokens, Expr.bare, Expr.group] using this

theorem Operand.readsBack : (arg : Operand) → arg.Canonical → (Expr.operand arg false).ReadsBack
  | .atom (.literal t) none, canonical => fun rest ends => Atom.readsBack (.literal t) canonical ends
  | .atom (.load head calls) none, canonical => fun rest ends => Atom.readsBack (.load head calls) canonical ends
  | .atom (.literal t) (some op), canonical => fun rest ends =>
    yields_operand_unary op (Atom.readsBack (.literal t) canonical ends)
  | .atom (.load head calls) (some op), canonical => fun rest ends =>
    yields_operand_unary op (Atom.readsBack (.load head calls) canonical ends)
  | .atom (.nested inner) (some op), canonical => by
    obtain ⟨canonical, strong, other⟩ := canonical
    have inside := Expr.readsBack inner canonical
    rw [Expr.operands_of_strength strong, List.forall_mem_singleton] at inside
    intro rest ends
    have := yields_operand_unary op (inside rest ends)
    rw [Expr.applyUnary_bare other] at this
    exact this
  | .cast target inner, canonical => by
    obtain ⟨castable, canonical, primary⟩ := canonical
    have inside := Expr.readsBack inner canonical
    rw [Expr.operands_of_isPrimary primary, List.forall_mem_singleton] at inside
    intro rest ends
    have starts := Expr.startsOperand_tokens canonical primary rest
    have := yields_operand_primary (by simp) (yields_primary_cast (target.castParts?_tokens castable starts)
      (inside rest ends))
    simpa [Expr.tokens, Operand.tokens, Expr.bare, Operand.bare, Expr.leaf] using this
  | .array elements, canonical => by
    intro rest ends
    have := yields_operand_primary (by simp) (yields_primary_array
      (Expr.items_readsBack elements canonical (by decide) rest))
    simpa [Expr.tokens, Operand.tokens, Expr.bare, Operand.bare, Expr.leaf] using this
  | .create className arguments, canonical => by
    intro rest ends
    have := yields_operand_primary (by simp) (yields_primary_create className (yields_arguments
      (Expr.items_readsBack arguments canonical (by decide) rest)))
    simpa [Expr.tokens, Operand.tokens, Expr.bare, Operand.bare, Expr.leaf] using this

theorem Atom.readsBack : (value : Atom) → Operand.Canonical (.atom value none) → ∀ {rest : List Token}, Ends rest →
    Yields operand (value.tokens ++ rest) (.leaf (.atom value.bare none)) rest
  | .literal t, canonical, rest, ends => by
    refine yields_operand_primary (fun isOperator => ?_) (yields_primary_literal canonical)
    have kind : t.kind = .operator := isOperator
    rcases canonical with literal | literal
    · simp [Token.isLiteral, Token.isInteger, kind] at literal
    · simp [isWordLiteral, Token.isWord, kind] at literal
  | .load .implicit (.call name arguments :: more), canonical, rest, ends => by
    obtain ⟨⟨loadable, this⟩, canonicalArguments, canonicalMore⟩ := canonical
    have given :=
      yields_arguments (Expr.items_readsBack arguments canonicalArguments (by decide) (Call.dotted more ++ rest))
    have after := Call.readsBack more canonicalMore .implicit [.call name (Expr.bares arguments)] ends
    have := yields_operand_primary (by simp) (yields_primary_load loadable (yields_load_implicit this given after))
    simpa [Atom.tokens, Call.dotted, Atom.bare, Call.bares, Call.bare] using this
  | .load .self (.call name arguments :: more), canonical, rest, ends => by
    obtain ⟨-, canonicalArguments, canonicalMore⟩ := canonical
    have given :=
      yields_arguments (Expr.items_readsBack arguments canonicalArguments (by decide) (Call.dotted more ++ rest))
    have after := Call.readsBack more canonicalMore .self [.call name (Expr.bares arguments)] ends
    have loadable : IsLoadable "this" := by simp [IsLoadable]
    have := yields_operand_primary (by simp) (yields_primary_load loadable (yields_load_call given after))
    simpa [Atom.tokens, Call.dotted, Atom.bare, Call.bares, Call.bare] using this
  | .load (.named id) [], canonical, rest, ends =>
    yields_operand_primary (by simp) (yields_primary_load canonical.1.1 (yields_load_named ends))
  | .load (.named id) (.call name arguments :: more), canonical, rest, ends => by
    obtain ⟨⟨loadable, alone⟩, canonicalArguments, canonicalMore⟩ := canonical
    have other : id ≠ "this" := fun this => by cases alone this
    have given :=
      yields_arguments (Expr.items_readsBack arguments canonicalArguments (by decide) (Call.dotted more ++ rest))
    have after := Call.readsBack more canonicalMore (if id = "this" then .self else .named id)
      [.call name (Expr.bares arguments)] ends
    have := yields_operand_primary (by simp) (yields_primary_load loadable (yields_load_call given after))
    simpa [Atom.tokens, Call.dotted, Atom.bare, Call.bares, Call.bare, other] using this
  | .load (.member owner id) calls, canonical, rest, ends => by
    have field : nextIs '(' (Call.dotted calls ++ rest) = false := by
      match calls with
      | [] => exact ends.not_paren
      | .call _ _ :: _ => simp [Call.dotted, nextIs]
    have after := Call.readsBack calls canonical.2 (.member owner id) [] ends
    have := yields_operand_primary (by simp) (yields_primary_load canonical.1 (yields_load_member field after))
    simpa [Atom.tokens, Atom.bare] using this

theorem Call.readsBack :
    (calls : List Call) → Call.AllCanonical calls → ∀ (head : Head) (done : List Call) {rest : List Token},
    Ends rest → Yields (Grammar.calls head done) (Call.dotted calls ++ rest)
      (.load head (done.reverse ++ Call.bares calls)) rest
  | [], _, head, done, rest, ends => by simpa [Call.dotted, Call.bares] using yields_calls_nil ends.2
  | .call name arguments :: more, canonical, head, done, rest, ends => by
    have given := yields_arguments (Expr.items_readsBack arguments canonical.1 (by decide) (Call.dotted more ++ rest))
    have after := Call.readsBack more canonical.2 head (.call name (Expr.bares arguments) :: done) ends
    simpa [Call.dotted, Call.bares, Call.bare] using yields_calls_cons given after

theorem Expr.items_readsBack : (trees : List Expr) → Expr.AllCanonical trees → ∀ {close : Char}, close ∈ [')', ']'] →
    ∀ rest, Yields (items close) (Expr.listed trees ++ mark close :: rest) (Expr.bares trees) rest
  | [], _, close, closing, rest => yields_items_nil close
  | tree :: more, canonical, close, closing, rest => by
    have := Expr.moreItems_readsBack (tree :: more) canonical (by simp) closing rest
    refine yields_items_more ?_ this
    rw [Expr.listed, List.append_assoc]
    exact (Expr.opens canonical.1).nextIs_eq_false closing _

theorem Expr.moreItems_readsBack : (trees : List Expr) → Expr.AllCanonical trees → trees ≠ [] → ∀ {close : Char},
    close ∈ [')', ']'] → ∀ rest, Yields (moreItems close) (Expr.listed trees ++ mark close :: rest)
      (Expr.bares trees) rest
  | [tree], canonical, _, close, closing, rest => by
    have read :=
      Expr.Canonical.yields_expression canonical.1 (Expr.readsBack tree canonical.1) (closes_closing closing rest)
    simpa [Expr.listed, Expr.followed, Expr.bares] using yields_moreItems_last read
  | tree :: next :: more, canonical, _, close, closing, rest => by
    have other : close ≠ ',' := by
      rintro rfl
      simp at closing
    have read := Expr.Canonical.yields_expression canonical.1 (Expr.readsBack tree canonical.1)
      (closes_mark (c := ',') (by decide) (Expr.listed (next :: more) ++ mark close :: rest))
    have after := Expr.moreItems_readsBack (next :: more) canonical.2 (by simp) closing rest
    simpa [Expr.listed, Expr.followed, Expr.bares] using yields_moreItems_cons other read after

end

theorem Expr.Canonical.yields (canonical : tree.Canonical) (closes : Closes rest) :
    Yields expression (tree.tokens ++ rest) tree.bare rest :=
  canonical.yields_expression (Expr.readsBack tree canonical) closes

end ClassForge
