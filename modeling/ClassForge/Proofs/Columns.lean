import Mathlib
import ClassForge.Expr.Parse

set_option autoImplicit false

namespace ClassForge

-- Two attempts that end alike: both succeed with results that belong together, or both fail with errors that
-- do.
inductive Alike {ε α β : Type} (E : ε → ε → Prop) (R : α → β → Prop) : Except ε α → Except ε β → Prop
  | ok {a : α} {b : β} (same : R a b) : Alike E R (.ok a) (.ok b)
  | error {e e' : ε} (same : E e e') : Alike E R (.error e) (.error e')

def Grammar.SameRest {α β τ : Type} (m : τ → τ) (g : α → β) {p q : List τ → Prop} (x : α × Subtype p)
    (y : β × Subtype q) :
    Prop :=
  g x.1 = y.1 ∧ x.2.1.map m = y.2.1

namespace Alike

variable {ε α β γ δ : Type} {E : ε → ε → Prop} {R : α → β → Prop} {S : γ → δ → Prop} {x : Except ε α} {y : Except ε β}
  {f : α → Except ε γ} {g : β → Except ε δ} {h : α → β}

theorem bind (first : Alike E R x y)
    (second : ∀ a b, R a b → Alike E S (f a) (g b)) : Alike E S (x >>= f) (y >>= g) := by
  cases first with
  | ok same => exact second _ _ same
  | error same => exact .error same

theorem bindSame {y : Except ε α} {g : α → Except ε δ} (first : Alike E Eq x y)
    (second : ∀ a, Alike E S (f a) (g a)) : Alike E S (x >>= f) (y >>= g) := by
  refine first.bind ?_
  rintro a _ rfl
  exact second a

theorem bindMap (first : Alike E (fun a b => b = h a) x y) (second : ∀ a, Alike E S (f a) (g (h a))) :
    Alike E S (x >>= f) (y >>= g) := by
  refine first.bind ?_
  rintro a _ rfl
  exact second a

theorem bindKeep {P : α → Prop}
    (first : Alike E (fun a b => b = h a ∧ P a) x y) (second : ∀ a, P a → Alike E S (f a) (g (h a))) :
    Alike E S (x >>= f) (y >>= g) := by
  refine first.bind ?_
  rintro a _ ⟨rfl, holds⟩
  exact second a holds

theorem imp {R' : α → β → Prop} (alike : Alike E R x y) (weaker : ∀ a b, R a b → R' a b) : Alike E R' x y := by
  cases alike with
  | ok same => exact .ok (weaker _ _ same)
  | error same => exact .error same

theorem of_ok {a : α} (alike : Alike E R x y) (h : x = .ok a) : ∃ b, R a b := by
  cases alike with
  | ok same =>
    cases h
    exact ⟨_, same⟩
  | error => cases h

theorem bindRest {τ : Type} {m : τ → τ} {g : α → β} {p q : List τ → Prop} {x : Except ε (α × Subtype p)}
    {y : Except ε (β × Subtype q)} {f : α × Subtype p → Except ε γ} {f' : β × Subtype q → Except ε δ}
    (first : Alike E (Grammar.SameRest m g) x y)
    (second : ∀ a rest left left', Alike E S (f (a, ⟨rest, left⟩)) (f' (g a, ⟨rest.map m, left'⟩))) :
    Alike E S (x >>= f) (y >>= f') := by
  refine first.bind ?_
  rintro ⟨a, rest, left⟩ ⟨_, _, left'⟩ ⟨rfl, rfl⟩
  exact second a rest left left'

theorem map {f : α → γ} {g : β → δ} (alike : Alike E R x y)
    (kept : ∀ a b, R a b → S (f a) (g b)) : Alike E S (x.map f) (y.map g) := by
  cases alike with
  | ok same => exact .ok (kept _ _ same)
  | error same => exact .error same

theorem of_map {f : α → γ} {g : β → δ} (alike : Alike E S (x.map f) (y.map g)) :
    Alike E (fun a b => S (f a) (g b)) x y := by
  cases x <;> cases y <;> cases alike
  · exact .error ‹_›
  · exact .ok ‹_›

theorem mono {F : ε → ε → Prop} (alike : Alike E R x y) (weaker : ∀ e e', E e e' → F e e') : Alike F R x y := by
  cases alike with
  | ok same => exact .ok same
  | error same => exact .error (weaker _ _ same)

theorem refl (same : ∀ e, E e e) : Alike E Eq x x := by
  cases x with
  | ok a => exact .ok rfl
  | error e => exact .error (same e)

theorem ite {p q : Prop} [Decidable p] [Decidable q] {x' : Except ε α} {y' : Except ε β} (iff : q ↔ p)
    (yes : p → Alike E R x y) (no : ¬ p → Alike E R x' y') : Alike E R (if p then x else x') (if q then y else y') := by
  by_cases h : p
  · simpa only [if_pos h, if_pos (iff.2 h)] using yes h
  · simpa only [if_neg h, if_neg (mt iff.1 h)] using no h

end Alike

def Token.bare (t : Token) : Token :=
  { t with column := 0 }

namespace Token

variable (t : Token)

@[simp] theorem bare_kind : t.bare.kind = t.kind := rfl
@[simp] theorem bare_text : t.bare.text = t.text := rfl
@[simp] theorem bare_isIdentifier : t.bare.isIdentifier = t.isIdentifier := rfl
@[simp] theorem bare_isWord (word : String) : t.bare.isWord word = t.isWord word := rfl
@[simp] theorem bare_isOperator (symbol : String) : t.bare.isOperator symbol = t.isOperator symbol := rfl
@[simp] theorem bare_isPunct (c : Char) : t.bare.isPunct c = t.isPunct c := rfl
@[simp] theorem bare_isInteger : t.bare.isInteger = t.isInteger := rfl
@[simp] theorem bare_isLiteral : t.bare.isLiteral = t.isLiteral := rfl
@[simp] theorem bare_spelling : t.bare.spelling = t.spelling := rfl
@[simp] theorem bare_bare : t.bare.bare = t.bare := rfl

end Token

mutual

def Expr.bare : Expr → Expr
  | .operand arg grouped => .operand arg.bare grouped
  | .binary op left right grouped => .binary op left.bare right.bare grouped

def Operand.bare : Operand → Operand
  | .atom value unary => .atom value.bare unary
  | .cast target inner => .cast target inner.bare
  | .array elements => .array (Expr.bares elements)
  | .create className arguments => .create className (Expr.bares arguments)

def Atom.bare : Atom → Atom
  | .literal token => .literal token.bare
  | .load head calls => .load head (Call.bares calls)
  | .nested inner => .nested inner.bare

def Call.bare : Call → Call
  | .call name arguments => .call name (Expr.bares arguments)

def Expr.bares : List Expr → List Expr
  | [] => []
  | tree :: rest => tree.bare :: Expr.bares rest

def Call.bares : List Call → List Call
  | [] => []
  | call :: rest => call.bare :: Call.bares rest

end

theorem Call.bares_eq_map (calls : List Call) : Call.bares calls = calls.map Call.bare := by
  induction calls with
  | nil => rfl
  | cons call rest ih => simp [Call.bares, ih]

mutual

@[simp]
theorem Expr.bare_bare : (tree : Expr) → tree.bare.bare = tree.bare
  | .operand arg _ => by simp [Expr.bare, Operand.bare_bare arg]
  | .binary _ left right _ => by simp [Expr.bare, Expr.bare_bare left, Expr.bare_bare right]

@[simp]
theorem Operand.bare_bare : (arg : Operand) → arg.bare.bare = arg.bare
  | .atom value _ => by simp [Operand.bare, Atom.bare_bare value]
  | .cast _ inner => by simp [Operand.bare, Expr.bare_bare inner]
  | .array elements => by simp [Operand.bare, Expr.bares_bares elements]
  | .create _ arguments => by simp [Operand.bare, Expr.bares_bares arguments]

@[simp]
theorem Atom.bare_bare : (atom : Atom) → atom.bare.bare = atom.bare
  | .literal _ => by simp [Atom.bare]
  | .load _ calls => by simp [Atom.bare, Call.bares_bares calls]
  | .nested inner => by simp [Atom.bare, Expr.bare_bare inner]

@[simp]
theorem Expr.bares_bares : (trees : List Expr) → Expr.bares (Expr.bares trees) = Expr.bares trees
  | [] => rfl
  | tree :: rest => by simp [Expr.bares, Expr.bare_bare tree, Expr.bares_bares rest]

@[simp]
theorem Call.bares_bares : (calls : List Call) → Call.bares (Call.bares calls) = Call.bares calls
  | [] => rfl
  | .call _ arguments :: rest => by simp [Call.bares, Call.bare, Expr.bares_bares arguments, Call.bares_bares rest]

end

mutual

theorem Expr.text_bare : (tree : Expr) → tree.bare.text = tree.text
  | .operand arg grouped => by cases grouped <;> simp [Expr.bare, Expr.text, Operand.text_bare arg]
  | .binary op left right grouped => by
    cases grouped <;> simp [Expr.bare, Expr.text, Expr.text_bare left, Expr.text_bare right]

theorem Operand.text_bare : (arg : Operand) → arg.bare.text = arg.text
  | .atom value unary => by cases unary <;> simp [Operand.bare, Operand.text, Atom.text_bare value]
  | .cast target inner => by simp [Operand.bare, Operand.text, Expr.text_bare inner]
  | .array elements => by simp [Operand.bare, Operand.text, Expr.texts_bares elements]
  | .create className arguments => by simp [Operand.bare, Operand.text, Expr.texts_bares arguments]

theorem Atom.text_bare : (atom : Atom) → atom.bare.text = atom.text
  | .literal token => by simp [Atom.bare, Atom.text]
  | .load head calls => by simp [Atom.bare, Atom.text, Call.texts_bares calls]
  | .nested inner => by simp [Atom.bare, Atom.text, Expr.text_bare inner]

theorem Call.text_bare : (call : Call) → call.bare.text = call.text
  | .call name arguments => by simp [Call.bare, Call.text, Expr.texts_bares arguments]

theorem Expr.texts_bares : (trees : List Expr) → Expr.texts (Expr.bares trees) = Expr.texts trees
  | [] => rfl
  | tree :: rest => by simp [Expr.bares, Expr.texts, Expr.text_bare tree, Expr.texts_bares rest]

theorem Call.texts_bares : (calls : List Call) → Call.texts (Call.bares calls) = Call.texts calls
  | [] => rfl
  | call :: rest => by simp [Call.bares, Call.texts, Call.text_bare call, Call.texts_bares rest]

end

namespace Expr

theorem bare_group (tree : Expr) : tree.group.bare = tree.bare.group := by
  cases tree <;> rfl

theorem bare_push (tree : Expr) (op : BinaryOp) (rhs : Expr) :
    (tree.push op rhs).bare = tree.bare.push op rhs.bare := by
  fun_induction push tree op rhs with
  | case1 | case2 => simp [push, joinRight, bare]
  | case3 own left right op rhs tighter ih => simp [push, bare, tighter, ih]
  | case4 own left right op rhs looser => simp [push, joinRight, bare, looser]

theorem bare_applyUnary (op : UnaryOp) (tree : Expr) : (tree.applyUnary op).bare = tree.bare.applyUnary op := by
  fun_cases applyUnary op tree with
  | case1 value => rfl
  | case2 tree other =>
    match tree, other with
    | .binary .., _ => rfl
    | .operand (.atom _ (some _)) _, _ => rfl
    | .operand (.atom _ none) true, _ => rfl
    | .operand (.atom value none) false, other => exact absurd rfl (other value)
    | .operand (.cast ..) _, _ => rfl
    | .operand (.array _) _, _ => rfl
    | .operand (.create ..) _, _ => rfl

end Expr

def SyntaxError.bare : SyntaxError → SyntaxError
  | .expected what found => .expected what (found.map Token.bare)
  | .trailing found => .trailing found.bare
  | .afterExpression found => .afterExpression found.bare
  | .inExpression found => .inExpression found.bare
  | error => error

def Cause.bare : Cause → Cause
  | .parse error => .parse error.bare
  | cause => cause

-- Two causes that differ at most in the columns of their tokens.
def Cause.Same (c c' : Cause) : Prop :=
  c'.bare = c.bare

theorem Cause.Same.refl (c : Cause) : c.Same c :=
  rfl

theorem Cause.Same.message {c c' : Cause} (same : c.Same c') : c'.message = c.message := by
  have bare : ∀ c : Cause, c.bare.message = c.message := by
    intro c
    cases c with
    | parse error =>
      cases error with
      | expected what found => cases found <;> rfl
      | _ => rfl
    | _ => rfl
  rw [← bare, same, bare]

namespace Grammar

theorem expected_same {α β : Type} {R : α → β → Prop} (what : String) (found : Option Token) :
    Alike Cause.Same R (TokenRule.expected what found) (TokenRule.expected what (found.map Token.bare)) :=
  .error (by cases found <;> rfl)

-- The rule does not look at columns: without them it reads what belongs to its result, or fails alike.
def Blind {α : List Token → Type} (rule : ∀ ts, Except Cause (α ts)) (ts : List Token)
    (R : α ts → α (ts.map Token.bare) → Prop) : Prop :=
  Alike Cause.Same R (rule ts) (rule (ts.map Token.bare))

@[simp]
theorem nextIs_bare (p : Char) (ts : List Token) : nextIs p (ts.map Token.bare) = nextIs p ts := by
  cases ts <;> rfl

theorem dimensions_bare (ts : List Token) :
    dimensions (ts.map Token.bare) = ((dimensions ts).1, (dimensions ts).2.map Token.bare) := by
  fun_induction dimensions ts with
  | case1 a b ts pair dims rest split ih => simp [dimensions, pair, ih, split]
  | case2 a b ts other => simp [dimensions, other]
  | case3 ts short =>
    match ts, short with
    | [], _ => rfl
    | [t], _ => rfl
    | a :: b :: ts, short => exact absurd rfl (short a b ts)

theorem startsOperand_bare (ts : List Token) : startsOperand (ts.map Token.bare) = startsOperand ts := by
  cases ts <;> rfl

def castParts? : List Token → Option (TypeName × List Token)
  | [] => none
  | t :: ts =>
    if t.isIdentifier ∧ (Primitive.isKeyword t.text ∨ t.text.toList.head?.any Char.isUpper) then
      match dimensions ts with
      | (dims, close :: rest) =>
        if close.isPunct ')' ∧ startsOperand rest then some ({ dims, base := t.text }, rest) else none
      | (_, []) => none
    else none

theorem castTarget?_parts (ts : List Token) : (castTarget? ts).map (fun x => (x.1, x.2.1)) = castParts? ts := by
  cases ts with
  | nil => rfl
  | cons t ts =>
    unfold castTarget? castParts?
    dsimp only
    split_ifs
    · split
      next found =>
        simp only [found]
        split_ifs <;> rfl
      next found => simp [found]
    · rfl

theorem castParts?_bare (ts : List Token) :
    castParts? (ts.map Token.bare) = (castParts? ts).map fun x => (x.1, x.2.map Token.bare) := by
  cases ts with
  | nil => rfl
  | cons t ts =>
    simp only [castParts?, List.map_cons, Token.bare_isIdentifier, Token.bare_text, dimensions_bare]
    obtain ⟨dims, _ | ⟨close, rest⟩⟩ := dimensions ts
    · split_ifs <;> rfl
    · simp only [List.map_cons, Token.bare_isPunct, startsOperand_bare]
      split_ifs <;> rfl

theorem identifier_bare (what : String) (ts : List Token) : Blind (identifier what) ts (SameRest Token.bare id) := by
  cases ts with
  | nil => exact expected_same what none
  | cons t ts =>
    unfold Blind identifier
    exact .ite Iff.rfl (fun _ => .ok ⟨rfl, rfl⟩) fun _ => expected_same what (some t)

theorem binaryOp?_bare (t : Token) : binaryOp? t.bare = binaryOp? t :=
  rfl

theorem isWordLiteral_bare (t : Token) : isWordLiteral t.bare = isWordLiteral t :=
  rfl

mutual

theorem expression_bare (ts : List Token) : Blind expression ts (SameRest Token.bare Expr.bare) := by
  unfold Blind expression
  refine (operand_bare ts).bindRest fun left ts1 h1 _ => ?_
  exact (operators_bare left ts1).bindRest fun tree ts2 h2 _ => .ok ⟨rfl, rfl⟩
termination_by 5 * ts.length + 1

theorem operators_bare (left : Expr) (ts : List Token) :
    Alike Cause.Same (SameRest Token.bare Expr.bare) (operators left ts) (operators left.bare (ts.map Token.bare)) := by
  cases ts with
  | nil =>
    unfold operators
    exact .ok ⟨rfl, rfl⟩
  | cons t ts =>
    change Alike _ _ (operators left (t :: ts)) (operators left.bare (t.bare :: ts.map Token.bare))
    unfold operators
    dsimp only
    rw [binaryOp?_bare]
    cases binaryOp? t with
    | none => exact .ok ⟨rfl, rfl⟩
    | some op =>
      refine (operand_bare ts).bindRest fun right ts1 h1 _ => ?_
      have more := operators_bare (left.push op right) ts1
      rw [Expr.bare_push] at more
      exact more.bindRest fun tree ts2 h2 _ => .ok ⟨rfl, rfl⟩
termination_by 5 * ts.length

theorem operand_bare (ts : List Token) : Blind operand ts (SameRest Token.bare Expr.bare) := by
  cases ts with
  | nil =>
    unfold Blind operand
    exact expected_same _ none
  | cons t ts =>
    change Alike _ _ (operand (t :: ts)) (operand (t.bare :: ts.map Token.bare))
    unfold operand
    refine .ite Iff.rfl (fun _ => ?_) fun _ => ?_
    · rw [Token.bare_text]
      cases UnaryOp.ofSymbol? t.text with
      | none => exact .error rfl
      | some op =>
        refine (operand_bare ts).bindRest fun tree ts1 h1 _ => ?_
        exact .ok ⟨Expr.bare_applyUnary op tree, rfl⟩
    · exact (primary_bare t ts).bindRest fun tree ts1 h1 _ => .ok ⟨rfl, rfl⟩
termination_by 5 * ts.length

theorem primary_bare (t : Token) (ts : List Token) :
    Alike Cause.Same (SameRest Token.bare Expr.bare) (primary t ts) (primary t.bare (ts.map Token.bare)) := by
  unfold primary
  simp only [Token.bare_isLiteral, isWordLiteral_bare, Token.bare_isWord, Token.bare_isIdentifier,
    Token.bare_isPunct, Token.bare_text]
  refine .ite Iff.rfl (fun _ => .ok ⟨rfl, rfl⟩) fun _ => .ite Iff.rfl (fun _ => ?_) fun _ =>
    .ite Iff.rfl (fun _ => ?_) fun _ => .ite Iff.rfl (fun _ => ?_) fun _ => .ite Iff.rfl (fun _ => ?_) fun _ =>
    .error rfl
  · refine (identifier_bare "class name" ts).bindRest fun className ts1 h1 _ => ?_
    exact (arguments_bare ts1).bindRest fun args ts2 h2 _ => .ok ⟨rfl, rfl⟩
  · exact (load_bare t.text ts).bindRest fun atom ts1 h1 _ => .ok ⟨rfl, rfl⟩
  · have parts := castParts?_bare ts
    rw [← castTarget?_parts, ← castTarget?_parts] at parts
    cases found : castTarget? ts with
    | none =>
      rw [found, Option.map_none, Option.map_none, Option.map_eq_none_iff] at parts
      simp only [parts]
      refine (expression_bare ts).bindRest fun inner ts1 h1 _ => ?_
      cases ts1 with
      | nil => exact expected_same _ none
      | cons close ts2 =>
        exact .ite Iff.rfl (fun _ => .ok ⟨Expr.bare_group inner, rfl⟩) fun _ => expected_same _ (some close)
    | some cast =>
      obtain ⟨target, ts1, h1⟩ := cast
      rw [found, Option.map_some, Option.map_some, Option.map_eq_some_iff] at parts
      obtain ⟨⟨_, _, _⟩, found', same⟩ := parts
      cases same
      simp only [found']
      exact (operand_bare ts1).bindRest fun inner ts2 h2 _ => .ok ⟨rfl, rfl⟩
  · exact (items_bare ']' ts).bindRest fun elements ts1 h1 _ => .ok ⟨rfl, rfl⟩
termination_by 5 * ts.length + 4

theorem arguments_bare (ts : List Token) : Blind arguments ts (SameRest Token.bare Expr.bares) := by
  cases ts with
  | nil =>
    unfold Blind arguments
    exact expected_same _ none
  | cons t ts =>
    unfold Blind arguments
    refine .ite Iff.rfl (fun _ => ?_) fun _ => expected_same _ (some t)
    exact (items_bare ')' ts).bindRest fun args ts1 h1 _ => .ok ⟨rfl, rfl⟩
termination_by 5 * ts.length

theorem items_bare (close : Char) (ts : List Token) : Blind (items close) ts (SameRest Token.bare Expr.bares) := by
  unfold Blind items
  rw [nextIs_bare]
  exact .ite Iff.rfl (fun _ => .ok ⟨rfl, List.map_tail⟩) fun _ => moreItems_bare close ts
termination_by 5 * ts.length + 3

theorem moreItems_bare (close : Char) (ts : List Token) :
    Blind (moreItems close) ts (SameRest Token.bare Expr.bares) := by
  unfold Blind moreItems
  refine (expression_bare ts).bindRest fun item ts1 h1 _ => ?_
  cases ts1 with
  | nil => exact expected_same _ none
  | cons t ts2 =>
    refine .ite Iff.rfl (fun _ => .ok ⟨rfl, rfl⟩) fun _ => .ite Iff.rfl (fun _ => ?_) fun _ => expected_same _ (some t)
    exact (moreItems_bare close ts2).bindRest fun rest ts3 h3 _ => .ok ⟨rfl, rfl⟩
termination_by 5 * ts.length + 2
decreasing_by
  · omega
  · simp only [List.length_cons] at h1
    omega

theorem load_bare (first : String) (ts : List Token) : Blind (load first) ts (SameRest Token.bare Atom.bare) := by
  unfold Blind load
  simp only [nextIs_bare]
  refine .ite Iff.rfl (fun _ => calls_bare (.named first) [] ts) fun _ => .ite Iff.rfl (fun _ => ?_) fun _ => ?_
  · refine (arguments_bare ts).bindRest fun args ts1 h1 _ => ?_
    exact (calls_bare .implicit [.call first args] ts1).bindRest fun atom ts2 h2 _ => .ok ⟨rfl, rfl⟩
  · cases ts with
    | nil => exact calls_bare (.named first) [] []
    | cons t ts =>
      refine .ite Iff.rfl (fun _ => ?_) fun _ => calls_bare (.named first) [] (t :: ts)
      refine (identifier_bare _ ts).bindRest fun second ts1 h1 _ => ?_
      simp only [nextIs_bare]
      refine .ite Iff.rfl (fun _ => ?_) fun _ => ?_
      · refine (arguments_bare ts1).bindRest fun args ts2 h2 _ => ?_
        exact (calls_bare _ [.call second args] ts2).bindRest fun atom ts3 h3 _ => .ok ⟨rfl, rfl⟩
      · exact (calls_bare (.member first second) [] ts1).bindRest fun atom ts2 h2 _ => .ok ⟨rfl, rfl⟩
termination_by 5 * ts.length + 1

theorem calls_bare (head : Head) (done : List Call) (ts : List Token) :
    Alike Cause.Same (SameRest Token.bare Atom.bare) (calls head done ts)
      (calls head (Call.bares done) (ts.map Token.bare)) := by
  have ended : (Atom.load head done.reverse).bare = .load head (Call.bares done).reverse := by
    simp only [Atom.bare, Call.bares_eq_map, List.map_reverse]
  cases ts with
  | nil =>
    unfold calls
    exact .ok ⟨ended, rfl⟩
  | cons t ts =>
    unfold calls
    refine .ite Iff.rfl (fun _ => ?_) fun _ => .ok ⟨ended, rfl⟩
    refine (identifier_bare _ ts).bindRest fun name ts1 h1 _ => ?_
    simp only [nextIs_bare]
    refine .ite Iff.rfl (fun _ => ?_) fun _ => .error rfl
    refine (arguments_bare ts1).bindRest fun args ts2 h2 _ => ?_
    exact (calls_bare head (.call name args :: done) ts2).bindRest fun atom ts3 h3 _ => .ok ⟨rfl, rfl⟩
termination_by 5 * ts.length

end

end Grammar

namespace Expr

theorem parseArguments_bare (ts : List Token) :
    Alike Cause.Same (fun x y => y = (bares x.1, x.2.map Token.bare)) (parseArguments ts)
      (parseArguments (ts.map Token.bare)) := by
  refine (Grammar.arguments_bare ts).map ?_
  rintro ⟨args, ts1, h1⟩ ⟨_, _, _⟩ ⟨rfl, rfl⟩
  rfl

theorem parse_bare (ts : List Token) : Grammar.Blind parse ts fun tree tree' => tree' = tree.bare := by
  have first : Alike Cause.Same (fun x y => y = (x.1.bare, x.2.map Token.bare)) (parseFirst ts)
      (parseFirst (ts.map Token.bare)) := by
    refine (Grammar.expression_bare ts).map ?_
    rintro ⟨tree, ts1, h1⟩ ⟨_, _, _⟩ ⟨rfl, rfl⟩
    rfl
  refine first.bind ?_
  rintro ⟨tree, _ | ⟨t, ts⟩⟩ _ rfl
  · exact .ok rfl
  · exact .error rfl

end Expr

end ClassForge
