import ClassForge.Expr.Basic
import ClassForge.Token.Cursor

set_option autoImplicit false

namespace ClassForge

namespace Grammar

abbrev Unread (ts : List Token) := { rest : List Token // rest.length ≤ ts.length }

def Unread.all (ts : List Token) : Unread ts :=
  ⟨ts, Nat.le_refl _⟩

abbrev Rule (α : Type) (ts : List Token) := Except Cause (α × Unread ts)

def dimensions : List Token → Nat × List Token
  | a :: b :: ts =>
    if a.isPunct '[' ∧ b.isPunct ']' then
      let (dims, rest) := dimensions ts
      (dims + 1, rest)
    else (0, a :: b :: ts)
  | ts => (0, ts)

theorem length_dimensions_le (ts : List Token) : (dimensions ts).2.length ≤ ts.length := by
  fun_induction dimensions ts with
  | case1 a b ts _ dims rest h ih =>
    simp [h] at ih ⊢
    omega
  | case2 => simp
  | case3 => simp

def startsOperand : List Token → Bool
  | t :: _ => t.isIdentifier ∨ t.isLiteral ∨ t.isPunct '(' ∨ t.isPunct '['
  | [] => false

-- After an opening parenthesis: the target of a cast and the tokens of its operand. A cast names a primitive or
-- a capitalised type, and an operand follows its closing parenthesis.
def castTarget? (ts : List Token) : Option (TypeName × { rest : List Token // rest.length < ts.length }) :=
  match ts with
  | [] => none
  | t :: ts' =>
    if t.isIdentifier ∧ (Primitive.isKeyword t.text ∨ t.text.toList.head?.any Char.isUpper) then
      match h : dimensions ts' with
      | (dims, close :: rest) =>
        if close.isPunct ')' ∧ startsOperand rest then
          some ({ dims, base := t.text }, ⟨rest, by
            have := length_dimensions_le ts'
            simp [h] at this ⊢
            omega⟩)
        else none
      | (_, []) => none
    else none

def isWordLiteral (t : Token) : Bool :=
  t.isWord "true" ∨ t.isWord "false" ∨ t.isWord "null"

def binaryOp? (t : Token) : Option BinaryOp :=
  if t.kind = .operator then BinaryOp.ofSymbol? t.text else none

def identifier (what : String) (ts : List Token) : Rule String ts :=
  match ts with
  | t :: ts => if t.isIdentifier then .ok (t.text, ⟨ts, by simp⟩) else TokenRule.expected what (some t)
  | [] => TokenRule.expected what none

def nextIs (p : Char) (ts : List Token) : Bool :=
  ts.head?.any (·.isPunct p)

mutual

def expression (ts : List Token) : Rule Expr ts := do
  let (left, ⟨ts₁, h₁⟩) ← operand ts
  let (tree, ⟨ts₂, h₂⟩) ← operators left ts₁
  return (tree, ⟨ts₂, by omega⟩)
termination_by 5 * ts.length + 1

def operators (left : Expr) (ts : List Token) : Rule Expr ts :=
  match ts with
  | [] => .ok (left, ⟨[], by simp⟩)
  | t :: ts =>
    match binaryOp? t with
    | none => .ok (left, ⟨t :: ts, by simp⟩)
    | some op => do
      let (right, ⟨ts₁, h₁⟩) ← operand ts
      let (tree, ⟨ts₂, h₂⟩) ← operators (left.push op right) ts₁
      return (tree, ⟨ts₂, by rw [List.length_cons]; omega⟩)
termination_by 5 * ts.length

def operand (ts : List Token) : Rule Expr ts :=
  match ts with
  | [] => TokenRule.expected "expression" none
  | t :: ts =>
    if t.kind = .operator then
      match UnaryOp.ofSymbol? t.text with
      | none => .error (.parse (.unexpectedOperator t.text))
      | some op => do
        let (tree, ⟨ts₁, h₁⟩) ← operand ts
        return (tree.applyUnary op, ⟨ts₁, by rw [List.length_cons]; omega⟩)
    else do
      let (tree, ⟨ts₁, h₁⟩) ← primary t ts
      return (tree, ⟨ts₁, by rw [List.length_cons]; omega⟩)
termination_by 5 * ts.length

def primary (t : Token) (ts : List Token) : Rule Expr ts :=
  if t.isLiteral ∨ isWordLiteral t then .ok (.literal t, ⟨ts, by simp⟩)
  else if t.isWord "new" then do
    let (className, ⟨ts₁, h₁⟩) ← identifier "class name" ts
    let (args, ⟨ts₂, h₂⟩) ← arguments ts₁
    return (.leaf (.create className args), ⟨ts₂, by omega⟩)
  else if t.isIdentifier then do
    let (atom, ⟨ts₁, h₁⟩) ← load t.text ts
    return (.leaf (.atom atom none), ⟨ts₁, by omega⟩)
  else if t.isPunct '(' then
    match castTarget? ts with
    | some (target, ⟨ts₁, h₁⟩) => do
      let (inner, ⟨ts₂, h₂⟩) ← operand ts₁
      return (.leaf (.cast target inner), ⟨ts₂, by omega⟩)
    | none => do
      let (inner, ⟨ts₁, h₁⟩) ← expression ts
      match ts₁, h₁ with
      | close :: ts₂, h₁ =>
        if close.isPunct ')' then return (inner.group, ⟨ts₂, by simp at h₁; omega⟩)
        else TokenRule.expected "')'" (some close)
      | [], _ => TokenRule.expected "')'" none
  else if t.isPunct '[' then do
    let (elements, ⟨ts₁, h₁⟩) ← items ']' ts
    return (.leaf (.array elements), ⟨ts₁, by omega⟩)
  else .error (.parse (.inExpression t))
termination_by 5 * ts.length + 4

def arguments (ts : List Token) : Rule (List Expr) ts :=
  match ts with
  | t :: ts =>
    if t.isPunct '(' then do
      let (args, ⟨ts₁, h₁⟩) ← items ')' ts
      return (args, ⟨ts₁, by rw [List.length_cons]; omega⟩)
    else TokenRule.expected "'('" (some t)
  | [] => TokenRule.expected "'('" none
termination_by 5 * ts.length

def items (close : Char) (ts : List Token) : Rule (List Expr) ts :=
  if nextIs close ts then .ok ([], ⟨ts.tail, by simp⟩) else moreItems close ts
termination_by 5 * ts.length + 3

def moreItems (close : Char) (ts : List Token) : Rule (List Expr) ts := do
  let (item, ⟨ts₁, h₁⟩) ← expression ts
  match ts₁, h₁ with
  | t :: ts₂, h₁ =>
    if t.isPunct close then return ([item], ⟨ts₂, by simp at h₁; omega⟩)
    else if t.isPunct ',' then do
      let (rest, ⟨ts₃, h₃⟩) ← moreItems close ts₂
      return (item :: rest, ⟨ts₃, by simp at h₁; omega⟩)
    else TokenRule.expected "','" (some t)
  | [], _ => TokenRule.expected "','" none
termination_by 5 * ts.length + 2

def load (first : String) (ts : List Token) : Rule Atom ts :=
  if first = "this" ∧ ¬ nextIs '.' ts then calls (.named first) [] ts
  else if nextIs '(' ts then do
    let (args, ⟨ts₁, h₁⟩) ← arguments ts
    let (atom, ⟨ts₂, h₂⟩) ← calls .implicit [.call first args] ts₁
    return (atom, ⟨ts₂, by omega⟩)
  else match ts with
  | t :: ts =>
    if t.isPunct '.' then do
      let what := if first = "this" then "member name after 'this.'" else "member name"
      let (second, ⟨ts₁, h₁⟩) ← identifier what ts
      if nextIs '(' ts₁ then do
        let (args, ⟨ts₂, h₂⟩) ← arguments ts₁
        let head := if first = "this" then .self else .named first
        let (atom, ⟨ts₃, h₃⟩) ← calls head [.call second args] ts₂
        return (atom, ⟨ts₃, by rw [List.length_cons]; omega⟩)
      else do
        let (atom, ⟨ts₂, h₂⟩) ← calls (.member first second) [] ts₁
        return (atom, ⟨ts₂, by rw [List.length_cons]; omega⟩)
    else calls (.named first) [] (t :: ts)
  | [] => calls (.named first) [] []
termination_by 5 * ts.length + 1

def calls (head : Head) (done : List Call) (ts : List Token) : Rule Atom ts :=
  match ts with
  | t :: ts =>
    if t.isPunct '.' then do
      let (name, ⟨ts₁, h₁⟩) ← identifier "method name" ts
      if nextIs '(' ts₁ then do
        let (args, ⟨ts₂, h₂⟩) ← arguments ts₁
        let (atom, ⟨ts₃, h₃⟩) ← calls head (.call name args :: done) ts₂
        return (atom, ⟨ts₃, by rw [List.length_cons]; omega⟩)
      else .error (.parse (.fieldAccess name))
    else .ok (.load head done.reverse, ⟨t :: ts, by simp⟩)
  | [] => .ok (.load head done.reverse, ⟨[], by simp⟩)
termination_by 5 * ts.length

end

end Grammar

namespace Expr

def parseFirst (ts : List Token) : Except Cause (Expr × List Token) :=
  (Grammar.expression ts).map (fun (tree, rest) => (tree, rest.val))

def parseArguments (ts : List Token) : Except Cause (List Expr × List Token) :=
  (Grammar.arguments ts).map (fun (args, rest) => (args, rest.val))

def parse (ts : List Token) : Except Cause Expr := do
  let (tree, rest) ← parseFirst ts
  match rest with
  | [] => return tree
  | t :: _ => .error (.parse (.afterExpression t))

end Expr

end ClassForge
