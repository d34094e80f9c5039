import ClassForge.Expr.Parse
import ClassForge.Stmt.Basic
import ClassForge.Text.Decimal

set_option autoImplicit false

namespace ClassForge

open Text (SourcePath)

namespace Grammar

abbrev LinesLeft (lines : List TokenLine) :=
  { rest : List TokenLine // rest.length ≤ lines.length }

abbrev FewerLines (lines : List TokenLine) :=
  { rest : List TokenLine // rest.length < lines.length }

def FewerLines.tail (line : TokenLine) (lines : List TokenLine) : FewerLines (line :: lines) :=
  ⟨lines, Nat.lt_add_one _⟩

theorem length_lt_of_lt_of_lt {line : TokenLine} {lines left left' : List TokenLine}
    (h : left.length < lines.length) (h' : left'.length < left.length) :
    left'.length < (line :: lines).length := by
  rw [List.length_cons]
  omega

def declarationHead? : List Token → Option (TypeName × String × List Token)
  | t :: ts =>
    match t.isIdentifier, dimensions ts with
    | true, (dims, name :: eq :: value) =>
      if name.isIdentifier ∧ eq.isOperator "=" then
        some ({ dims, base := t.text }, name.text, value)
      else none
    | _, _ => none
  | [] => none

def evalAction (tree : Expr) : Except Cause Action :=
  match tree with
  | .operand (.atom (.load _ (_ :: _)) none) _ => .ok (.eval tree)
  | .operand (.create ..) _ => .ok (.eval tree)
  | _ => .error (.parse (.notStatement tree.text))

def plainAction (ts : List Token) : Except Cause Action :=
  match ts.dropWhile (fun t => ¬ t.isOperator "=") with
  | [] => Expr.parse ts >>= evalAction
  | _ :: value => do
    match ← Expr.parse (ts.takeWhile (fun t => ¬ t.isOperator "=")) with
    | .operand (.atom (.load head []) none) _ => return .assign head (← Expr.parse value)
    | _ => .error (.parse .assignmentTarget)

def simpleAction (ts : List Token) : Except Cause Action :=
  let isFinal := ts.head?.any (·.isWord "final")
  let rest := if isFinal then ts.tail else ts
  match declarationHead? rest with
  | some (type, name, value) => return .declare isFinal type name (← Expr.parse value)
  | none => if isFinal then .error (.parse .finalWithoutDeclaration) else plainAction rest

def header (ts : List Token) : Except Cause Expr :=
  if ts.getLast?.any (·.isPunct '{') ∧ ts.dropLast ≠ [] then Expr.parse ts.dropLast
  else .error (.parse .missingCondition)

def opening (ts : List Token) : Except Cause Unit := do
  let ((), rest) ← TokenRule.punct '{' ts
  TokenRule.lineEnd rest

def labelValue (negative : Bool) (t : Token) : Except Cause Int :=
  if t.isInteger then
    let n : Int := Text.ofDigits t.text.toList
    let value := if negative then -n else n
    if n < Nat.pow 2 63 ∧ -(Nat.pow 2 31 : Int) ≤ value ∧ value < Nat.pow 2 31 then .ok value
    else .error (.parse (.labelRange t.text))
  else if t.kind = .char ∧ ¬ negative then .ok ((t.text.toList.head?.map Char.toNat).getD 0)
  else TokenRule.expected "integer or char case label" (some t)

def caseLabels (ts : List Token) : Except Cause (List Int) :=
  match ts with
  | [] => TokenRule.expected "case label" none
  | t :: rest =>
    if t.isOperator "-" then
      match rest with
      | [] => TokenRule.expected "case label" none
      | u :: rest => do moreLabels (← labelValue true u) rest
    else do moreLabels (← labelValue false t) rest
termination_by 2 * ts.length
where
  moreLabels (label : Int) (ts : List Token) : Except Cause (List Int) :=
    match ts with
    | [] => TokenRule.expected "','" none
    | t :: rest =>
      if t.isPunct '{' then do
        TokenRule.lineEnd rest
        return [label]
      else if t.isPunct ',' then return label :: (← caseLabels rest)
      else TokenRule.expected "','" (some t)
  termination_by 2 * ts.length + 1

def repeatedLabel? (taken : List Int) : List Int → Option Int
  | [] => none
  | label :: rest => if taken.contains label then some label else repeatedLabel? (label :: taken) rest

mutual

def statement (path : SourcePath) (line : TokenLine) (lines : List TokenLine) :
    Except CompileError (Stmt × LinesLeft lines) :=
  atLocation { path, line := line.number } do
    let (act, rest) ← action path line.tokens lines
    return (.mk line.number act, rest)
termination_by 5 * lines.length + 4

def action (path : SourcePath) (ts : List Token) (lines : List TokenLine) :
    Except CompileError (Action × LinesLeft lines) :=
  match ts with
  | [] => do return (← unlocated (simpleAction []), ⟨lines, by simp⟩)
  | t :: rest =>
    if t.isWord "return" then
      if rest.isEmpty then .ok (.ret none, ⟨lines, by simp⟩)
      else do return (.ret (some (← unlocated (Expr.parse rest))), ⟨lines, by simp⟩)
    else if t.isWord "throw" then do
      return (.raise (← unlocated (Expr.parse rest)), ⟨lines, by simp⟩)
    else if t.isWord "if" then do
      let (chain, ⟨left, h⟩) ← ifChain path rest lines
      return (.cond chain, ⟨left, by omega⟩)
    else if t.isWord "while" then do
      let condition ← unlocated (header rest)
      let (body, tail, ⟨left, h⟩) ← block path [] lines
      unlocated (TokenRule.lineEnd tail)
      return (.loop condition body, ⟨left, by omega⟩)
    else if t.isWord "switch" then do
      let scrutinee ← unlocated (header rest)
      let (branches, default, ⟨left, h⟩) ← cases path [] none lines
      return (.select scrutinee branches default, ⟨left, by omega⟩)
    else do return (← unlocated (simpleAction (t :: rest)), ⟨lines, by simp⟩)
termination_by 5 * lines.length + 3

-- Statements up to a line that starts with a closing brace, after those already read, which stand in reverse.
-- Gives back what follows the brace in its line, and the lines after it.
def block (path : SourcePath) (done : List Stmt) (lines : List TokenLine) :
    Except CompileError (List Stmt × List Token × FewerLines lines) :=
  match lines with
  | [] => .error { cause := .parse .missingBrace }
  | line :: lines =>
    if nextIs '}' line.tokens then .ok (done.reverse, line.tokens.tail, FewerLines.tail line lines)
    else do
      let (stmt, ⟨left, h⟩) ← statement path line lines
      let (body, tail, ⟨left', h'⟩) ← block path (stmt :: done) left
      return (body, tail, ⟨left', by rw [List.length_cons]; omega⟩)
termination_by 5 * lines.length

def ifChain (path : SourcePath) (ts : List Token) (lines : List TokenLine) :
    Except CompileError (IfChain × LinesLeft lines) := do
  let condition ← unlocated (header ts)
  let (body, tail, ⟨left, h⟩) ← block path [] lines
  let (other, ⟨left', h'⟩) ← otherwise path tail left
  return (.mk condition body other, ⟨left', by omega⟩)
termination_by 5 * lines.length + 1

def otherwise (path : SourcePath) (tail : List Token) (lines : List TokenLine) :
    Except CompileError (Otherwise × LinesLeft lines) :=
  match tail with
  | t :: ts => clause path t ts lines
  | [] =>
    match lines with
    | [] => .ok (.skip, ⟨[], by simp⟩)
    | line :: lines =>
      match line.tokens with
      | [] => .ok (.skip, ⟨line :: lines, by simp⟩)
      | t :: ts =>
        if t.isWord "elif" ∨ t.isWord "else" then do
          let (other, ⟨left, h⟩) ← clause path t ts lines
          return (other, ⟨left, by rw [List.length_cons]; omega⟩)
        else .ok (.skip, ⟨line :: lines, by simp⟩)
termination_by 5 * lines.length + 3

def clause (path : SourcePath) (t : Token) (ts : List Token) (lines : List TokenLine) :
    Except CompileError (Otherwise × LinesLeft lines) :=
  if t.isWord "elif" then do
    let (chain, left) ← ifChain path ts lines
    return (.elif chain, left)
  else if t.isWord "else" then do
    unlocated (opening ts)
    let (body, tail, ⟨left, h⟩) ← block path [] lines
    unlocated (TokenRule.lineEnd tail)
    return (.block body, ⟨left, by omega⟩)
  else unlocated (TokenRule.expected "'elif', 'else' or end of line" (some t))
termination_by 5 * lines.length + 2

-- The branches of a switch up to its closing brace, after those already read, which stand in reverse.
def cases (path : SourcePath) (done : List Branch) (default : Option (List Stmt))
    (lines : List TokenLine) :
    Except CompileError (List Branch × Option (List Stmt) × FewerLines lines) :=
  match lines with
  | [] => .error { cause := .parse .missingBrace }
  | line :: lines =>
    let location : Location := { path, line := line.number }
    match line.tokens with
    | [] => located location (TokenRule.expected "'case' or 'default'" none)
    | t :: ts =>
      if t.isPunct '}' then do
        unlocated (TokenRule.lineEnd ts)
        return (done.reverse, default, FewerLines.tail line lines)
      else if t.isWord "case" then do
        let labels ← located location (caseLabels ts)
        match repeatedLabel? (done.flatMap Branch.labels) labels with
        | some label => located location (.error (.parse (.duplicateLabel label)))
        | none =>
          let (body, tail, ⟨left, h⟩) ← block path [] lines
          unlocated (TokenRule.lineEnd tail)
          let (branches, default, ⟨left', h'⟩) ← cases path (.mk labels body :: done) default left
          return (branches, default, ⟨left', length_lt_of_lt_of_lt h h'⟩)
      else if t.isWord "default" then
        if default.isSome then located location (.error (.parse .duplicateDefault))
        else do
          unlocated (opening ts)
          let (body, tail, ⟨left, h⟩) ← block path [] lines
          unlocated (TokenRule.lineEnd tail)
          let (branches, default, ⟨left', h'⟩) ← cases path done (some body) left
          return (branches, default, ⟨left', length_lt_of_lt_of_lt h h'⟩)
      else located location (TokenRule.expected "'case' or 'default'" (some t))
termination_by 5 * lines.length

end

def statements (path : SourcePath) (done : List Stmt) (lines : List TokenLine) :
    Except CompileError (List Stmt) :=
  match lines with
  | [] => .ok done.reverse
  | line :: lines =>
    if nextIs '}' line.tokens then
      located { path, line := line.number } (.error (.parse .unbalancedBrace))
    else do
      let (stmt, ⟨left, _⟩) ← statement path line lines
      statements path (stmt :: done) left
termination_by lines.length

end Grammar

def Stmt.parseBody (path : SourcePath) (lines : List TokenLine) : Except CompileError (List Stmt) :=
  Grammar.statements path [] lines

end ClassForge
