import ClassForge.Token.Line

set_option autoImplicit false

namespace ClassForge

open Text (SourcePath)

structure Cursor where
  path : SourcePath
  lines : List TokenLine
  rest : List Token
  lastLine : Nat
  deriving DecidableEq, Repr

namespace Cursor

def tokensOf : List TokenLine → List Token
  | [] => []
  | line :: _ => line.tokens

def ofLines (path : SourcePath) (lines : List TokenLine) : Cursor :=
  { path, lines, rest := tokensOf lines, lastLine := (lines.getLast?.map (·.number)).getD 1 }

def ofSource (path : SourcePath) (source : String) : Except CompileError Cursor :=
  (TokenLine.ofSource path source).map (ofLines path)

def isEof (c : Cursor) : Bool :=
  c.lines.isEmpty

def atLineEnd (c : Cursor) : Bool :=
  c.rest.isEmpty

def lineNumber (c : Cursor) : Nat :=
  match c.lines with
  | line :: _ => line.number
  | [] => c.lastLine

def location (c : Cursor) : Location :=
  { path := c.path, line := c.lineNumber }

def currentLine? (c : Cursor) : Option TokenLine :=
  c.lines.head?

def peek? (c : Cursor) : Option Token :=
  c.rest.head?

def peekNth? (c : Cursor) (n : Nat) : Option Token :=
  c.rest[n]?

def skip (c : Cursor) : Cursor :=
  { c with rest := c.rest.tail }

def advanceLine (c : Cursor) : Cursor :=
  { c with lines := c.lines.tail, rest := tokensOf c.lines.tail }

def toToken (c : Cursor) : Cursor :=
  match c.rest with
  | _ :: _ => c
  | [] =>
    let lines := c.lines.tail.dropWhile (·.tokens.isEmpty)
    { c with lines, rest := tokensOf lines }

def skipRest (c : Cursor) : Cursor :=
  { c with rest := [] }

def checkWord (c : Cursor) (word : String) : Bool :=
  c.peek?.any (·.isWord word)

def checkPunct (c : Cursor) (p : Char) : Bool :=
  c.peek?.any (·.isPunct p)

def checkOperator (c : Cursor) (symbol : String) : Bool :=
  c.peek?.any (·.isOperator symbol)

-- The grammar goes over lists of lines and tokens. They are what a cursor has in front of it on its way.
theorem ofSource_lines (path : SourcePath) (source : String) :
    (ofSource path source).map (·.lines) = TokenLine.ofSource path source := by
  unfold ofSource
  cases TokenLine.ofSource path source <;> rfl

theorem repeat_advanceLine (path : SourcePath) (lines : List TokenLine) (n : Nat) :
    (Nat.repeat advanceLine n (ofLines path lines)).lines = lines.drop n ∧
      (Nat.repeat advanceLine n (ofLines path lines)).rest = tokensOf (lines.drop n) := by
  induction n with
  | zero => exact ⟨rfl, rfl⟩
  | succ n ih =>
    have left : (Nat.repeat advanceLine n (ofLines path lines)).lines.tail = lines.drop (n + 1) := by
      rw [ih.1, List.tail_drop]
    exact ⟨left, congrArg tokensOf left⟩

end Cursor

abbrev TokenRule (α : Type) := List Token → Except Cause (α × List Token)

namespace TokenRule

def expected {α : Type} (what : String) (found : Option Token) : Except Cause α :=
  .error (.parse (.expected what found))

def identifier (what : String) : TokenRule String
  | t :: ts => if t.isIdentifier then .ok (t.text, ts) else expected what (some t)
  | [] => expected what none

def punct (p : Char) : TokenRule Unit
  | t :: ts => if t.isPunct p then .ok ((), ts) else expected (quoted (String.singleton p)) (some t)
  | [] => expected (quoted (String.singleton p)) none

def operator (symbol : String) : TokenRule Unit
  | t :: ts => if t.isOperator symbol then .ok ((), ts) else expected (quoted symbol) (some t)
  | [] => expected (quoted symbol) none

def lineEnd : List Token → Except Cause Unit
  | t :: _ => .error (.parse (.trailing t))
  | [] => .ok ()

variable (c : Cursor)

-- What a rule takes is what a cursor skips after its check.
theorem punct_rest (p : Char) : punct p c.rest =
    if c.checkPunct p then .ok ((), c.skip.rest) else expected (quoted (String.singleton p)) c.peek? := by
  rcases c with ⟨path, lines, _ | ⟨t, ts⟩, last⟩ <;> rfl

theorem operator_rest (symbol : String) : operator symbol c.rest =
    if c.checkOperator symbol then .ok ((), c.skip.rest) else expected (quoted symbol) c.peek? := by
  rcases c with ⟨path, lines, _ | ⟨t, ts⟩, last⟩ <;> rfl

theorem lineEnd_rest : (lineEnd c.rest).toBool = c.atLineEnd := by
  rcases c with ⟨path, lines, _ | ⟨t, ts⟩, last⟩ <;> rfl

end TokenRule

end ClassForge
