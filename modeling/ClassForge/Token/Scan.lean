import ClassForge.Error

set_option autoImplicit false

namespace ClassForge

inductive Lexeme where
  | blank
  | openString
  | token (kind : TokenKind)
  deriving DecidableEq, Repr

namespace Lexeme

def isBlank (c : Char) : Bool :=
  c = ' ' ∨ c = '\t' ∨ c = '\r' ∨ c = '\n' ∨ c = '\x0c'

def isWordStart (c : Char) : Bool :=
  c.isAlpha ∨ c = '_'

def isWordPart (c : Char) : Bool :=
  c.isAlphanum ∨ c = '_'

def isOperatorChar (c : Char) : Bool :=
  "-+*/!=<>%&|^~".toList.contains c

def run (test : Char → Bool) (cs : List Char) : Nat :=
  (cs.takeWhile test).length

def number (cs : List Char) : TokenKind × Nat :=
  let whole := run Char.isDigit cs
  match cs.drop whole with
  | 'i' :: _ => (.int, whole + 1)
  | 's' :: _ => (.short, whole + 1)
  | 'l' :: _ => (.long, whole + 1)
  | '.' :: fraction =>
    let part := run Char.isDigit fraction
    match fraction.drop part with
    | 'f' :: _ => (.float, whole + part + 2)
    | 'd' :: _ => (.double, whole + part + 2)
    | _ => (.double, whole + part + 1)
  | _ => (.int, whole)

-- The rest of a string after its opening quote: whether a quote closes it and how many characters belong to it.
-- A backslash takes the next character with it, but never a line feed.
def stringRest (count : Nat) : List Char → Bool × Nat
  | '"' :: _ => (true, count + 1)
  | '\\' :: c :: cs => if c = '\n' then (false, count) else stringRest (count + 2) cs
  | ['\\'] => (false, count)
  | _ :: cs => stringRest (count + 1) cs
  | [] => (false, count)

def charRest : List Char → Option Nat
  | '\\' :: c :: '\'' :: _ => if c = '\n' then none else some 3
  | '\\' :: _ => none
  | '\'' :: _ => none
  | _ :: '\'' :: _ => some 2
  | _ => none

-- The longest lexeme that starts with `c`, and how many of the characters after `c` belong to it. A character
-- no other class takes is one punctuation token.
def longest (c : Char) (cs : List Char) : Lexeme × Nat :=
  if isBlank c then (.blank, run isBlank cs)
  else if c = '#' then (.blank, run (· ≠ '#') cs + 1)
  else if isWordStart c then (.token .identifier, run isWordPart cs)
  else if c.isDigit then
    let (kind, count) := number cs
    (.token kind, count)
  else if isOperatorChar c then (.token .operator, run isOperatorChar cs)
  else if c = '"' then
    match stringRest 0 cs with
    | (true, count) => (.token .string, count)
    | (false, count) => (.openString, count)
  else if c = '\'' then
    match charRest cs with
    | some count => (.token .char, count)
    | none => (.token .punctuation, 0)
  else (.token .punctuation, 0)

end Lexeme

namespace Token

def contents (kind : TokenKind) (cs : List Char) : List Char :=
  match kind with
  | .int => cs.takeWhile Char.isDigit
  | .short | .long | .float => cs.dropLast
  | .double => cs.takeWhile (· ≠ 'd')
  | .string | .char => unescape (cs.drop 1).dropLast
  | .identifier | .operator | .punctuation => cs

def byteSize (cs : List Char) : Nat :=
  cs.foldr (fun c n => c.utf8Size + n) 0

-- The tokens of a text from a byte column on, after those already read, which stand in reverse. An unclosed
-- string is reported and reading goes on after it.
def scanFrom (done : List (Except LexError Token)) (column : Nat) :
    List Char → List (Except LexError Token)
  | [] => done.reverse
  | c :: cs =>
    let (lexeme, count) := Lexeme.longest c cs
    let taken := c :: cs.take count
    let next := column + byteSize taken
    match lexeme with
    | .blank => scanFrom done next (cs.drop count)
    | .openString =>
      scanFrom (.error (.unterminated (String.ofList taken)) :: done) next (cs.drop count)
    | .token kind =>
      let token : Token := { kind, text := String.ofList (contents kind taken), column }
      scanFrom (.ok token :: done) next (cs.drop count)
termination_by cs => cs.length

def scan (cs : List Char) : List (Except LexError Token) :=
  scanFrom [] 1 cs

def tokenize (cs : List Char) : Except LexError (List Token) :=
  (scan cs).mapM id

end Token

end ClassForge
