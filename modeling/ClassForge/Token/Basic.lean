set_option autoImplicit false

namespace ClassForge

inductive TokenKind where
  | identifier
  | string
  | char
  | int
  | short
  | long
  | float
  | double
  | operator
  | punctuation
  deriving DecidableEq, Repr

def TokenKind.name : TokenKind → String
  | .identifier => "Identifier"
  | .string => "StringLiteral"
  | .char => "CharLiteral"
  | .int => "Int"
  | .short => "Short"
  | .long => "Long"
  | .float => "Float"
  | .double => "Double"
  | .operator => "Operator"
  | .punctuation => "Punctuation"

/-- One token of a line. Literals of text hold their contents without quotes and escapes, literals
of numbers their digits without the suffix letter. -/
structure Token where
  kind : TokenKind
  text : String
  column : Nat
  deriving DecidableEq, Repr

namespace Token

def escapeChar : Char → List Char
  | '\n' => ['\\', 'n']
  | '\t' => ['\\', 't']
  | '\r' => ['\\', 'r']
  | '\x00' => ['\\', '0']
  | '"' => ['\\', '"']
  | '\'' => ['\\', '\'']
  | '\\' => ['\\', '\\']
  | c => [c]

def escape (cs : List Char) : List Char :=
  cs.flatMap escapeChar

def escaped : Char → Char
  | 'n' => '\n'
  | 't' => '\t'
  | 'r' => '\r'
  | '0' => '\x00'
  | c => c

def unescape : List Char → List Char
  | '\\' :: c :: cs => escaped c :: unescape cs
  | c :: cs => c :: unescape cs
  | [] => []

def isIdentifier (t : Token) : Bool :=
  t.kind = .identifier

def isWord (t : Token) (word : String) : Bool :=
  t.kind = .identifier ∧ t.text = word

def isOperator (t : Token) (symbol : String) : Bool :=
  t.kind = .operator ∧ t.text = symbol

def isPunct (t : Token) (c : Char) : Bool :=
  t.kind = .punctuation ∧ t.text = String.singleton c

def isInteger (t : Token) : Bool :=
  t.kind = .int ∨ t.kind = .short ∨ t.kind = .long

def isLiteral (t : Token) : Bool :=
  t.isInteger ∨ t.kind = .string ∨ t.kind = .char ∨ t.kind = .float ∨ t.kind = .double

def spelling (t : Token) : String :=
  match t.kind with
  | .string => "\"" ++ String.ofList (escape t.text.toList) ++ "\""
  | .char => "'" ++ String.ofList (escape t.text.toList) ++ "'"
  | .long => t.text ++ "l"
  | .short => t.text ++ "s"
  | .float => t.text ++ "f"
  | _ => t.text

end Token

end ClassForge
