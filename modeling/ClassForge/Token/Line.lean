import ClassForge.Token.Scan

set_option autoImplicit false

namespace ClassForge

open Text (SourcePath)

structure TokenLine where
  number : Nat
  tokens : List Token
  deriving DecidableEq, Repr

namespace TokenLine

def isClosingBrace (line : TokenLine) : Bool :=
  match line.tokens with
  | [t] => t.isPunct '}'
  | _ => false

def text (line : TokenLine) : String :=
  " ".intercalate (line.tokens.map Token.spelling)

def ofLines (path : SourcePath) (done : List TokenLine) (number : Nat) :
    List (List Char) → Except CompileError (List TokenLine)
  | [] => .ok done.reverse
  | cs :: rest =>
    match Token.tokenize cs with
    | .error error => .error { cause := .lexical error, location := some { path, line := number } }
    | .ok [] => ofLines path done (number + 1) rest
    | .ok tokens => ofLines path ({ number, tokens } :: done) (number + 1) rest

def ofSource (path : SourcePath) (source : String) : Except CompileError (List TokenLine) :=
  ofLines path [] 1 (Text.lines source)

end TokenLine

end ClassForge
