import ClassForge.Token.Basic
import ClassForge.TypeName

set_option autoImplicit false

namespace ClassForge

inductive BinaryOp where
  | or
  | and
  | bitOr
  | bitXor
  | bitAnd
  | eq
  | ne
  | lt
  | le
  | gt
  | ge
  | shl
  | shr
  | ushr
  | add
  | sub
  | mul
  | div
  | rem
  deriving DecidableEq, Repr

namespace BinaryOp

def all : List BinaryOp :=
  [.or, .and, .bitOr, .bitXor, .bitAnd, .eq, .ne, .lt, .le, .gt, .ge, .shl, .shr, .ushr, .add,
    .sub, .mul, .div, .rem]

def symbol : BinaryOp → String
  | .or => "||"
  | .and => "&&"
  | .bitOr => "|"
  | .bitXor => "^"
  | .bitAnd => "&"
  | .eq => "=="
  | .ne => "!="
  | .lt => "<"
  | .le => "<="
  | .gt => ">"
  | .ge => ">="
  | .shl => "<<"
  | .shr => ">>"
  | .ushr => ">>>"
  | .add => "+"
  | .sub => "-"
  | .mul => "*"
  | .div => "/"
  | .rem => "%"

def ofSymbol? (symbol : String) : Option BinaryOp :=
  all.find? (·.symbol = symbol)

def precedence : BinaryOp → Nat
  | .or => 1
  | .and => 2
  | .bitOr => 3
  | .bitXor => 4
  | .bitAnd => 5
  | .eq | .ne => 6
  | .lt | .le | .gt | .ge => 7
  | .shl | .shr | .ushr => 8
  | .add | .sub => 9
  | .mul | .div | .rem => 10

def isComparison : BinaryOp → Bool
  | .eq | .ne | .lt | .le | .gt | .ge => true
  | _ => false

end BinaryOp

inductive UnaryOp where
  | neg
  | not
  | bitNot
  deriving DecidableEq, Repr

namespace UnaryOp

def symbol : UnaryOp → String
  | .neg => "-"
  | .not => "!"
  | .bitNot => "~"

def ofSymbol? (symbol : String) : Option UnaryOp :=
  [neg, not, bitNot].find? (·.symbol = symbol)

end UnaryOp

inductive Head where
  -- Nothing: a call on the current declaration.
  | implicit
  | self
  | named (id : String)
  | member (owner id : String)
  deriving DecidableEq, Repr

def Head.parts : Head → List String
  | .implicit => []
  | .self => ["this"]
  | .named id => [id]
  | .member owner id => [owner, id]

def Head.text (head : Head) : String :=
  ".".intercalate head.parts

mutual

/-- An expression tree. Parentheses of the source are kept on the node they enclose, and a
parenthesised node is never taken apart. -/
inductive Expr where
  | operand (arg : Operand) (grouped : Bool)
  | binary (op : BinaryOp) (left right : Expr) (grouped : Bool)

inductive Operand where
  | atom (value : Atom) (unary : Option UnaryOp)
  | cast (target : TypeName) (inner : Expr)
  | array (elements : List Expr)
  | create (className : String) (arguments : List Expr)

inductive Atom where
  -- A literal token; `true`, `false` and `null` are identifiers.
  | literal (token : Token)
  -- A name or field, then the calls made on it from first to last.
  | load (head : Head) (calls : List Call)
  | nested (inner : Expr)

inductive Call where
  | call (name : String) (arguments : List Expr)

end

namespace Expr

def leaf (arg : Operand) : Expr :=
  .operand arg false

def literal (token : Token) : Expr :=
  leaf (.atom (.literal token) none)

def group : Expr → Expr
  | .operand arg _ => .operand arg true
  | .binary op left right _ => .binary op left right true

def operand? : Expr → Option Operand
  | .operand arg _ => some arg
  | .binary .. => none

def joinRight (tree : Expr) (op : BinaryOp) (right : Expr) : Expr :=
  .binary op tree right false

-- Appends an operator and its right operand to a tree read from left to right: an operator that binds tighter
-- than the root goes down into the right side.
def push : Expr → BinaryOp → Expr → Expr
  | .operand arg grouped, op, rhs => joinRight (.operand arg grouped) op rhs
  | .binary own left right true, op, rhs => joinRight (.binary own left right true) op rhs
  | .binary own left right false, op, rhs =>
    if own.precedence < op.precedence then .binary own left (right.push op rhs) false
    else joinRight (.binary own left right false) op rhs

-- Appends an operator below the root whatever their strengths; a leaf or a group has nothing below its root to
-- take it.
def pushBelow : Expr → BinaryOp → Expr → Expr
  | .binary own left right false, op, rhs => .binary own left (right.push op rhs) false
  | tree, op, rhs => joinRight tree op rhs

def applyUnary (op : UnaryOp) : Expr → Expr
  | .operand (.atom value none) false => leaf (.atom value (some op))
  | tree => leaf (.atom (.nested tree) (some op))

end Expr

mutual

-- Text form: brackets show how operators bind, parentheses those of the source.
def Expr.text : Expr → String
  | .operand arg false => arg.text
  | .operand arg true => "(" ++ arg.text ++ ")"
  | .binary op left right false => "[" ++ left.text ++ " " ++ op.symbol ++ " " ++ right.text ++ "]"
  | .binary op left right true => "(" ++ left.text ++ " " ++ op.symbol ++ " " ++ right.text ++ ")"

def Operand.text : Operand → String
  | .atom value none => value.text
  | .atom value (some op) => op.symbol ++ value.text
  | .cast target inner => "(" ++ target.spelling ++ ") " ++ inner.text
  | .array elements => "[" ++ ", ".intercalate (Expr.texts elements) ++ "]"
  | .create className arguments =>
    "new " ++ className ++ "(" ++ ", ".intercalate (Expr.texts arguments) ++ ")"

def Atom.text : Atom → String
  | .literal token => token.spelling
  | .load head calls => ".".intercalate (head.parts ++ Call.texts calls)
  | .nested inner => "(" ++ inner.text ++ ")"

def Call.text : Call → String
  | .call name arguments => name ++ "(" ++ ", ".intercalate (Expr.texts arguments) ++ ")"

def Expr.texts : List Expr → List String
  | [] => []
  | tree :: rest => tree.text :: Expr.texts rest

def Call.texts : List Call → List String
  | [] => []
  | call :: rest => call.text :: Call.texts rest

end

end ClassForge
