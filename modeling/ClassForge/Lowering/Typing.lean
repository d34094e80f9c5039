import ClassForge.Lowering.Lookup
import ClassForge.Text.Decimal

set_option autoImplicit false

namespace ClassForge

namespace Token

def literalType (negated : Bool) (t : Token) : Except Cause Descriptor :=
  match t.kind with
  | .int => .ok .int
  | .short => .ok .short
  | .long => .ok .long
  | .float => .ok .float
  | .double => .ok .double
  | kind =>
    if negated then .error (.lowering (.negatedLiteral t.spelling))
    else if kind = .string then .ok .string
    else if kind = .char then .ok .char
    else if t.isWord "true" ∨ t.isWord "false" then .ok .boolean
    else if t.isWord "null" then .ok .null
    else .error (.lowering (.unexpectedLiteral t.spelling))

def integerValue (negated : Bool) (t : Token) : Except Cause Int :=
  let value := Text.ofDigits t.text.toList
  if value < Nat.pow 2 127 then .ok (if negated then -(value : Int) else value)
  else .error (.lowering (.literalTooLarge t.spelling))

end Token

def Expr.intConstant? : Expr → Option Int
  | .operand (.atom (.literal t) unary) _ =>
    if t.kind = .int ∨ t.kind = .short then
      match unary with
      | none => (t.integerValue false).toOption
      | some .neg => (t.integerValue true).toOption
      | some _ => none
    else none
  | _ => none

namespace Descriptor

def holds (d : Descriptor) (value : Int) : Bool :=
  if d = byte then -128 ≤ value ∧ value ≤ 127
  else if d = short then -32768 ≤ value ∧ value ≤ 32767
  else if d = char then 0 ≤ value ∧ value ≤ 65535
  else false

def isIntegral (d : Descriptor) : Bool :=
  d.isIntFamily || d = long

def unaryResult (op : UnaryOp) (d : Descriptor) : Except Cause Descriptor :=
  let result? := match op with
    | .neg => d.promote? d
    | .not => if d = boolean then some boolean else none
    | .bitNot => if d.isIntegral then d.promote? d else none
  match result? with
  | some result => .ok result
  | none => .error (.lowering (.badOperand d.display op.symbol))

def isComparable (left right : Descriptor) : Bool :=
  (left.isNumeric && right.isNumeric) || (left = boolean && right = boolean) ||
    (left.isReferenceOrNull && right.isReferenceOrNull)

def binaryResult? (op : BinaryOp) (left right : Descriptor) : Option Descriptor :=
  match op with
  | .and | .or => if left = boolean ∧ right = boolean then some boolean else none
  | .eq | .ne => if left.isComparable right then some boolean else none
  | .lt | .le | .gt | .ge => if left.isNumeric && right.isNumeric then some boolean else none
  | .add =>
    if (left = string ∨ right = string) ∧ left ≠ void ∧ right ≠ void then some string
    else left.promote? right
  | .sub | .mul | .div | .rem => left.promote? right
  | .bitAnd | .bitOr | .bitXor =>
    if left = boolean ∧ right = boolean then some boolean
    else if left.isIntegral && right.isIntegral then left.promote? right
    else none
  | .shl | .shr | .ushr => if left.isIntegral && right.isIntegral then left.promote? left else none

def binaryResult (op : BinaryOp) (left right : Descriptor) : Except Cause Descriptor :=
  match binaryResult? op left right with
  | some result => .ok result
  | none => .error (.lowering (.badOperands op.symbol left.display right.display))

def literalArray (first : Descriptor) : Except Cause Descriptor :=
  if first = void then .error (.lowering .voidElements)
  else if first = null then .ok object.arrayOf
  else .ok first.arrayOf

end Descriptor

def expectedArray? (expected : Option Descriptor) : Option Descriptor :=
  expected.filter (fun d => d.element?.isSome)

mutual

-- What an expression leaves on the stack. The expected type matters for array literals only.
def Expr.typeIn (ctx : Context) (expected : Option Descriptor) : Expr → Except Cause Descriptor
  | .operand arg _ => arg.typeIn ctx expected
  | .binary op left right _ => do
    let l ← left.typeIn ctx none
    let r ← right.typeIn ctx none
    Descriptor.binaryResult op l r

def Operand.typeIn (ctx : Context) (expected : Option Descriptor) : Operand → Except Cause Descriptor
  | .atom value unary =>
    match value, unary with
    | .literal t, some .neg => t.literalType true
    | value, unary => do
      let d ← value.typeIn ctx expected
      match unary with
      | some op => d.unaryResult op
      | none => return d
  | .cast target _ => ctx.scope.descriptor target
  | .array elements =>
    match expectedArray? expected, elements with
    | some d, _ => .ok d
    | none, [] => .error (.lowering .emptyArray)
    | none, first :: _ => do Descriptor.literalArray (← first.typeIn ctx none)
  | .create className _ => do return .ofClass (← ctx.scope.internalName (.plain className))

def Atom.typeIn (ctx : Context) (expected : Option Descriptor) : Atom → Except Cause Descriptor
  | .literal t => t.literalType false
  | .nested inner => inner.typeIn ctx expected
  | .load head calls => do
    let base ← ctx.resolveHead head
    match calls with
    | [] =>
      match base with
      | some (.value place) => return ctx.descriptorOf place
      | _ => throw (.lowering (.notAValue head.text))
    | calls =>
      let methods ← Call.methodsIn ctx base none calls
      return (methods.getLast?.map (·.returns)).getD .void

def Expr.typesIn (ctx : Context) : List Expr → Except Cause (List Descriptor)
  | [] => .ok []
  | tree :: rest => do
    let d ← tree.typeIn ctx none
    let ds ← Expr.typesIn ctx rest
    return d :: ds

-- The methods that a chain of calls reaches; each but the first is looked up in the type of the result before
-- it.
def Call.methodsIn (ctx : Context) (base : Option Referent) (previous : Option Descriptor) :
    List Call → Except Cause (List MethodTarget)
  | [] => .ok []
  | .call name arguments :: rest => do
    let types ← Expr.typesIn ctx arguments
    let m ← match previous with
      | none => ctx.firstMethod base name types
      | some d => ctx.nextMethod d name types
    let ms ← Call.methodsIn ctx base (some m.returns) rest
    return m :: ms

end

end ClassForge
