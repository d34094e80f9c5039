import ClassForge.Lowering.Typing

set_option autoImplicit false

namespace ClassForge

/-- Code of an expression, for each use that can be made of it. -/
structure ExprCode where
  value : (expected : Option Descriptor) → Gen Descriptor
  jump : Bool → Label → Gen Unit
  append : Gen Unit

namespace Gen

def op (opcode : Opcode) : Gen Unit :=
  emit (.op opcode)

def ops (opcodes : List Opcode) : Gen Unit :=
  opcodes.forM op

def popValue (d : Descriptor) : Gen Unit :=
  match d.width with
  | 0 => return
  | 1 => op .pop
  | _ => op .pop2

def pushInt (value : Int) : Gen Unit := do
  if ← emit (.smallInt value) then return
  let index ← pooled (.add (.integer (Int32.ofInt value)))
  emit (.constant index 1)

def invokeMethod (opcode : Opcode) (owner name : String) (params : List Descriptor)
    (returns : Descriptor) : Gen Unit := do
  let index ← pooled (.methodRef owner name (MethodDescriptor.of params returns).text)
  emit (.invoke opcode index (Descriptor.totalWidth params) returns.width)

def coerce (program : Program) (found expected : Descriptor) : Gen Unit :=
  match program.coercion? found expected with
  | some (.convert opcodes) => ops opcodes
  | some (.checkCast target) => do
    let index ← pooled (.classRef target)
    emit (.opWord .checkcast index)
  | none => throw (.typeMismatch expected.display found.display)

def widen (source target : Descriptor) : Gen Unit :=
  match source.widening? target with
  | some opcodes => ops opcodes
  | none => throw (.typeMismatch target.display source.display)

def test (value : Option Descriptor → Gen Descriptor) (expected : Bool) (target : Label) : Gen Unit := do
  let d ← value none
  if d ≠ .boolean then throw (.typeMismatch Primitive.boolean.keyword d.display)
  emit (.jump (if expected then .ifne else .ifeq) target)

def condition (jump : Bool → Label → Gen Unit) : Gen Descriptor := do
  let otherwise ← emit .newLabel
  let done ← emit .newLabel
  jump false otherwise
  op .iconst1
  emit (.jump .goto done)
  emit (.place otherwise)
  op .iconst0
  emit (.place done)
  return .boolean

def builder : String :=
  "java/lang/StringBuilder"

def appendType (d : Descriptor) : Except Cause Descriptor :=
  if d = .void then .error (.lowering .voidConcatenated)
  else if d ∈ [.boolean, .char, .long, .float, .double, .string] then .ok d
  else if d.isIntFamily then .ok .int
  else .ok .object

def appendValue (value : Option Descriptor → Gen Descriptor) : Gen Unit := do
  let d ← value none
  let argument ← check (appendType d)
  invokeMethod .invokevirtual builder "append" [argument] (.ofClass builder)

def concatenate (parts : Gen Unit) : Gen Descriptor := do
  let index ← pooled (.classRef builder)
  emit (.opWord .new index)
  op .dup
  invokeMethod .invokespecial builder constructorName [] .void
  parts
  invokeMethod .invokevirtual builder "toString" [] .string
  return .string

def unary (operator : UnaryOp) (d : Descriptor) : Gen Descriptor := do
  let result ← check (d.unaryResult operator)
  match operator with
  | .neg => op (Opcode.ineg.ofFamily result.kind)
  | .not => ops [.iconst1, .ixor]
  | .bitNot =>
    if result = .long then
      let index ← pooled (.add (.long (-1)))
      emit (.constant index 2)
      op .lxor
    else ops [.iconst0 - 1, .ixor]
  return result

def integerLiteral (negated : Bool) (t : Token) (type : Descriptor) (bits : Nat) : Gen Int := do
  let value ← check (t.integerValue negated)
  if -(Nat.pow 2 (bits - 1) : Int) ≤ value ∧ value < Nat.pow 2 (bits - 1) then return value
  throw (.lowering (.literalRange ((if negated then "-" else "") ++ t.spelling) type.display))

def floatLiteral (format : Text.FloatFormat) (negated : Bool) (t : Token) : Nat :=
  format.ofDecimal t.text.toList + if negated then format.sign else 0

def longConstant (value : Int) : Gen Unit := do
  if value = 0 then op .lconst0
  else if value = 1 then op .lconst1
  else
    let index ← pooled (.add (.long (Int64.ofInt value)))
    emit (.constant index 2)

def shortConstant? (format : Text.FloatFormat) (count bits : Nat) : Option Nat :=
  (List.range count).find? (fun n => format.nearest n 1 = bits)

def floatConstant (bits : Nat) : Gen Unit := do
  match shortConstant? .single 3 bits with
  | some n => op (.fconst0 + UInt8.ofNat n)
  | none =>
    let index ← pooled (.add (.float (UInt32.ofNat bits)))
    emit (.constant index 1)

def doubleConstant (bits : Nat) : Gen Unit := do
  match shortConstant? .double 2 bits with
  | some n => op (.dconst0 + UInt8.ofNat n)
  | none =>
    let index ← pooled (.add (.double (UInt64.ofNat bits)))
    emit (.constant index 2)

def charLiteral (t : Token) : Gen Unit := do
  let code := (t.text.toList.head?.map Char.toNat).getD 0
  if code > 65535 then
    throw (.lowering (.literalRange t.spelling Descriptor.char.display))
  pushInt code

def literal (negated : Bool) (t : Token) : Gen Descriptor := do
  let type ← check (t.literalType negated)
  match t.kind with
  | .long => longConstant (← integerLiteral negated t type 64)
  | .short => pushInt (← integerLiteral negated t type 16)
  | .int => pushInt (← integerLiteral negated t type 32)
  | .float => floatConstant (floatLiteral .single negated t)
  | .double => doubleConstant (floatLiteral .double negated t)
  | .string =>
    let index ← pooled (.string t.text)
    emit (.constant index 1)
  | .char => charLiteral t
  | _ =>
    if t.isWord "true" then op .iconst1
    else if t.isWord "false" then op .iconst0
    else op .aconstNull
  return type

def place : Place → Gen Unit
  | .this => emit (.load .reference 0)
  | .variable _ slot descriptor _ => emit (.load descriptor.kind slot)
  | .staticField field => access .getstatic field
  | .field receiver field => do
    place receiver
    access .getfield field
  | .length array => do
    place array
    op .arraylength
where
  access (opcode : Opcode) (field : FieldTarget) : Gen Unit := do
    let index ← pooled (.fieldRef field.owner field.name field.descriptor.text)
    emit (.field opcode index field.descriptor.width)

def invoke (m : MethodTarget) : Gen Unit := do
  let index ← pooled (
    if m.onInterface then .interfaceMethodRef m.owner m.name m.descriptor.text
    else .methodRef m.owner m.name m.descriptor.text)
  emit (.invoke m.invokeOpcode index (Descriptor.totalWidth m.params) m.returns.width)

end Gen

abbrev ArgCode := Descriptor → Gen Unit

namespace ArgCode

def all (codes : List ArgCode) (params : List Descriptor) : Gen Unit :=
  (codes.zip params).forM (fun (code, param) => code param)

end ArgCode

namespace BinaryOp

def conditionOffset : BinaryOp → UInt8
  | .eq => 0
  | .ne => 1
  | .lt => 2
  | .ge => 3
  | .gt => 4
  | _ => 5

def negate : BinaryOp → BinaryOp
  | .eq => .ne
  | .ne => .eq
  | .lt => .ge
  | .ge => .lt
  | .gt => .le
  | .le => .gt
  | op => op

def opcode : BinaryOp → Opcode
  | .add => .iadd
  | .sub => .isub
  | .mul => .imul
  | .div => .idiv
  | .rem => .irem
  | .bitAnd => .iand
  | .bitOr => .ior
  | .bitXor => .ixor
  | .shl => .ishl
  | .shr => .ishr
  | _ => .iushr

def isShift : BinaryOp → Bool
  | .shl | .shr | .ushr => true
  | _ => false

-- The instruction that compares two numbers wider than an int. A comparison with a number that is none must
-- fail, so less-than counts it as greater and the others count it as less.
def compareOpcode (op : BinaryOp) (kind : Kind) : Opcode :=
  let below := op = .lt || op = .le
  match kind with
  | .long => .lcmp
  | .float => if below then .fcmpg else .fcmpl
  | _ => if below then .dcmpg else .dcmpl

end BinaryOp

namespace ExprCode

def ofValue (value : Option Descriptor → Gen Descriptor) : ExprCode :=
  { value, jump := Gen.test value, append := Gen.appendValue value }

-- Code of an expression in parentheses. As a part of a longer string it is a string of its own.
def parenthesized (inner : ExprCode) : ExprCode :=
  { inner with append := Gen.appendValue inner.value }

def compareNumbers (op condition : BinaryOp) (left right : ExprCode) (l r type : Descriptor)
    (target : Label) : Gen Unit := do
  let _ ← left.value none
  Gen.widen l type
  let _ ← right.value none
  Gen.widen r type
  if type.kind = .int then
    Gen.emit (.jump (.ifIcmpeq + condition.conditionOffset) target)
  else
    Gen.op (op.compareOpcode type.kind)
    Gen.emit (.jump (.ifeq + condition.conditionOffset) target)

def compareReferences (isEqual : Bool) (left right : ExprCode) (l r : Descriptor) (target : Label) :
    Gen Unit := do
  if r = .null ∨ l = .null then
    let _ ← (if r = .null then left else right).value none
    Gen.emit (.jump (if isEqual then .ifnull else .ifnonnull) target)
  else
    let _ ← left.value none
    let _ ← right.value none
    Gen.emit (.jump (if isEqual then .ifAcmpeq else .ifAcmpne) target)

def compare (ctx : Context) (op : BinaryOp) (leftTree rightTree : Expr) (left right : ExprCode)
    (expected : Bool) (target : Label) : Gen Unit := do
  let l ← Gen.check (leftTree.typeIn ctx none)
  let r ← Gen.check (rightTree.typeIn ctx none)
  let _ ← Gen.check (Descriptor.binaryResult op l r)
  let condition := if expected then op else op.negate
  match l.promote? r with
  | some type =>
    if type = .int ∧ rightTree.intConstant? = some 0 then
      let _ ← left.value none
      Gen.emit (.jump (.ifeq + condition.conditionOffset) target)
    else compareNumbers op condition left right l r type target
  | none =>
    if l = .boolean then
      let _ ← left.value none
      let _ ← right.value none
      Gen.emit (.jump (.ifIcmpeq + condition.conditionOffset) target)
    else compareReferences (condition = .eq) left right l r target

def arithmetic (ctx : Context) (op : BinaryOp) (leftTree rightTree : Expr) (left right : ExprCode) :
    Gen Descriptor := do
  let l ← Gen.check (leftTree.typeIn ctx none)
  let r ← Gen.check (rightTree.typeIn ctx none)
  let type ← Gen.check (Descriptor.binaryResult op l r)
  if type = .string then
    Gen.concatenate (do left.append; right.append)
  else
    let _ ← left.value none
    Gen.widen l type
    let _ ← right.value none
    if op.isShift then
      if r = .long then Gen.op .l2i
    else Gen.widen r type
    Gen.op (op.opcode.ofFamily type.kind)
    return type

def conjunction (left right : ExprCode) (expected : Bool) (target : Label) : Gen Unit := do
  if expected then
    let skip ← Gen.emit .newLabel
    left.jump false skip
    right.jump true target
    Gen.emit (.place skip)
  else
    left.jump false target
    right.jump false target

def disjunction (left right : ExprCode) (expected : Bool) (target : Label) : Gen Unit := do
  if expected then
    left.jump true target
    right.jump true target
  else
    let skip ← Gen.emit .newLabel
    left.jump true skip
    right.jump false target
    Gen.emit (.place skip)

def binary (ctx : Context) (op : BinaryOp) (leftTree rightTree : Expr) (left right : ExprCode) :
    ExprCode :=
  if op = .and then ofJump (conjunction left right)
  else if op = .or then ofJump (disjunction left right)
  else if op.isComparison then ofJump (compare ctx op leftTree rightTree left right)
  else
    let value : Option Descriptor → Gen Descriptor :=
      fun _ => arithmetic ctx op leftTree rightTree left right
    { ofValue value with
      append := do
        let l ← Gen.check (leftTree.typeIn ctx none)
        let r ← Gen.check (rightTree.typeIn ctx none)
        let type ← Gen.check (Descriptor.binaryResult op l r)
        if type = .string then
          left.append
          right.append
        else Gen.appendValue value }
where
  ofJump (jump : Bool → Label → Gen Unit) : ExprCode :=
    let value : Option Descriptor → Gen Descriptor := fun _ => Gen.condition jump
    { value, jump, append := Gen.appendValue value }

def literal (t : Token) : ExprCode :=
  let value : Option Descriptor → Gen Descriptor := fun _ => Gen.literal false t
  if t.isWord "true" ∨ t.isWord "false" then
    { ofValue value with
      jump := fun expected target =>
        if t.isWord "true" = expected then Gen.emit (.jump .goto target) else return }
  else ofValue value

def underUnary (atom : Atom) (operator : UnaryOp) (inner : ExprCode) : ExprCode :=
  let value : Option Descriptor → Gen Descriptor := fun expected =>
    match atom, operator with
    | .literal t, .neg => Gen.literal true t
    | _, _ => do Gen.unary operator (← inner.value expected)
  match operator with
  | .not => { ofValue value with jump := fun expected target => inner.jump (!expected) target }
  | _ => ofValue value

def cast (ctx : Context) (target : TypeName) (inner : ExprCode) : ExprCode :=
  ofValue fun _ => do
    let d ← Gen.check (ctx.scope.descriptor target)
    let found ← inner.value none
    if ¬ d.isReference then
      match found.primitiveCast? d with
      | some opcodes => Gen.ops opcodes
      | none => throw (.lowering (.badCast found.display d.display))
    else if found.isReference then
      match ctx.program.coercion? found d with
      | some (.convert _) => pure ()
      | _ =>
        let index ← Gen.pooled (.classRef (d.className?.getD d.text))
        Gen.emit (.opWord .checkcast index)
    else if found ≠ .null then throw (.lowering (.badCast found.display d.display))
    return d

def elements (type : Descriptor) (position : Nat) : List ArgCode → Gen Unit
  | [] => return
  | code :: rest => do
    Gen.op .dup
    Gen.pushInt position
    code type
    Gen.op type.arrayStore
    elements type (position + 1) rest

def array (type : Option Descriptor → Except Cause Descriptor) (codes : List ArgCode) : ExprCode :=
  ofValue fun expected => do
    let d ← Gen.check (type expected)
    let element := d.element?.getD d
    Gen.pushInt codes.length
    match element.newArrayCode? with
    | some code => Gen.emit (.opByte .newarray code)
    | none =>
      let index ← Gen.pooled (.classRef (element.className?.getD element.text))
      Gen.emit (.opWord .anewarray index)
    elements element 0 codes
    return d

def create (ctx : Context) (className : String) (arguments : List Expr) (codes : List ArgCode) :
    ExprCode :=
  ofValue fun _ => do
    let d ← Gen.check (ctx.scope.descriptor (.plain className))
    match d.className? with
    | none => throw (.lowering (.notInstantiable className))
    | some owner =>
      let types ← Gen.check (Expr.typesIn ctx arguments)
      let params ← Gen.check (ctx.program.constructorFor owner types true)
      let index ← Gen.pooled (.classRef owner)
      Gen.emit (.opWord .new index)
      Gen.op .dup
      ArgCode.all codes params
      Gen.invokeMethod .invokespecial owner constructorName params .void
      return .ofClass owner

def receiver (base : Option Referent) (m : MethodTarget) : Gen Unit :=
  if m.isStatic then return
  else match base with
    | none => Gen.place .this
    | some (.value place) => Gen.place place
    | some (.type _) => return

def laterCalls : List (List ArgCode × MethodTarget) → Gen Unit
  | [] => return
  | (codes, m) :: rest => do
    if m.isStatic then Gen.op .pop
    ArgCode.all codes m.params
    Gen.invoke m
    laterCalls rest

def calls (base : Option Referent) : List (List ArgCode × MethodTarget) → Gen Unit
  | [] => return
  | (codes, m) :: rest => do
    receiver base m
    ArgCode.all codes m.params
    Gen.invoke m
    laterCalls rest

def load (ctx : Context) (head : Head) (links : List Call) (codes : List (List ArgCode)) : ExprCode :=
  ofValue fun _ => do
    let base ← Gen.check (ctx.resolveHead head)
    match links with
    | [] =>
      match base with
      | some (.value place) =>
        Gen.place place
        return ctx.descriptorOf place
      | _ => throw (.lowering (.notAValue head.text))
    | links =>
      let methods ← Gen.check (Call.methodsIn ctx base none links)
      calls base (codes.zip methods)
      return (methods.getLast?.map (·.returns)).getD .void

-- The value of an expression as one of the expected type. Int constants that fit a smaller type are taken as
-- such.
def valueAs (program : Program) (tree : Expr) (code : ExprCode) (expected : Descriptor) : Gen Unit :=
  match tree.intConstant?.filter expected.holds with
  | some value => Gen.pushInt value
  | none => do
    let found ← code.value (some expected)
    Gen.coerce program found expected

end ExprCode

mutual

def Expr.code (ctx : Context) : Expr → ExprCode
  | .operand arg _ => arg.code ctx
  | .binary op left right _ => .binary ctx op left right (left.code ctx) (right.code ctx)

def Operand.code (ctx : Context) : Operand → ExprCode
  | .atom value none => value.code ctx
  | .atom value (some operator) => .underUnary value operator (value.code ctx)
  | .cast target inner => .cast ctx target (inner.code ctx)
  | .array elements =>
    .array (fun expected => Operand.typeIn ctx expected (.array elements)) (Expr.argCodes ctx elements)
  | .create className arguments => .create ctx className arguments (Expr.argCodes ctx arguments)

def Atom.code (ctx : Context) : Atom → ExprCode
  | .literal t => .literal t
  | .nested inner => (inner.code ctx).parenthesized
  | .load head links => .load ctx head links (Call.argCodes ctx links)

def Expr.argCodes (ctx : Context) : List Expr → List ArgCode
  | [] => []
  | tree :: rest => ExprCode.valueAs ctx.program tree (tree.code ctx) :: Expr.argCodes ctx rest

def Call.argCodes (ctx : Context) : List Call → List (List ArgCode)
  | [] => []
  | .call _ arguments :: rest => Expr.argCodes ctx arguments :: Call.argCodes ctx rest

end

def Expr.codeAs (ctx : Context) (tree : Expr) (expected : Descriptor) : Gen Unit :=
  ExprCode.valueAs ctx.program tree (tree.code ctx) expected

end ClassForge
