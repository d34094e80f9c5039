import ClassForge.Text.SourcePath
import ClassForge.Token.Basic

set_option autoImplicit false

namespace ClassForge

open Text (SourcePath)

inductive LexError where
  | unterminated (text : String)
  deriving DecidableEq, Repr

def LexError.message : LexError → String
  | .unterminated text => "unterminated string literal " ++ text

inductive SyntaxError where
  | expected (what : String) (found : Option Token)
  | trailing (found : Token)
  | afterExpression (found : Token)
  | inExpression (found : Token)
  | unexpectedOperator (symbol : String)
  | fieldAccess (name : String)
  | missingBrace
  | unbalancedBrace
  | missingCondition
  | duplicateLabel (label : Int)
  | duplicateDefault
  | labelRange (digits : String)
  | finalWithoutDeclaration
  | assignmentTarget
  | notStatement (shown : String)
  | repeatedAccess (word : String)
  | repeatedFlag (word : String)
  | bodyRequired (method : String)
  | bodyForbidden (reason method : String)
  | bodyTooLong
  | interfaceField
  | interfaceConstructor
  | interfaceBody (method : String)
  | nestedTwice
  | genericField (field : String)
  | voidField (field : String)
  deriving DecidableEq, Repr

def quoted (text : String) : String :=
  "'" ++ text ++ "'"

def SyntaxError.message : SyntaxError → String
  | .expected what (some t) => "expected " ++ what ++ ", found " ++ quoted t.spelling
  | .expected what none => "expected " ++ what ++ ", found end of line"
  | .trailing t => "unexpected token " ++ quoted t.spelling ++ ", expected end of line"
  | .afterExpression t => "unexpected token " ++ quoted t.spelling ++ " after expression"
  | .inExpression t => "unexpected token " ++ quoted t.spelling ++ " in expression"
  | .unexpectedOperator symbol => "unexpected operator " ++ quoted symbol
  | .fieldAccess name => "unsupported field access '." ++ name ++ "'"
  | .missingBrace => "expected '\x7d'"
  | .unbalancedBrace => "unbalanced '\x7d'"
  | .missingCondition => "expected condition followed by '\x7b'"
  | .duplicateLabel label => "duplicate case label " ++ toString label
  | .duplicateDefault => "duplicate default branch"
  | .labelRange digits => "case label " ++ quoted digits ++ " out of range"
  | .finalWithoutDeclaration => "expected variable declaration after 'final'"
  | .assignmentTarget => "invalid assignment target"
  | .notStatement shown => "not a statement: " ++ shown
  | .repeatedAccess word => "repeated access modifier " ++ quoted word
  | .repeatedFlag word => "repeated modifier " ++ quoted word
  | .bodyRequired method => "method " ++ quoted method ++ " requires a body"
  | .bodyForbidden reason method => reason ++ " method " ++ quoted method ++ " cannot have a body"
  | .bodyTooLong => "method body too long"
  | .interfaceField => "interfaces cannot declare fields"
  | .interfaceConstructor => "interfaces cannot declare constructors"
  | .interfaceBody method => "interface method " ++ quoted method ++ " cannot have a body"
  | .nestedTwice => "declarations nest only one level deep"
  | .genericField field => "field " ++ quoted field ++ " cannot declare generic parameters"
  | .voidField field => "field " ++ quoted field ++ " cannot have type void"

inductive Entity where
  | use
  | declaration
  | typeParameter
  | parameter
  | field
  | method
  | constructor
  | variable
  deriving DecidableEq, Repr

def Entity.text : Entity → String
  | .use => "use"
  | .declaration => "declaration"
  | .typeParameter => "generic parameter"
  | .parameter => "parameter"
  | .field => "field"
  | .method => "method"
  | .constructor => "constructor"
  | .variable => "variable"

inductive ReviewError where
  | abstractAndFinal (className : String)
  | abstractMethod (className method : String)
  | cannotExtend (className target reason : String)
  | notAnInterface (owner target : String)
  | illegalBound (parameter bound : String)
  | voidType (what name : String)
  deriving DecidableEq, Repr

def ReviewError.message : ReviewError → String
  | .abstractAndFinal className => "class " ++ quoted className ++ " cannot be both abstract and final"
  | .abstractMethod className method =>
    "class " ++ quoted className ++ " must be abstract to declare abstract method " ++ quoted method
  | .cannotExtend className target reason =>
    quoted className ++ " cannot extend " ++ quoted target ++ ": " ++ reason
  | .notAnInterface owner target => quoted target ++ " in " ++ quoted owner ++ " is not an interface"
  | .illegalBound parameter bound =>
    "bound " ++ quoted bound ++ " of generic parameter " ++ quoted parameter ++
      " must be a class or interface"
  | .voidType what name => what ++ " " ++ quoted name ++ " cannot have type void"

inductive LoweringError where
  | noBody (method : String)
  | missingReturn
  | noConstructors (declaration : String)
  | malformedDescriptor (descriptor : String)
  | voidConcatenated
  | negatedLiteral (shown : String)
  | unexpectedLiteral (shown : String)
  | literalTooLarge (shown : String)
  | literalRange (shown type : String)
  | badOperand (type symbol : String)
  | badOperands (symbol left right : String)
  | staticContext (what name : String)
  | unreachable
  | missingReturnValue
  | voidReturnsValue
  | voidVariable (name : String)
  | notAssignable (shown : String)
  | finalAssigned (name : String)
  | emptyArray
  | voidElements
  | notAValue (shown : String)
  | unknownSymbol (name : String)
  | unknownMember (name owner : String)
  | noMembers (name type : String)
  | privateAccess (name owner : String)
  | noCalls (name type : String)
  | unknownMethod (name : String) (arguments : List String) (owner : String)
  | badCast (source target : String)
  | abstractInstance (className : String)
  | notInstantiable (name : String)
  | noConstructor (name : String) (arguments : List String)
  deriving DecidableEq, Repr

def LoweringError.message : LoweringError → String
  | .noBody method => "method " ++ quoted method ++ " has no body"
  | .missingReturn => "missing return statement"
  | .noConstructors declaration => quoted declaration ++ " cannot declare constructors"
  | .malformedDescriptor descriptor => "malformed method descriptor " ++ quoted descriptor
  | .voidConcatenated => "'void' cannot be concatenated"
  | .negatedLiteral shown => "bad operand " ++ quoted shown ++ " for unary operator '-'"
  | .unexpectedLiteral shown => "unexpected literal " ++ quoted shown
  | .literalTooLarge shown => "integer literal " ++ quoted shown ++ " is too large"
  | .literalRange shown type => "literal " ++ shown ++ " is out of range for " ++ quoted type
  | .badOperand type symbol =>
    "bad operand type " ++ quoted type ++ " for unary operator " ++ quoted symbol
  | .badOperands symbol left right =>
    "bad operand types for " ++ quoted symbol ++ ": " ++ quoted left ++ " and " ++ quoted right
  | .staticContext what name =>
    "non-static " ++ what ++ " " ++ quoted name ++ " cannot be referenced from a static context"
  | .unreachable => "unreachable statement"
  | .missingReturnValue => "missing return value"
  | .voidReturnsValue => "cannot return a value from a void method"
  | .voidVariable name => "variable " ++ quoted name ++ " cannot have type void"
  | .notAssignable shown => "cannot assign to " ++ quoted shown
  | .finalAssigned name => "cannot assign a value to final variable " ++ quoted name
  | .emptyArray => "cannot infer the element type of an empty array literal"
  | .voidElements => "array elements cannot be void"
  | .notAValue shown => quoted shown ++ " is not a value"
  | .unknownSymbol name => "cannot find symbol " ++ quoted name
  | .unknownMember name owner => "cannot find symbol " ++ quoted name ++ " in " ++ quoted owner
  | .noMembers name type => "cannot access " ++ quoted name ++ " on " ++ quoted type
  | .privateAccess name owner => quoted name ++ " has private access in " ++ quoted owner
  | .noCalls name type => "cannot call " ++ quoted name ++ " on " ++ quoted type
  | .unknownMethod name arguments owner =>
    "cannot find method '" ++ name ++ "(" ++ ", ".intercalate arguments ++ ")' in " ++ quoted owner
  | .badCast source target => "cannot cast " ++ quoted source ++ " to " ++ quoted target
  | .abstractInstance className => quoted className ++ " is abstract; cannot be instantiated"
  | .notInstantiable name => quoted name ++ " cannot be instantiated"
  | .noConstructor name arguments =>
    "no constructor of " ++ quoted name ++ " takes (" ++ ", ".intercalate arguments ++ ")"

inductive PoolError where
  | outOfSpace
  deriving DecidableEq, Repr

def PoolError.message : PoolError → String
  | .outOfSpace => "constant pool is out of space"

def hexDigits (width n : Nat) : String :=
  let digits := Nat.toDigits 16 n
  String.ofList (List.replicate (width - digits.length) '0' ++ digits)

inductive CodeError where
  | stackUnderflow
  | depthOverflow
  | branchTooFar (offset : Int)
  | unplacedLabel (label : Nat)
  | codeTooLarge
  | localOutOfRange (slot : Nat)
  | malformed (pc : Nat)
  | needsOperands (opcode : UInt8)
  deriving DecidableEq, Repr

def CodeError.message : CodeError → String
  | .stackUnderflow => "operand stack underflow"
  | .depthOverflow => "attempt to add with overflow"
  | .branchTooFar offset => "branch offset " ++ toString offset ++ " does not fit in 16 bits"
  | .unplacedLabel label => "label " ++ toString label ++ " was never placed"
  | .codeTooLarge => "method code exceeds 65535 bytes"
  | .localOutOfRange slot => "local slot " ++ toString slot ++ " exceeds the addressable range"
  | .malformed pc => "malformed instruction at pc " ++ toString pc
  | .needsOperands opcode => "opcode 0x" ++ hexDigits 2 opcode.toNat ++ " needs explicit operands"

inductive VerifyError where
  | unsupportedVersion (major : Nat)
  | classIndex (role : String) (index : Nat)
  | poolTooLarge (count : Nat)
  | poolIndex (index : Nat)
  | poolIndexType (index : Nat)
  | interfaceNotAbstract (flags : UInt16)
  | interfaceFlags (flags : UInt16)
  | finalAndAbstract (flags : UInt16)
  | classAccess (flags : UInt16)
  | fieldFlags (flags : UInt16)
  | duplicateField (name : String)
  | methodAccess (flags : UInt16)
  | abstractMethodFlags (flags : UInt16)
  | interfaceMethodFlags (flags : UInt16)
  | methodDescriptor (descriptor : String)
  | missingCode (method : String)
  | forbiddenCode (method : String)
  | code (method : String) (error : CodeError)
  | maxLocals (method : String) (given needed : Nat)
  | returnOpcode (expected found : String)
  | duplicateMethod (name descriptor : String)
  deriving DecidableEq, Repr

def flagText (flags : UInt16) : String :=
  "0x" ++ hexDigits 4 flags.toNat

def VerifyError.message : VerifyError → String
  | .unsupportedVersion major => "unsupported class file version " ++ toString major
  | .classIndex role index => "invalid " ++ role ++ " class index " ++ toString index
  | .poolTooLarge count => "constant pool has " ++ toString count ++ " entries, more than 65535"
  | .poolIndex index => "invalid constant pool index " ++ toString index
  | .poolIndexType index => "invalid constant pool index type " ++ toString index
  | .interfaceNotAbstract flags => "interface must be abstract: " ++ flagText flags
  | .interfaceFlags flags => "interface cannot be final, super or enum: " ++ flagText flags
  | .finalAndAbstract flags => "class cannot be both final and abstract: " ++ flagText flags
  | .classAccess flags => "class access must be public or package: " ++ flagText flags
  | .fieldFlags flags => "invalid field access flags: " ++ flagText flags
  | .duplicateField name => "duplicate field " ++ quoted name
  | .methodAccess flags => "more than one access flag: " ++ flagText flags
  | .abstractMethodFlags flags => "abstract method with incompatible flags: " ++ flagText flags
  | .interfaceMethodFlags flags => "interface method must be public abstract: " ++ flagText flags
  | .methodDescriptor descriptor => "invalid method descriptor " ++ quoted descriptor
  | .missingCode method =>
    "method " ++ quoted method ++ " must have a Code attribute unless abstract or native"
  | .forbiddenCode method =>
    "abstract or native method " ++ quoted method ++ " must not have a Code attribute"
  | .code method error => "method " ++ quoted method ++ ": " ++ error.message
  | .maxLocals method given needed =>
    "method " ++ quoted method ++ ": max_locals " ++ toString given ++ " below argument slots " ++
      toString needed
  | .returnOpcode expected found =>
    "return opcode does not match descriptor: expected " ++ expected ++ ", found " ++ found
  | .duplicateMethod name descriptor => "duplicate method " ++ quoted (name ++ descriptor)

inductive Cause where
  | lexical (error : LexError)
  | parse (error : SyntaxError)
  | redefinition (entity : Entity) (name : String)
  | illegalModifier (flag construct : String)
  | unknownType (name : String)
  | inaccessibleClass (name : String)
  | invalidStaticUse (name : String)
  | typeMismatch (expected found : String)
  | review (error : ReviewError)
  | lowering (error : LoweringError)
  | pool (error : PoolError)
  | code (error : CodeError)
  | verify (className : String) (error : VerifyError)
  deriving DecidableEq, Repr

def Cause.message : Cause → String
  | .lexical error => error.message
  | .parse error => error.message
  | .redefinition entity name => "redefinition of " ++ entity.text ++ " " ++ quoted name
  | .illegalModifier flag construct => "illegal modifier " ++ quoted flag ++ " on " ++ construct
  | .unknownType name => "unknown type " ++ quoted name
  | .inaccessibleClass name => "class " ++ quoted name ++ " is not accessible here"
  | .invalidStaticUse name => "invalid static use of " ++ quoted name
  | .typeMismatch expected found =>
    "type mismatch: expected " ++ quoted expected ++ ", found " ++ quoted found
  | .review error => error.message
  | .lowering error => error.message
  | .pool error => error.message
  | .code error => error.message
  | .verify className error =>
    "class file verification failed for " ++ quoted className ++ ": " ++ error.message

structure Location where
  path : SourcePath
  line : Nat
  deriving DecidableEq, Repr

def Location.text (location : Location) : String :=
  location.path.text ++ ":" ++ toString location.line

structure CompileError where
  cause : Cause
  location : Option Location := none
  deriving DecidableEq, Repr

namespace CompileError

def locate (error : CompileError) (location : Location) : CompileError :=
  { error with location := error.location.or (some location) }

def message (error : CompileError) : String :=
  match error.location with
  | some location => error.cause.message ++ " at " ++ location.text
  | none => error.cause.message

end CompileError

def unlocated {α : Type} : Except Cause α → Except CompileError α
  | .ok a => .ok a
  | .error cause => .error { cause }

def located {α : Type} (location : Location) : Except Cause α → Except CompileError α
  | .ok a => .ok a
  | .error cause => .error { cause, location := some location }

def atLocation {α : Type} (location : Location) : Except CompileError α → Except CompileError α
  | .ok a => .ok a
  | .error error => .error (error.locate location)

end ClassForge
