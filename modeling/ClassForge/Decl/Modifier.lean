import ClassForge.Error

set_option autoImplicit false

namespace ClassForge

inductive Access where
  | everyone
  | declarer
  | family
  | package
  deriving DecidableEq, Repr

namespace Access

def keyword? : Access → Option String
  | .everyone => some "public"
  | .declarer => some "private"
  | .family => some "protected"
  | .package => none

def ofKeyword? (word : String) : Option Access :=
  [everyone, declarer, family].find? (·.keyword? = some word)

end Access

inductive Flag where
  | final
  | const
  | abstract
  | synchronized
  | static
  | volatile
  | transient
  | strict
  | native
  deriving DecidableEq, Repr

namespace Flag

def all : List Flag :=
  [.final, .const, .abstract, .synchronized, .static, .volatile, .transient, .strict, .native]

def keyword : Flag → String
  | .final => "final"
  | .const => "const"
  | .abstract => "abstract"
  | .synchronized => "synchronized"
  | .static => "static"
  | .volatile => "volatile"
  | .transient => "transient"
  | .strict => "strict"
  | .native => "native"

def ofKeyword? (word : String) : Option Flag :=
  all.find? (·.keyword = word)

end Flag

inductive Construct where
  | field
  | method
  | constructor
  | enumeration
  | record
  | interface
  | plainClass
  deriving DecidableEq, Repr

namespace Construct

def text : Construct → String
  | .field => "field"
  | .method => "method"
  | .constructor => "constructor"
  | .enumeration => "type"
  | .record => "data class"
  | .interface => "interface"
  | .plainClass => "class"

def forbids : Construct → Flag → Bool
  | .field, f => f ∈ [.final, .abstract, .strict, .native]
  | .method, f => f ∈ [.final, .const, .volatile, .transient]
  | .constructor, f => f ≠ .static
  | .enumeration, f => f ∉ [.final, .const]
  | .record, f => f ∉ [.final, .const]
  | .interface, f => f ≠ .abstract
  | .plainClass, f => f ∉ [.final, .abstract]

end Construct

structure Modifier where
  access : Access := .package
  flags : List Flag := []
  deriving DecidableEq, Repr

namespace Modifier

def has (m : Modifier) (flag : Flag) : Bool :=
  flag ∈ m.flags

def insert (m : Modifier) (flag : Flag) : Modifier :=
  if m.has flag then m else { m with flags := m.flags ++ [flag] }

def add (m : Modifier) (flag : Flag) : Except Cause Modifier :=
  if m.has flag then .error (.parse (.repeatedFlag flag.keyword)) else .ok (m.insert flag)

def words (m : Modifier) : List String :=
  m.access.keyword?.toList ++ (Flag.all.filter m.has).map Flag.keyword

def text (m : Modifier) : String :=
  " ".intercalate m.words

def check (m : Modifier) (construct : Construct) : Except Cause Unit :=
  match Flag.all.find? (fun flag => m.has flag && construct.forbids flag) with
  | some flag => .error (.illegalModifier flag.keyword construct.text)
  | none =>
    if construct = .method ∧ m.has .abstract ∧ m.access = .declarer then
      .error (.illegalModifier "private abstract" construct.text)
    else .ok ()

end Modifier

end ClassForge
