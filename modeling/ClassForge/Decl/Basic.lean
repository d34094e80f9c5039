import ClassForge.Decl.Modifier
import ClassForge.Expr.Basic
import ClassForge.Token.Line

set_option autoImplicit false

namespace ClassForge

open Text (SourcePath)

structure TypeParam where
  name : String
  bounds : List TypeName
  deriving DecidableEq, Repr

structure Param where
  type : TypeName
  name : String
  deriving DecidableEq, Repr

structure Field where
  name : String
  type : TypeName
  modifier : Modifier
  line : Nat
  init : Option Expr

def signatureKey (name : String) (params : List Param) : String :=
  name ++ "(" ++ ",".intercalate (params.map (·.type.spelling)) ++ ")"

structure Method where
  name : String
  returns : Option TypeName
  params : List Param
  body : Option (List TokenLine)
  modifier : Modifier
  typeParams : List TypeParam
  line : Nat

def Method.key (m : Method) : String :=
  signatureKey m.name m.params

structure SuperCall where
  target : String
  arguments : List Expr

def constructorName : String :=
  "<init>"

structure Constructor where
  params : List Param
  body : List TokenLine
  modifier : Modifier
  superCall : Option SuperCall
  line : Nat

def Constructor.key (c : Constructor) : String :=
  signatureKey constructorName c.params

/-- Short names with the qualified names they stand for, by first mention. -/
abbrev Uses := List (String × String)

namespace Uses

def find? (uses : Uses) (short : String) : Option String :=
  uses.lookup short

def insert (uses : Uses) (short full : String) : Uses :=
  match uses with
  | [] => [(short, full)]
  | (name, old) :: rest =>
    if name = short then (name, full) :: rest else (name, old) :: insert rest short full

end Uses

structure Header where
  name : String
  qualified : String
  -- Name in class files: slashes between packages, a dollar before a nested name.
  internalName : String
  outer : Option String
  modifier : Modifier
  typeParams : List TypeParam
  uses : Uses
  staticUses : List String
  path : SourcePath
  line : Nat

structure ClassBody where
  superclass : Option TypeName
  interfaces : List TypeName
  fields : List Field
  constructors : List Constructor
  methods : List Method

inductive Shape where
  | enumeration (values : List String)
  | record (components : List Field)
  | interface (parents : List TypeName) (methods : List Method)
  | plainClass (body : ClassBody)

structure Decl extends Header where
  shape : Shape

namespace Decl

def location (d : Decl) : Location :=
  { path := d.path, line := d.line }

def locationAt (d : Decl) (line : Nat) : Location :=
  { path := d.path, line }

def kindText (d : Decl) : String :=
  match d.shape with
  | .enumeration _ => "type"
  | .record _ => "data class"
  | .interface .. => "interface"
  | .plainClass _ => "class"

def isInterface (d : Decl) : Bool :=
  match d.shape with
  | .interface .. => true
  | _ => false

def isFinal (d : Decl) : Bool :=
  match d.shape with
  | .enumeration _ => true
  | .record _ => true
  | .interface .. => false
  | .plainClass _ => d.modifier.has .final

def methods (d : Decl) : List Method :=
  match d.shape with
  | .interface _ methods => methods
  | .plainClass body => body.methods
  | _ => []

def classBody? (d : Decl) : Option ClassBody :=
  match d.shape with
  | .plainClass body => some body
  | _ => none

end Decl

/-- The declarations of a file in the order they are met; an enclosing declaration comes before those
nested in it. -/
abbrev Program := List Decl

namespace Program

def find? (program : Program) (qualified : String) : Option Decl :=
  List.find? (·.qualified = qualified) program

def findInternal? (program : Program) (internalName : String) : Option Decl :=
  List.find? (·.internalName = internalName) program

end Program

end ClassForge
