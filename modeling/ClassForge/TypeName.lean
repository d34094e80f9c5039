set_option autoImplicit false

namespace ClassForge

inductive Primitive where
  | int
  | long
  | float
  | double
  | boolean
  | char
  | byte
  | short
  | void
  deriving DecidableEq, Repr

namespace Primitive

def all : List Primitive :=
  [.int, .long, .float, .double, .boolean, .char, .byte, .short, .void]

def keyword : Primitive → String
  | .int => "int"
  | .long => "long"
  | .float => "float"
  | .double => "double"
  | .boolean => "boolean"
  | .char => "char"
  | .byte => "byte"
  | .short => "short"
  | .void => "void"

def ofKeyword? (word : String) : Option Primitive :=
  all.find? (·.keyword = word)

def isKeyword (word : String) : Bool :=
  (ofKeyword? word).isSome

def code : Primitive → String
  | .int => "I"
  | .long => "J"
  | .float => "F"
  | .double => "D"
  | .boolean => "Z"
  | .char => "C"
  | .byte => "B"
  | .short => "S"
  | .void => "V"

end Primitive

structure TypeName where
  dims : Nat
  base : String
  deriving DecidableEq, Repr

namespace TypeName

def plain (base : String) : TypeName :=
  { dims := 0, base }

def spelling (t : TypeName) : String :=
  String.ofList (List.replicate t.dims '[') ++ t.base

def ofSpelling (text : String) : TypeName :=
  let cs := text.toList
  { dims := (cs.takeWhile (· = '[')).length, base := String.ofList (cs.dropWhile (· = '[')) }

def display (t : TypeName) : String :=
  t.base ++ String.join (List.replicate t.dims "[]")

def slotWidth (t : TypeName) : Nat :=
  if t = plain "long" ∨ t = plain "double" then 2 else 1

end TypeName

end ClassForge
