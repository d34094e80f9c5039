import ClassForge.Descriptor
import ClassForge.Opcode

set_option autoImplicit false

namespace ClassForge

def Kind.conversion? : Kind → Kind → Option Opcode
  | .int, .long => some .i2l
  | .int, .float => some .i2f
  | .int, .double => some .i2d
  | .long, .int => some .l2i
  | .long, .float => some .l2f
  | .long, .double => some .l2d
  | .float, .int => some .f2i
  | .float, .long => some .f2l
  | .float, .double => some .f2d
  | .double, .int => some .d2i
  | .double, .long => some .d2l
  | .double, .float => some .d2f
  | _, _ => none

namespace Descriptor

def promote? (left right : Descriptor) : Option Descriptor :=
  if left.isNumeric && right.isNumeric then
    if left = double ∨ right = double then some double
    else if left = float ∨ right = float then some float
    else if left = long ∨ right = long then some long
    else some int
  else none

def widensTo (source target : Descriptor) : Bool :=
  if source = byte then target ∈ [short, int, long, float, double]
  else if source ∈ [short, char, int] then target ∈ [int, long, float, double]
  else if source = long then target ∈ [float, double]
  else if source = float then target = double
  else false

def widening? (source target : Descriptor) : Option (List Opcode) :=
  if source = target then some []
  else if source.widensTo target then some (source.kind.conversion? target.kind).toList
  else none

def narrowing (source target : Descriptor) : List Opcode :=
  if target = byte then [.i2b]
  else if target = char then [.i2c]
  else if target = short ∧ source ≠ byte then [.i2s]
  else []

-- Instructions of a cast between primitives; booleans cast to themselves only.
def primitiveCast? (source target : Descriptor) : Option (List Opcode) :=
  if source = target then some []
  else if source.isNumeric && target.isNumeric then
    some ((source.kind.conversion? target.kind).toList ++ narrowing source target)
  else none

def arrayStore (element : Descriptor) : Opcode :=
  if element = int then .iastore
  else if element = long then .lastore
  else if element = float then .fastore
  else if element = double then .dastore
  else if element = boolean ∨ element = byte then .bastore
  else if element = char then .castore
  else if element = short then .sastore
  else .aastore

def newArrayCode? (element : Descriptor) : Option UInt8 :=
  if element = boolean then some 4
  else if element = char then some 5
  else if element = float then some 6
  else if element = double then some 7
  else if element = byte then some 8
  else if element = short then some 9
  else if element = int then some 10
  else if element = long then some 11
  else none

end Descriptor

end ClassForge
