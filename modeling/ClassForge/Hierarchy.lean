import ClassForge.Conversion
import ClassForge.Decl.Basic
import ClassForge.Platform

set_option autoImplicit false

namespace ClassForge

namespace Program

def internalName (program : Program) (qualified : String) : String :=
  match program.find? qualified with
  | some d => d.internalName
  | none => String.ofList (qualified.toList.map (fun c => if c = '.' then '/' else c))

def isInterface (program : Program) (qualified : String) : Bool :=
  match program.find? qualified with
  | some d => d.isInterface
  | none => (Platform.isInterface? qualified).getD false

end Program

def Decl.parents (d : Decl) : List TypeName :=
  match d.shape with
  | .interface parents _ => parents
  | .plainClass body => body.superclass.toList ++ body.interfaces
  | _ => []

namespace Program

def supertypes (program : Program) (d : Decl) : List String :=
  match d.shape with
  | .enumeration _ => ["java/lang/Enum"]
  | _ => (d.parents.filterMap (fun t => d.uses.find? t.spelling)).map program.internalName

def supertypesOf (program : Program) (internalName : String) : List String :=
  match program.findInternal? internalName with
  | some d => program.supertypes d
  | none => []

def visit (program : Program) : (fuel : Nat) → (seen queue : List String) → List String
  | 0, seen, _ => seen
  | _ + 1, seen, [] => seen
  | fuel + 1, seen, current :: queue =>
    if current ∈ seen then visit program fuel seen queue
    else visit program fuel (seen ++ [current]) (queue ++ program.supertypesOf current)

def ancestors (program : Program) (internalName : String) : List String :=
  visit program (List.foldr (fun d n => (program.supertypes d).length + n) 1 program) [] [internalName]

-- The classes above are searched level by level and all of them are listed; a search in depth that stops at
-- `upper` gives the same answer, since only membership counts.
def isSubclass (program : Program) (lower upper : String) : Bool :=
  lower = upper || upper = "java/lang/Object" || upper ∈ program.ancestors lower

end Program

inductive Coercion where
  | convert (ops : List Opcode)
  | checkCast (target : String)
  deriving DecidableEq, Repr

def Program.coercion? (program : Program) (source target : Descriptor) : Option Coercion :=
  match source.widening? target with
  | some ops => some (.convert ops)
  | none =>
    if ¬ target.isReference then none
    else if source = .null ∨ (target = .object ∧ source.isReference) then some (.convert [])
    else if source = .object then some (.checkCast (target.className?.getD target.text))
    else match source.className?, target.className? with
      | some lower, some upper => if program.isSubclass lower upper then some (.convert []) else none
      | _, _ => none

end ClassForge
