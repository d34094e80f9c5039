import ClassForge.Text.Lines

set_option autoImplicit false

namespace ClassForge.Text

/-- A file path as written. Only its components matter, so `a//b/./c/` and `a/b/c` name the
same file. -/
structure SourcePath where
  text : String
  deriving DecidableEq, Repr

namespace SourcePath

def isAbsolute (path : SourcePath) : Bool :=
  path.text.toList.head? = some '/'

def pieces (path : SourcePath) : List String :=
  (splitOn '/' path.text.toList).map String.ofList

def isStep (piece : String) : Bool :=
  piece ≠ "" ∧ piece ≠ "."

def components (path : SourcePath) : List String :=
  let steps := path.pieces.filter isStep
  if path.isAbsolute then "/" :: steps
  else if path.pieces.head? = some "." then "." :: steps
  else steps

def fileName? (path : SourcePath) : Option String :=
  path.components.getLast?.filter (fun name => name ≠ "/" ∧ name ≠ "." ∧ name ≠ "..")

def directory (path : SourcePath) : List String :=
  if path.components = ["/"] then [] else path.components.dropLast

def stemOf (name : String) : String :=
  match name.toList.reverse.dropWhile (· ≠ '.') with
  | _ :: c :: cs => String.ofList (c :: cs).reverse
  | _ => name

def stem (path : SourcePath) : String :=
  (path.fileName?.map stemOf).getD ""

def extension? (path : SourcePath) : Option String := do
  let name ← path.fileName?
  let stem := stemOf name
  if stem = name then none else some (String.ofList (name.toList.drop (stem.length + 1)))

def below? (path directory : SourcePath) : Option SourcePath :=
  if directory.components.isPrefixOf path.components then
    some ⟨"/".intercalate (path.components.drop directory.components.length)⟩
  else none

def resolve (directory path : SourcePath) : SourcePath :=
  if path.isAbsolute ∨ directory.text = "" then path else ⟨directory.text ++ "/" ++ path.text⟩

def fromFirstStep (path : SourcePath) : SourcePath :=
  if path.isAbsolute then path
  else ⟨"/".intercalate (path.pieces.dropWhile (fun piece => !isStep piece))⟩

end SourcePath

end ClassForge.Text
