set_option autoImplicit false

namespace ClassForge.Text

def finishLine : List Char → List Char
  | '\r' :: cs => cs.reverse
  | cs => cs.reverse

def linesFrom (done : List (List Char)) (current : List Char) : List Char → List (List Char)
  | [] => (if current.isEmpty then done else current.reverse :: done).reverse
  | c :: cs =>
    if c = '\n' then linesFrom (finishLine current :: done) [] cs
    else linesFrom done (c :: current) cs

-- The lines of a text without their line ends. A line feed at the very end starts no new line.
def lines (text : String) : List (List Char) :=
  linesFrom [] [] text.toList

def splitOn (separator : Char) (cs : List Char) : List (List Char) :=
  cs.foldr (fun c pieces =>
    if c = separator then [] :: pieces
    else match pieces with
      | [] => [[c]]
      | piece :: rest => (c :: piece) :: rest) [[]]

end ClassForge.Text
