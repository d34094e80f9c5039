import ClassForge.TypeName

set_option autoImplicit false

namespace ClassForge

inductive Kind where
  | int
  | long
  | float
  | double
  | reference
  | void
  deriving DecidableEq, Repr

namespace Kind

def width : Kind → Nat
  | .long => 2
  | .double => 2
  | .void => 0
  | _ => 1

def familyOffset : Kind → Nat
  | .int => 0
  | .long => 1
  | .float => 2
  | .double => 3
  | .reference => 4
  | .void => 4

def isNumeric : Kind → Bool
  | .reference => false
  | .void => false
  | _ => true

end Kind

/-- A type as class files spell it: a letter for a primitive, `L…;` for a class, brackets in front of
the elements of an array. The type of `null` is spelled out. -/
structure Descriptor where
  text : String
  deriving DecidableEq, Repr

namespace Descriptor

def int : Descriptor := ⟨"I"⟩
def long : Descriptor := ⟨"J"⟩
def float : Descriptor := ⟨"F"⟩
def double : Descriptor := ⟨"D"⟩
def boolean : Descriptor := ⟨"Z"⟩
def char : Descriptor := ⟨"C"⟩
def byte : Descriptor := ⟨"B"⟩
def short : Descriptor := ⟨"S"⟩
def void : Descriptor := ⟨"V"⟩
def null : Descriptor := ⟨"null"⟩

def ofClass (internalName : String) : Descriptor :=
  ⟨"L" ++ internalName ++ ";"⟩

def object : Descriptor := ofClass "java/lang/Object"
def string : Descriptor := ofClass "java/lang/String"

def arrayOf (element : Descriptor) : Descriptor :=
  ⟨"[" ++ element.text⟩

def ofPrimitive (p : Primitive) : Descriptor :=
  ⟨p.code⟩

def ofKeyword (word : String) : Descriptor :=
  ofPrimitive ((Primitive.ofKeyword? word).getD .void)

def element? (d : Descriptor) : Option Descriptor :=
  match d.text.toList with
  | '[' :: cs => some ⟨String.ofList cs⟩
  | _ => none

def kind (d : Descriptor) : Kind :=
  match d.text.toList with
  | 'Z' :: _ => .int
  | 'B' :: _ => .int
  | 'C' :: _ => .int
  | 'S' :: _ => .int
  | 'I' :: _ => .int
  | 'J' :: _ => .long
  | 'F' :: _ => .float
  | 'D' :: _ => .double
  | 'V' :: _ => .void
  | _ => .reference

def width (d : Descriptor) : Nat :=
  d.kind.width

def totalWidth (types : List Descriptor) : Nat :=
  types.foldr (fun d n => d.width + n) 0

def className? (d : Descriptor) : Option String :=
  match d.text.toList with
  | 'L' :: cs => if cs.getLast? = some ';' then some (String.ofList cs.dropLast) else none
  | _ => none

def isReference (d : Descriptor) : Bool :=
  match d.text.toList with
  | 'L' :: _ => true
  | '[' :: _ => true
  | _ => false

def isReferenceOrNull (d : Descriptor) : Bool :=
  d = null || d.isReference

def isNumeric (d : Descriptor) : Bool :=
  d ∈ [byte, short, char, int, long, float, double]

-- Types that are computed with as int and convert among each other.
def isIntFamily (d : Descriptor) : Bool :=
  d ∈ [byte, short, char, int]

def simpleName (internalName : String) : String :=
  let last := (internalName.toList.reverse.takeWhile (· ≠ '/')).reverse
  String.ofList (last.map (fun c => if c = '$' then '.' else c))

def displayBase (d : Descriptor) : String :=
  match Primitive.all.find? (fun p => ofPrimitive p = d) with
  | some p => p.keyword
  | none => if d = null then "null" else simpleName (d.className?.getD d.text)

def display (d : Descriptor) : String :=
  let cs := d.text.toList
  let base := displayBase ⟨String.ofList (cs.dropWhile (· = '['))⟩
  base ++ String.join (List.replicate (cs.takeWhile (· = '[')).length "[]")

def takeField? : List Char → Option (List Char × List Char)
  | [] => none
  | c :: cs =>
    if c = '[' then (takeField? cs).map (fun (field, rest) => ('[' :: field, rest))
    else if c = 'L' then
      match cs.dropWhile (· ≠ ';') with
      | _ :: rest => some ('L' :: cs.takeWhile (· ≠ ';') ++ [';'], rest)
      | [] => none
    else if c ∈ ['Z', 'B', 'C', 'S', 'I', 'J', 'F', 'D'] then some ([c], cs)
    else none

theorem length_dropWhile_le {α : Type} (p : α → Bool) (l : List α) :
    (l.dropWhile p).length ≤ l.length := by
  induction l with
  | nil => simp
  | cons a l ih =>
    simp only [List.dropWhile_cons, List.length_cons]
    split
    · omega
    · simp

theorem length_takeField?_lt {cs field rest : List Char} (h : takeField? cs = some (field, rest)) :
    rest.length < cs.length := by
  fun_induction takeField? cs generalizing field with
  | case1 => simp at h
  | case2 cs ih =>
    obtain ⟨⟨inner, rest'⟩, h₁, h₂⟩ := Option.map_eq_some_iff.1 h
    simp at h₂
    have := ih (h₂.2 ▸ h₁)
    simp; omega
  | case3 cs _ rest' h₁ _ =>
    have := length_dropWhile_le (· ≠ ';') cs
    rw [h₁] at this
    simp at h this ⊢
    rw [← h.2]
    omega
  | case4 => simp at h
  | case5 =>
    simp at h
    simp [h]
  | case6 => simp at h

def fields? (cs : List Char) : Option (List (List Char)) :=
  match cs with
  | [] => some []
  | c :: cs =>
    match h : takeField? (c :: cs) with
    | none => none
    | some (field, rest) =>
      have : rest.length < (c :: cs).length := length_takeField?_lt h
      (fields? rest).map (field :: ·)
termination_by cs.length
decreasing_by exact this

end Descriptor

/-- A method type as class files spell it: parameters in parentheses, then the result. -/
structure MethodDescriptor where
  text : String
  deriving DecidableEq, Repr

namespace MethodDescriptor

def of (params : List Descriptor) (returns : Descriptor) : MethodDescriptor :=
  ⟨"(" ++ String.join (params.map (·.text)) ++ ")" ++ returns.text⟩

def split? (d : MethodDescriptor) : Option (List Descriptor × Descriptor) :=
  match d.text.toList with
  | '(' :: cs =>
    match cs.dropWhile (· ≠ ')') with
    | _ :: returns =>
      (Descriptor.fields? (cs.takeWhile (· ≠ ')'))).map (fun fields =>
        (fields.map (fun field => ⟨String.ofList field⟩), ⟨String.ofList returns⟩))
    | [] => none
  | _ => none

def argumentSlots (d : MethodDescriptor) : Nat :=
  match d.split? with
  | some (params, _) => Descriptor.totalWidth params
  | none => 0

end MethodDescriptor

end ClassForge
