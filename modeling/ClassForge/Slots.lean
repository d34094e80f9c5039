import ClassForge.Descriptor
import ClassForge.Error

set_option autoImplicit false

namespace ClassForge

structure Binding where
  name : Option String
  offset : Nat
  width : Nat
  descriptor : Option Descriptor := none
  isFinal : Bool := false
  deriving DecidableEq, Repr

structure Slots where
  bindings : List Binding := []
  size : Nat := 0
  maxSize : Nat := 0
  scopes : List Nat := []
  deriving DecidableEq, Repr

namespace Slots

def append (s : Slots) (name : Option String) (width : Nat) (descriptor : Option Descriptor) :
    Except CodeError (Nat × Slots) :=
  let next := s.size + width
  if next > 65535 then .error (.localOutOfRange next)
  else .ok (s.size,
    { s with
      bindings := { name, offset := s.size, width, descriptor } :: s.bindings
      size := next
      maxSize := max s.maxSize next })

def push (s : Slots) (name : String) (width : Nat) : Except CodeError (Nat × Slots) :=
  s.append (some name) width none

def pushTemp (s : Slots) (width : Nat) : Except CodeError (Nat × Slots) :=
  s.append none width none

def bind (s : Slots) (name : String) (descriptor : Descriptor) : Except CodeError (Nat × Slots) :=
  s.append (some name) descriptor.width (some descriptor)

def ofMethod (isStatic : Bool) (params : List (String × Nat)) : Except CodeError Slots := do
  let receiver := if isStatic then [] else [("this", 1)]
  (receiver ++ params).foldlM (fun s (name, width) => do return (← s.push name width).2) {}

def modifyLatest (name : String) (f : Binding → Binding) : List Binding → List Binding
  | [] => []
  | b :: rest => if b.name = some name then f b :: rest else b :: modifyLatest name f rest

def setFinal (s : Slots) (name : String) : Slots :=
  { s with bindings := modifyLatest name (fun b => { b with isFinal := true }) s.bindings }

def setDescriptor (s : Slots) (name : String) (descriptor : Descriptor) : Slots :=
  { s with bindings := modifyLatest name (fun b => { b with descriptor := some descriptor }) s.bindings }

def lookup? (s : Slots) (name : String) : Option Binding :=
  s.bindings.find? (·.name = some name)

def slot? (s : Slots) (name : String) : Option Nat :=
  (s.lookup? name).map (·.offset)

def pop (s : Slots) : Option Binding × Slots :=
  match s.bindings with
  | [] => (none, { s with size := 0 })
  | b :: rest => (some b, { s with bindings := rest, size := b.offset })

def openScope (s : Slots) : Slots :=
  { s with scopes := s.size :: s.scopes }

def rewind (limit : Nat) : List Binding → Nat → List Binding × Nat
  | [], size => ([], if size > limit then 0 else size)
  | b :: rest, size => if size > limit then rewind limit rest b.offset else (b :: rest, size)

def closeScope (s : Slots) : Slots :=
  match s.scopes with
  | [] => s
  | limit :: scopes =>
    let (bindings, size) := rewind limit s.bindings s.size
    { s with bindings, size, scopes }

end Slots

end ClassForge
