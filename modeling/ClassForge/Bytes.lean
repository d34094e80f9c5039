set_option autoImplicit false

namespace ClassForge.Bytes

def u2 (n : UInt16) : List UInt8 :=
  [(n >>> 8).toUInt8, n.toUInt8]

def u4 (n : UInt32) : List UInt8 :=
  [(n >>> 24).toUInt8, (n >>> 16).toUInt8, (n >>> 8).toUInt8, n.toUInt8]

def u8 (n : UInt64) : List UInt8 :=
  u4 (n >>> 32).toUInt32 ++ u4 n.toUInt32

def toU2 (a b : UInt8) : UInt16 :=
  (a.toUInt16 <<< 8) ||| b.toUInt16

def toU4 (a b c d : UInt8) : UInt32 :=
  (a.toUInt32 <<< 24) ||| (b.toUInt32 <<< 16) ||| (c.toUInt32 <<< 8) ||| d.toUInt32

def toI2 (a b : UInt8) : Int :=
  (toU2 a b).toInt16.toInt

def toI4 (a b c d : UInt8) : Int :=
  (toU4 a b c d).toInt32.toInt

def splitExactly {α : Type} : Nat → List α → Option (List α × List α)
  | 0, l => some ([], l)
  | _ + 1, [] => none
  | n + 1, a :: l =>
    match splitExactly n l with
    | some (taken, rest) => some (a :: taken, rest)
    | none => none

theorem append_of_splitExactly {α : Type} {n : Nat} {l taken rest : List α}
    (h : splitExactly n l = some (taken, rest)) : taken ++ rest = l := by
  fun_induction splitExactly n l generalizing taken rest with
  | case1 l => simp at h; simp [h]
  | case2 => simp at h
  | case3 n a l taken' rest' h' ih =>
    simp at h
    simp [← h.1, ← h.2, ih h']
  | case4 => simp at h

end ClassForge.Bytes
