import Mathlib
import ClassForge.Text.ModifiedUtf8

set_option autoImplicit false

namespace ClassForge.Text

def continues (byte : UInt8) : Bool :=
  byte.toNat / 64 = 2

def readUnits : List UInt8 → Option (List UInt16)
  | [] => some []
  | a :: rest =>
    if 0 < a.toNat ∧ a.toNat < 128 then (readUnits rest).map (a.toUInt16 :: ·)
    else if a.toNat / 32 = 6 then
      match rest with
      | b :: rest =>
        if continues b then
          (readUnits rest).map (UInt16.ofNat (a.toNat % 32 * 64 + b.toNat % 64) :: ·)
        else none
      | [] => none
    else if a.toNat / 16 = 14 then
      match rest with
      | b :: c :: rest =>
        if continues b && continues c then
          (readUnits rest).map (UInt16.ofNat (a.toNat % 16 * 4096 + b.toNat % 64 * 64 + c.toNat % 64) :: ·)
        else none
      | _ => none
    else none

-- The characters that units stand for. The first half of a pair is never without the second.
def readChars : List UInt16 → Option (List Char)
  | [] => some []
  | unit :: rest =>
    if unit.toNat / 0x400 = 0x36 then
      match rest with
      | low :: rest =>
        if low.toNat / 0x400 = 0x37 then
          (readChars rest).map (Char.ofNat (0x10000 + unit.toNat % 0x400 * 0x400 + low.toNat % 0x400) :: ·)
        else none
      | [] => none
    else if unit.toNat / 0x400 = 0x37 then none
    else (readChars rest).map (Char.ofNat unit.toNat :: ·)

def read (bytes : List UInt8) : Option String :=
  ((readUnits bytes).bind readChars).map String.ofList

-- The marks of a byte stand above its payload, so that joining them is adding them.
theorem toNat_or_mark {low mark : UInt8} (width : Nat) (payload : low.toNat < 2 ^ width)
    (above : 2 ^ width ∣ mark.toNat) : (low ||| mark).toNat = mark.toNat + low.toNat := by
  obtain ⟨high, marks⟩ := above
  rw [UInt8.toNat_or, Nat.or_comm, marks, Nat.two_pow_add_eq_or_of_lt payload]

section Bytes

variable (unit : UInt16)

theorem toNat_low : ((unit &&& 0x3f).toUInt8 ||| 0x80).toNat = 128 + unit.toNat % 64 := by
  have payload : (unit &&& 0x3f).toUInt8.toNat = unit.toNat % 64 := by
    rw [UInt16.toNat_toUInt8, UInt16.toNat_and]
    change (unit.toNat &&& 2 ^ 6 - 1) % 2 ^ 8 = _
    rw [Nat.and_two_pow_sub_one_eq_mod]
    omega
  rw [toNat_or_mark 6 (by omega) (by decide), payload]
  rfl

theorem toNat_middle : (((unit >>> 6) &&& 0x3f).toUInt8 ||| 0x80).toNat = 128 + unit.toNat / 64 % 64 := by
  rw [toNat_low, UInt16.toNat_shiftRight, Nat.shiftRight_eq_div_pow]
  rfl

theorem toNat_high {mark : UInt8} {shift : UInt16} (width : Nat)
    (payload : unit.toNat / 2 ^ (shift.toNat % 16) < 2 ^ width) (small : width ≤ 8) (above : 2 ^ width ∣ mark.toNat) :
    ((unit >>> shift).toUInt8 ||| mark).toNat = mark.toNat + unit.toNat / 2 ^ (shift.toNat % 16) := by
  have kept : (unit >>> shift).toUInt8.toNat = unit.toNat / 2 ^ (shift.toNat % 16) := by
    rw [UInt16.toNat_toUInt8, UInt16.toNat_shiftRight, Nat.shiftRight_eq_div_pow]
    exact Nat.mod_eq_of_lt (Nat.lt_of_lt_of_le payload (Nat.pow_le_pow_right (by omega) small))
  rw [toNat_or_mark width (kept ▸ payload) above, kept]

theorem toNat_unitBytes : (unitBytes unit).map UInt8.toNat =
    if 1 ≤ unit.toNat ∧ unit.toNat ≤ 0x7f then [unit.toNat]
    else if unit.toNat ≤ 0x7ff then [0xc0 + unit.toNat / 64, 0x80 + unit.toNat % 64]
    else [0xe0 + unit.toNat / 4096, 0x80 + unit.toNat / 64 % 64, 0x80 + unit.toNat % 64] := by
  have bound := unit.toNat_lt
  have one : (1 ≤ unit ∧ unit ≤ 0x7f) ↔ 1 ≤ unit.toNat ∧ unit.toNat ≤ 0x7f := by
    rw [UInt16.le_iff_toNat_le, UInt16.le_iff_toNat_le]
    rfl
  have two : unit ≤ 0x7ff ↔ unit.toNat ≤ 0x7ff := UInt16.le_iff_toNat_le
  unfold unitBytes
  simp only [one, two]
  split_ifs
  · rw [List.map_singleton, UInt16.toNat_toUInt8, Nat.mod_eq_of_lt (by omega)]
  · rw [List.map_cons, List.map_singleton, toNat_low,
      toNat_high unit 5 (by change unit.toNat / 64 < 32; omega) (by omega) (by decide)]
    rfl
  · rw [List.map_cons, List.map_cons, List.map_singleton, toNat_middle, toNat_low,
      toNat_high unit 4 (by change unit.toNat / 4096 < 16; omega) (by omega) (by decide)]
    rfl

theorem readUnits_unitBytes (rest : List UInt8) :
    readUnits (unitBytes unit ++ rest) = (readUnits rest).map (unit :: ·) := by
  have bound := unit.toNat_lt
  have spelled := toNat_unitBytes unit
  split_ifs at spelled
  · obtain ⟨a, same, first⟩ := List.map_eq_singleton_iff.1 spelled
    have back : a.toUInt16 = unit := UInt16.toNat.inj (by rw [UInt8.toNat_toUInt16, first])
    rw [same, List.singleton_append, readUnits.eq_def]
    dsimp only
    rw [if_pos (by omega), back]
  · obtain ⟨a, _, same, first, spelled⟩ := List.map_eq_cons_iff.1 spelled
    obtain ⟨b, rfl, second⟩ := List.map_eq_singleton_iff.1 spelled
    have back : (0xc0 + unit.toNat / 64) % 32 * 64 + (0x80 + unit.toNat % 64) % 64 = unit.toNat := by omega
    rw [same, readUnits.eq_def]
    dsimp only [List.cons_append, List.nil_append]
    rw [if_neg (by omega), if_pos (by omega), if_pos (by rw [continues, decide_eq_true_eq]; omega), first, second, back,
      UInt16.ofNat_toNat]
  · obtain ⟨a, _, same, first, spelled⟩ := List.map_eq_cons_iff.1 spelled
    obtain ⟨b, _, rfl, second, spelled⟩ := List.map_eq_cons_iff.1 spelled
    obtain ⟨c, rfl, third⟩ := List.map_eq_singleton_iff.1 spelled
    have back : (0xe0 + unit.toNat / 4096) % 16 * 4096 + (0x80 + unit.toNat / 64 % 64) % 64 * 64 +
        (0x80 + unit.toNat % 64) % 64 = unit.toNat := by omega
    have more : (continues b && continues c) = true := by
      rw [Bool.and_eq_true, continues, continues, decide_eq_true_eq, decide_eq_true_eq]
      omega
    rw [same, readUnits.eq_def]
    dsimp only [List.cons_append, List.nil_append]
    rw [if_neg (by omega), if_neg (by omega), if_pos (by omega), if_pos more, first, second, third, back,
      UInt16.ofNat_toNat]

def unitLength : Nat :=
  if 0x01 ≤ unit.toNat ∧ unit.toNat ≤ 0x7f then 1 else if unit.toNat ≤ 0x7ff then 2 else 3

theorem length_unitBytes : (unitBytes unit).length = unitLength unit := by
  rw [← List.length_map, toNat_unitBytes, unitLength]
  split_ifs <;> rfl

theorem unitBytes_range {byte : UInt8} (member : byte ∈ unitBytes unit) : 0 < byte.toNat ∧ byte.toNat < 0xf0 := by
  have bound := unit.toNat_lt
  have inside := List.mem_map_of_mem (f := UInt8.toNat) member
  rw [toNat_unitBytes] at inside
  split_ifs at inside <;> simp only [List.mem_cons, List.not_mem_nil, or_false] at inside <;> omega

end Bytes

theorem readChars_units (c : Char) (rest : List UInt16) :
    readChars (units c ++ rest) = (readChars rest).map (c :: ·) := by
  have valid : c.toNat < 0xd800 ∨ 0xdfff < c.toNat ∧ c.toNat < 0x110000 := c.valid
  have word {n : Nat} (small : n < 0x10000) : n.toUInt16.toNat = n := by
    rw [Nat.toUInt16_eq, UInt16.toNat_ofNat']
    exact Nat.mod_eq_of_lt small
  unfold units
  dsimp only
  split_ifs with single
  · rw [List.singleton_append, readChars.eq_def]
    dsimp only
    rw [word single, if_neg (by omega), if_neg (by omega), Char.ofNat_toNat]
  · have first := word (n := 0xd800 + (c.toNat - 0x10000) / 0x400) (by omega)
    have second := word (n := 0xdc00 + (c.toNat - 0x10000) % 0x400) (by omega)
    have same : 0x10000 + (0xd800 + (c.toNat - 0x10000) / 0x400) % 0x400 * 0x400 +
        (0xdc00 + (c.toNat - 0x10000) % 0x400) % 0x400 = c.toNat := by omega
    rw [readChars.eq_def]
    dsimp only [List.cons_append, List.nil_append]
    rw [first, second, if_pos (by omega), if_pos (by omega), same, Char.ofNat_toNat]

theorem readUnits_flatMap (list : List UInt16) : readUnits (list.flatMap unitBytes) = some list := by
  induction list with
  | nil => rfl
  | cons unit rest ih => rw [List.flatMap_cons, readUnits_unitBytes, ih, Option.map_some]

theorem readChars_flatMap (list : List Char) : readChars (list.flatMap units) = some list := by
  induction list with
  | nil => rfl
  | cons c rest ih => rw [List.flatMap_cons, readChars_units, ih, Option.map_some]

theorem read_modifiedUtf8 (text : String) : read (modifiedUtf8 text) = some text := by
  rw [read, modifiedUtf8, readUnits_flatMap, Option.bind_some, readChars_flatMap, Option.map_some, String.ofList_toList]

theorem modifiedUtf8_reads (text : String) :
    read (modifiedUtf8 text) = some text ∧
      (∀ byte ∈ modifiedUtf8 text, 0 < byte.toNat ∧ byte.toNat < 0xf0) ∧
      (modifiedUtf8 text).length = ((text.toList.flatMap units).map unitLength).sum := by
  refine ⟨read_modifiedUtf8 text, fun byte member => ?_, ?_⟩
  · obtain ⟨unit, -, inside⟩ := List.mem_flatMap.1 member
    exact unitBytes_range unit inside
  · simp only [modifiedUtf8, List.length_flatMap, length_unitBytes]

end ClassForge.Text
