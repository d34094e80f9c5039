import ClassForge.Proofs.Signatures

set_option autoImplicit false

namespace ClassForge

theorem eq_cut {sign found : Char} {cs rest : List Char} (h : cs.dropWhile (· ≠ sign) = found :: rest) :
    cs = cs.takeWhile (· ≠ sign) ++ sign :: rest := by
  have ends := List.head?_dropWhile_not (fun c => decide (c ≠ sign)) cs
  rw [h] at ends
  obtain rfl : found = sign := by simpa using ends
  rw [← h, List.takeWhile_append_dropWhile]

theorem not_mem_takeWhile (sign : Char) (cs : List Char) : sign ∉ cs.takeWhile (· ≠ sign) :=
  fun member => by simpa using List.mem_takeWhile_imp member

namespace Descriptor

variable {d : Descriptor} {cs field rest : List Char} {fields : List (List Char)}

theorem inner_of_takeField (h : takeField? cs = some (field, rest)) (inside : ')' ∉ cs) :
    cs = field ++ rest ∧ Valued IsInner ⟨String.ofList field⟩ := by
  fun_induction takeField? cs generalizing field with
  | case1 | case4 | case6 => cases h
  | case2 cs ih =>
    obtain ⟨⟨element, _⟩, taken, same⟩ := Option.map_eq_some_iff.1 h
    cases same
    obtain ⟨rfl, valued⟩ := ih taken fun member => inside (List.mem_cons_of_mem _ member)
    have text : (⟨String.ofList ('[' :: element)⟩ : Descriptor) = arrayOf ⟨String.ofList element⟩ := by
      simp [arrayOf, String.ofList_cons]
    exact ⟨rfl, text ▸ .arrayOf valued⟩
  | case3 cs _ left found =>
    cases h
    refine ⟨by rw [List.append_assoc, List.cons_append]; exact congrArg _ (eq_cut found), ?_⟩
    have text : (⟨String.ofList ('L' :: cs.takeWhile (· ≠ ';') ++ [';'])⟩ : Descriptor) =
        ofClass (String.ofList (cs.takeWhile (· ≠ ';'))) := by
      rw [ofClass, String.ofList_append, String.ofList_cons]
      rfl
    refine text ▸ .ofClass ⟨?_, ?_⟩ <;> rw [String.toList_ofList]
    · exact not_mem_takeWhile ';' cs
    · exact fun member => inside (List.mem_cons_of_mem _ (List.takeWhile_subset _ member))
  | case5 c cs _ _ among =>
    cases h
    have known : ∃ p : Primitive, p ≠ .void ∧ (⟨String.ofList [c]⟩ : Descriptor) = ofPrimitive p := by
      simp only [List.mem_cons, List.not_mem_nil, or_false] at among
      rcases among with rfl | rfl | rfl | rfl | rfl | rfl | rfl | rfl
      exacts [⟨.boolean, by decide, rfl⟩, ⟨.byte, by decide, rfl⟩, ⟨.char, by decide, rfl⟩, ⟨.short, by decide, rfl⟩,
        ⟨.int, by decide, rfl⟩, ⟨.long, by decide, rfl⟩, ⟨.float, by decide, rfl⟩, ⟨.double, by decide, rfl⟩]
    obtain ⟨p, value, text⟩ := known
    exact ⟨rfl, text ▸ .ofPrimitive value⟩

theorem inner_of_fields (h : fields? cs = some fields) (inside : ')' ∉ cs) :
    cs = fields.flatten ∧ ∀ field ∈ fields, Valued IsInner ⟨String.ofList field⟩ := by
  fun_induction fields? cs generalizing fields with
  | case1 =>
    cases h
    simp
  | case2 => cases h
  | case3 c cs field rest taken _ ih =>
    obtain ⟨fields, further, rfl⟩ := Option.map_eq_some_iff.1 h
    obtain ⟨whole, valued⟩ := inner_of_takeField taken inside
    rw [whole] at inside ⊢
    obtain ⟨rfl, all⟩ := ih further fun member => inside (List.mem_append_right _ member)
    exact ⟨rfl, List.forall_mem_cons.2 ⟨valued, all⟩⟩

end Descriptor

open Descriptor

theorem MethodDescriptor.split_eq_some {d : MethodDescriptor} {params : List Descriptor} {returns : Descriptor} :
    d.split? = some (params, returns) ↔ d = .of params returns ∧ ∀ p ∈ params, p.Valued IsInner := by
  constructor
  · intro h
    unfold split? at h
    split at h
    next cs text =>
      split at h
      next found =>
        obtain ⟨fields, cut, same⟩ := Option.map_eq_some_iff.1 h
        cases same
        obtain ⟨whole, valued⟩ := inner_of_fields cut (not_mem_takeWhile ')' cs)
        refine ⟨?_, fun p member => ?_⟩
        · obtain ⟨d⟩ := d
          refine congrArg MethodDescriptor.mk (String.toList_inj.1 ?_)
          simp only at text
          rw [text, eq_cut found, whole]
          simp [String.toList_join, List.flatMap, Function.comp_def]
        · obtain ⟨field, among, rfl⟩ := List.mem_map.1 member
          exact valued field among
      next => cases h
    next => cases h
  · rintro ⟨rfl, valued⟩
    exact split_valued (fun _ => id) valued returns

def octets (cs : List Char) : List UInt8 :=
  cs.flatMap String.utf8EncodeChar

def octet (sign : Char) : UInt8 :=
  UInt8.ofNat sign.toNat

theorem octets_append (front back : List Char) : octets (front ++ back) = octets front ++ octets back :=
  List.flatMap_append

section Octets

variable {sign c : Char} {front : List Char} (ascii : sign.toNat < 128)
include ascii

theorem octets_cons (cs : List Char) : octets (sign :: cs) = octet sign :: octets cs := by
  have spelled : String.utf8EncodeChar sign = [octet sign] := if_pos (Nat.lt_succ_iff.1 ascii)
  rw [octets, List.flatMap_cons, spelled]
  rfl

theorem octet_not_mem (other : c ≠ sign) : octet sign ∉ String.utf8EncodeChar c := by
  have apart : c.toNat ≠ sign.toNat := mt Char.toNat_inj.1 other
  unfold String.utf8EncodeChar octet
  change _ ∉ if c.toNat ≤ 127 then _ else _
  split_ifs
  all_goals
    simp only [List.mem_cons, List.not_mem_nil, or_false, ← UInt8.toNat_inj, UInt8.toNat_ofNat', Char.toNat] at *
    omega

theorem findIdx?_clear (clear : sign ∉ front) : (octets front).findIdx? (· = octet sign) = none := by
  rw [List.findIdx?_eq_none_iff]
  intro b member
  obtain ⟨c, among, inside⟩ := List.mem_flatMap.1 member
  simpa using fun same : b = octet sign =>
    octet_not_mem ascii (fun here : c = sign => clear (here ▸ among)) (same ▸ inside)

theorem findIdx?_cut (clear : sign ∉ front) (back : List Char) :
    (octets (front ++ sign :: back)).findIdx? (· = octet sign) = some (octets front).length := by
  rw [octets_append, List.findIdx?_append, findIdx?_clear ascii clear, octets_cons ascii, List.findIdx?_cons]
  simp

end Octets

theorem octets_head (c : Char) (cs : List Char) : ∃ first more, octets (c :: cs) = first :: more ∧
    ∀ sign : Char, sign.toNat < 128 → (first = octet sign ↔ c = sign) := by
  cases spelled : String.utf8EncodeChar c with
  | nil => exact absurd spelled String.utf8EncodeChar_ne_nil
  | cons first more =>
    refine ⟨first, more ++ octets cs, by rw [octets, List.flatMap_cons, spelled]; rfl, fun sign ascii => ?_⟩
    constructor
    · intro same
      by_contra other
      exact octet_not_mem ascii other (by simp [spelled, same])
    · rintro rfl
      have single := octets_cons ascii []
      rw [octets, List.flatMap_cons, spelled] at single
      exact (List.cons_eq_cons.1 single).1

def fieldLength? : List UInt8 → Option Nat
  | [] => none
  | first :: rest =>
    if first = octet '[' then (fieldLength? rest).map (· + 1)
    else if first = octet 'L' then (rest.findIdx? (· = octet ';')).map (· + 2)
    else if first ∈ ['Z', 'B', 'C', 'S', 'I', 'J', 'F', 'D'].map octet then some 1
    else none

theorem fieldLength?_octets (cs : List Char) :
    fieldLength? (octets cs) = (takeField? cs).map fun cut => (octets cut.1).length := by
  have letters : ∀ c ∈ ['Z', 'B', 'C', 'S', 'I', 'J', 'F', 'D'], c.toNat < 128 := by simp
  fun_induction takeField? cs with
  | case1 => rfl
  | case2 cs ih =>
    rw [octets_cons (by decide), fieldLength?, if_pos rfl, ih, Option.map_map, Option.map_map]
    congr 1
  | case3 cs _ left found =>
    have index := findIdx?_cut (show ';'.toNat < 128 by decide) (not_mem_takeWhile ';' cs) left
    have size : (octets ('L' :: cs.takeWhile (· ≠ ';') ++ [';'])).length =
        (octets (cs.takeWhile (· ≠ ';'))).length + 1 + 1 := by
      rw [octets_append, List.length_append, octets_cons (by decide)]
      rfl
    rw [← eq_cut found] at index
    rw [octets_cons (by decide), fieldLength?, if_neg (by decide), if_pos rfl, index]
    exact congrArg some size.symm
  | case4 cs missing _ =>
    have clear : ';' ∉ cs := fun member => by simpa using List.dropWhile_eq_nil_iff.1 missing _ member
    rw [octets_cons (by decide), fieldLength?, if_neg (by decide), if_pos rfl, findIdx?_clear (by decide) clear]
    rfl
  | case5 c cs notArray notClass among =>
    obtain ⟨first, more, spelled, reads⟩ := octets_head c cs
    rw [spelled, fieldLength?, if_neg (mt (reads '[' (by decide)).1 notArray),
      if_neg (mt (reads 'L' (by decide)).1 notClass),
      if_pos (List.mem_map.2 ⟨c, among, ((reads c (letters c among)).2 rfl).symm⟩), Option.map_some,
      octets_cons (letters c among)]
    rfl
  | case6 c cs notArray notClass other =>
    obtain ⟨first, more, spelled, reads⟩ := octets_head c cs
    rw [spelled, fieldLength?, if_neg (mt (reads '[' (by decide)).1 notArray),
      if_neg (mt (reads 'L' (by decide)).1 notClass), if_neg]
    · rfl
    · intro member
      obtain ⟨sign, among, same⟩ := List.mem_map.1 member
      exact other ((reads sign (letters sign among)).1 same.symm ▸ among)

theorem fieldLength?_pos {bytes : List UInt8} {n : Nat} (h : fieldLength? bytes = some n) : 0 < n := by
  cases bytes with
  | nil => cases h
  | cons first rest =>
    rw [fieldLength?] at h
    split_ifs at h
    · obtain ⟨index, -, rfl⟩ := Option.map_eq_some_iff.1 h
      exact Nat.succ_pos _
    · obtain ⟨index, -, rfl⟩ := Option.map_eq_some_iff.1 h
      exact Nat.succ_pos _
    · cases h
      exact Nat.succ_pos _

def slices? (bytes : List UInt8) : Option (List (List UInt8)) :=
  if bytes = [] then some []
  else
    match _known : fieldLength? bytes with
    | none => none
    | some n => (slices? (bytes.drop n)).map (bytes.take n :: ·)
termination_by bytes.length
decreasing_by
  have := fieldLength?_pos _known
  have := List.length_pos_iff.2 ‹¬ bytes = []›
  rw [List.length_drop]
  omega

theorem slices?_octets {cs : List Char} (inside : ')' ∉ cs) : slices? (octets cs) =
    (fields? cs).map (·.map octets) := by
  fun_induction fields? cs with
  | case1 =>
    rw [slices?]
    rfl
  | case2 c cs missing =>
    obtain ⟨first, more, spelled, -⟩ := octets_head c cs
    have length := fieldLength?_octets (c :: cs)
    rw [missing] at length
    rw [slices?, if_neg (by simp [spelled])]
    split
    next => rfl
    next known => cases known.symm.trans length
  | case3 c cs field rest taken _ ih =>
    obtain ⟨first, more, spelled, -⟩ := octets_head c cs
    have length := fieldLength?_octets (c :: cs)
    rw [taken] at length
    obtain ⟨whole, -⟩ := inner_of_takeField taken inside
    rw [whole] at inside
    rw [slices?, if_neg (by simp [spelled])]
    split
    next known => cases known.symm.trans length
    next known =>
      cases known.symm.trans length
      rw [whole, octets_append, List.drop_left, List.take_left,
        ih fun member => inside (List.mem_append_right _ member), Option.map_map, Option.map_map]
      rfl

def splitOctets? : List UInt8 → Option (List (List UInt8) × List UInt8)
  | [] => none
  | first :: inner =>
    if first = octet '(' then
      (inner.findIdx? (· = octet ')')).bind fun close =>
        (slices? (inner.take close)).map (·, inner.drop (close + 1))
    else none

theorem splitOctets?_octets (d : MethodDescriptor) : splitOctets? (octets d.text.toList) =
    d.split?.map fun parts => (parts.1.map (octets ·.text.toList), octets parts.2.text.toList) := by
  unfold MethodDescriptor.split?
  split
  next cs text =>
    rw [text, octets_cons (by decide), splitOctets?, if_pos rfl]
    split
    next left found =>
      have index := findIdx?_cut (show ')'.toNat < 128 by decide) (not_mem_takeWhile ')' cs) left
      have whole : octets cs = octets (cs.takeWhile (· ≠ ')')) ++ octet ')' :: octets left := by
        rw [← octets_cons (by decide), ← octets_append, ← eq_cut found]
      rw [← eq_cut found] at index
      rw [index, Option.bind_some, whole, List.take_left, slices?_octets (not_mem_takeWhile ')' cs),
        List.drop_length_add_append]
      simp [Function.comp_def]
    next missing =>
      have clear : ')' ∉ cs := fun member => by simpa using List.dropWhile_eq_nil_iff.1 missing _ member
      rw [findIdx?_clear (by decide) clear]
      rfl
  next other =>
    cases text : d.text.toList with
    | nil => rfl
    | cons c cs =>
      obtain ⟨first, more, spelled, reads⟩ := octets_head c cs
      rw [spelled, splitOctets?, if_neg fun same => other cs (by rw [text, (reads '(' (by decide)).1 same])]
      rfl

-- Method descriptors are cut into parts in one way, never inside a character, and arguments take the slots of
-- the parts.
theorem MethodDescriptor.split_parts (d : MethodDescriptor) :
    (∀ params returns, d.split? = some (params, returns) ↔
      d.text = "(" ++ String.join (params.map (·.text)) ++ ")" ++ returns.text ∧ ∀ p ∈ params, p.Valued IsInner) ∧
    (∀ params params' returns returns', (∀ p ∈ params, p.Valued IsInner) → (∀ p ∈ params', p.Valued IsInner) →
      of params returns = of params' returns' → params = params' ∧ returns = returns') ∧
    splitOctets? (octets d.text.toList) =
      d.split?.map (fun parts => (parts.1.map (octets ·.text.toList), octets parts.2.text.toList)) ∧
    d.argumentSlots = ((d.split?.map fun parts => (parts.1.map (·.kind.width)).sum).getD 0) := by
  refine ⟨fun params returns => ?_, fun params params' returns returns' valued valued' same => ?_,
    splitOctets?_octets d, ?_⟩
  · rw [split_eq_some]
    obtain ⟨text⟩ := d
    simp [of]
  · have first : (of params returns).split? = _ := split_eq_some.2 ⟨rfl, valued⟩
    have second := split_eq_some.2 ⟨same, valued'⟩
    cases first.symm.trans second
    exact ⟨rfl, rfl⟩
  · unfold argumentSlots
    cases d.split? with
    | none => rfl
    | some parts =>
      obtain ⟨params, returns⟩ := parts
      simp only [Option.map_some, Option.getD_some]
      induction params with
      | nil => rfl
      | cons p ps ih => exact congrArg (p.width + ·) ih

end ClassForge
