import ClassForge.Proofs.Steps

set_option autoImplicit false

namespace ClassForge

variable {c : Constant}

namespace Constant

instance : Std.TransCmp order := by
  unfold order
  infer_instance

theorem eq_of_words {a b c d : UInt16} (h : a.toNat * 65536 + b.toNat = c.toNat * 65536 + d.toNat) : a = c ∧ b = d := by
  have hb := b.toNat_lt
  have hd := d.toNat_lt
  constructor <;> apply UInt16.toNat.inj <;> omega

def member? : Constant → Option (UInt16 × UInt16)
  | .fieldRef owner member => some (owner, member)
  | .methodRef owner member => some (owner, member)
  | .interfaceMethodRef owner member => some (owner, member)
  | _ => none

-- The tag keeps constants of different kinds apart, the number those of one kind.
theorem eq_of_order {d : Constant} (h : c.order d = .eq) : c = d := by
  simp only [order, compareLex_eq_eq, compareOn, Std.compare_eq_iff_eq] at h
  obtain ⟨hcode, htext⟩ := h
  cases c <;> cases d <;> simp_all [code, text, tag]
  case integer.integer => exact Int32.toBitVec_inj.1 (UInt32.toBitVec_inj.2 (UInt32.toNat.inj hcode))
  case float.float => exact UInt32.toNat.inj hcode
  case long.long => exact Int64.toBitVec_inj.1 (UInt64.toBitVec_inj.2 (UInt64.toNat.inj hcode))
  case double.double => exact UInt64.toNat.inj hcode
  case classRef.classRef => exact UInt16.toNat.inj hcode
  case string.string => exact UInt16.toNat.inj hcode
  case fieldRef.fieldRef => exact eq_of_words hcode
  case methodRef.methodRef => exact eq_of_words hcode
  case interfaceMethodRef.interfaceMethodRef => exact eq_of_words hcode
  case nameAndType.nameAndType => exact eq_of_words hcode
  all_goals omega

-- The slots that a constant takes.
def span (c : Constant) : List (Option Constant) :=
  if c.width = 2 then [some c, none] else [some c]

theorem length_span (c : Constant) : c.span.length = c.width := by
  cases c <;> rfl

theorem filterMap_span (c : Constant) : c.span.filterMap id = [c] := by
  unfold span
  split <;> rfl

end Constant

variable {index : UInt16} {text name owner descriptor : String} {ref : String × String × String}
  {make : UInt16 → UInt16 → Constant}

namespace ConstantPool

-- Every index in the table stands for its constant, and the slots are those of the constants.
structure Valid (pool : ConstantPool) : Prop where
  found : ∀ c index, pool.index? c = some index → pool.get? index = some c
  spans : pool.slots.toList = pool.constants.flatMap Constant.span
  room : pool.slots.size < 65535

def Extends (pool later : ConstantPool) : Prop :=
  ∀ index c, pool.get? index = some c → later.get? index = some c

theorem valid_empty : Valid {} where
  found c index h := by
    have none : ({} : ConstantPool).index? c = none := Std.TreeMap.getElem?_emptyc
    rw [none] at h
    cases h
  spans := rfl
  room := by decide

theorem Extends.refl (pool : ConstantPool) : pool.Extends pool :=
  fun _ _ h => h

variable {pool mid later : ConstantPool}

theorem Extends.trans (first : pool.Extends mid) (second : mid.Extends later) : pool.Extends later :=
  fun index c h => second index c (first index c h)

theorem Extends.utf8? (grown : pool.Extends later)
    (h : pool.utf8? index = some text) : later.utf8? index = some text := by
  unfold ConstantPool.utf8? at h ⊢
  split at h
  next found => simpa [grown _ _ found] using h
  next => cases h

theorem Extends.className? (grown : pool.Extends later)
    (h : pool.className? index = some name) : later.className? index = some name := by
  unfold ConstantPool.className? at h ⊢
  split at h
  next found => simpa [grown _ _ found] using grown.utf8? h
  next => cases h

theorem memberRef?_eq_some_iff :
    pool.memberRef? index = some ref ↔ ∃ c owner member name descriptor,
      pool.get? index = some c ∧ c.member? = some (owner, member) ∧
      pool.get? member = some (.nameAndType name descriptor) ∧ pool.className? owner = some ref.1 ∧
      pool.utf8? name = some ref.2.1 ∧ pool.utf8? descriptor = some ref.2.2 := by
  obtain ⟨owner, name, descriptor⟩ := ref
  cases found : pool.get? index with
  | none => simp [memberRef?, found]
  | some c =>
    cases c <;> simp [memberRef?, found, Constant.member?]
    all_goals
      rename_i a b
      cases hmember : pool.get? b with
      | none => simp
      | some d => cases d <;> simp [Option.bind_eq_some_iff, and_assoc]

theorem Extends.memberRef? (grown : pool.Extends later)
    (h : pool.memberRef? index = some ref) : later.memberRef? index = some ref := by
  obtain ⟨c, owner, member, name, descriptor, found, hpair, hmember, howner, hname, htype⟩ :=
    memberRef?_eq_some_iff.1 h
  exact memberRef?_eq_some_iff.2 ⟨c, owner, member, name, descriptor, grown _ _ found, hpair,
    grown _ _ hmember, grown.className? howner, grown.utf8? hname, grown.utf8? htype⟩

def RefersTo (pool : ConstantPool) (make : UInt16 → UInt16 → Constant) (index : UInt16)
    (owner name descriptor : String) : Prop :=
  (∃ a b, pool.get? index = some (make a b)) ∧ pool.memberRef? index = some (owner, name, descriptor)

theorem Extends.refersTo (grown : pool.Extends later) (h : pool.RefersTo make index owner name descriptor) :
    later.RefersTo make index owner name descriptor := by
  obtain ⟨⟨a, b, found⟩, names⟩ := h
  exact ⟨⟨a, b, grown _ _ found⟩, grown.memberRef? names⟩

theorem get?_append_new (room : pool.hasRoom c.width) :
    (pool.append c).get? (UInt16.ofNat (pool.slots.size + 1)) = some c := by
  have bound : pool.slots.size + 1 < 65536 := by
    simp only [hasRoom, decide_eq_true_eq] at room
    omega
  have number : (UInt16.ofNat (pool.slots.size + 1)).toNat = pool.slots.size + 1 := by
    rw [UInt16.toNat_ofNat']
    exact Nat.mod_eq_of_lt bound
  have nonzero : UInt16.ofNat (pool.slots.size + 1) ≠ 0 := by
    intro h
    rw [h] at number
    simp at number
  simp only [get?, nonzero, if_false, number, Nat.add_sub_cancel, append]
  split
  · rw [Array.getElem?_push, if_neg (by simp), Array.getElem?_push_size]
    rfl
  · rw [Array.getElem?_push_size]
    rfl

theorem extends_append (c : Constant) : pool.Extends (pool.append c) := by
  intro index d h
  unfold get? at h ⊢
  split at h
  next => cases h
  next nonzero =>
    rw [if_neg nonzero]
    have found : pool.slots[index.toNat - 1]? = some (some d) := by
      simpa [Option.join_eq_some_iff] using h
    have inside : index.toNat - 1 < pool.slots.size := (Array.getElem?_eq_some_iff.1 found).1
    simp only [append]
    split
    · rw [Array.getElem?_push, if_neg (by simp; omega), Array.getElem?_push, if_neg (by omega), found]
      rfl
    · rw [Array.getElem?_push, if_neg (by omega), found]
      rfl

theorem slots_append (c : Constant) : (pool.append c).slots.toList = pool.slots.toList ++ c.span := by
  unfold append Constant.span
  by_cases wide : c.width = 2 <;> simp [wide]

theorem index?_append (c d : Constant) : (pool.append c).index? d =
    if Constant.order c d = .eq then some (UInt16.ofNat (pool.slots.size + 1)) else pool.index? d :=
  Std.TreeMap.getElem?_insert

theorem Valid.append (valid : pool.Valid) (room : pool.hasRoom c.width) : (pool.append c).Valid where
  found d index h := by
    rw [index?_append] at h
    split at h
    next same =>
      cases h
      rw [← Constant.eq_of_order same]
      exact get?_append_new room
    next => exact extends_append c _ _ (valid.found d index h)
  spans := by
    have kept : (pool.append c).constants = pool.constants ++ [c] := by
      rw [constants, slots_append, List.filterMap_append, Constant.filterMap_span]
      rfl
    rw [kept, slots_append, List.flatMap_append, ← valid.spans]
    simp
  room := by
    simp only [hasRoom, decide_eq_true_eq] at room
    rw [← Array.length_toList, slots_append, List.length_append, Constant.length_span, Array.length_toList]
    exact room

end ConstantPool

namespace Pooled

variable {pool later : ConstantPool} {index : UInt16}

variable (valid : pool.Valid)
include valid

theorem add_returns (h : add c pool = .ok index later) :
    later.Valid ∧ pool.Extends later ∧ later.get? index = some c := by
  unfold add at h
  split at h
  next known =>
    cases h
    exact ⟨valid, .refl pool, valid.found c _ known⟩
  next =>
    split at h
    next room =>
      cases h
      exact ⟨valid.append room, ConstantPool.extends_append c, ConstantPool.get?_append_new room⟩
    next => cases h

theorem utf8_returns (h : utf8 text pool = .ok index later) :
    later.Valid ∧ pool.Extends later ∧ later.utf8? index = some text := by
  obtain ⟨valid', grown, found⟩ := add_returns valid h
  exact ⟨valid', grown, by simp [ConstantPool.utf8?, found]⟩

theorem classRef_returns (h : classRef name pool = .ok index later) :
    later.Valid ∧ pool.Extends later ∧ later.className? index = some name := by
  simp only [classRef, bind_returns] at h
  obtain ⟨text, mid, h1, h2⟩ := h
  obtain ⟨valid1, grown1, named⟩ := utf8_returns valid h1
  obtain ⟨valid2, grown2, found⟩ := add_returns valid1 h2
  exact ⟨valid2, grown1.trans grown2, by simp [ConstantPool.className?, found, grown2.utf8? named]⟩

theorem string_returns (h : string text pool = .ok index later) :
    later.Valid ∧ pool.Extends later ∧ ∃ i, later.get? index = some (.string i) ∧ later.utf8? i = some text := by
  simp only [string, bind_returns] at h
  obtain ⟨i, mid, h1, h2⟩ := h
  obtain ⟨valid1, grown1, spelled⟩ := utf8_returns valid h1
  obtain ⟨valid2, grown2, found⟩ := add_returns valid1 h2
  exact ⟨valid2, grown1.trans grown2, i, found, grown2.utf8? spelled⟩

theorem nameAndType_returns (h : nameAndType name descriptor pool = .ok index later) :
    later.Valid ∧ pool.Extends later ∧ ∃ n d, later.get? index = some (.nameAndType n d) ∧
      later.utf8? n = some name ∧ later.utf8? d = some descriptor := by
  simp only [nameAndType, bind_returns] at h
  obtain ⟨n, mid1, h1, d, mid2, h2, h3⟩ := h
  obtain ⟨valid1, grown1, hn⟩ := utf8_returns valid h1
  obtain ⟨valid2, grown2, hd⟩ := utf8_returns valid1 h2
  obtain ⟨valid3, grown3, found⟩ := add_returns valid2 h3
  exact ⟨valid3, (grown1.trans grown2).trans grown3, n, d, found, (grown2.trans grown3).utf8? hn, grown3.utf8? hd⟩

theorem member_returns (kind : make = .fieldRef ∨ make = .methodRef ∨ make = .interfaceMethodRef)
    (h : (do add (make (← classRef owner) (← nameAndType name descriptor)) : Pooled UInt16) pool = .ok index later) :
    later.Valid ∧ pool.Extends later ∧ later.RefersTo make index owner name descriptor := by
  simp only [bind_returns] at h
  obtain ⟨a, mid1, h1, b, mid2, h2, h3⟩ := h
  obtain ⟨valid1, grown1, howner⟩ := classRef_returns valid h1
  obtain ⟨valid2, grown2, n, d, hmember, hname, hdescriptor⟩ := nameAndType_returns valid1 h2
  obtain ⟨valid3, grown3, found⟩ := add_returns valid2 h3
  refine ⟨valid3, (grown1.trans grown2).trans grown3, ⟨a, b, found⟩, ?_⟩
  refine ConstantPool.memberRef?_eq_some_iff.2 ⟨make a b, a, b, n, d, found, ?_, grown3 _ _ hmember,
    (grown2.trans grown3).className? howner, grown3.utf8? hname, grown3.utf8? hdescriptor⟩
  rcases kind with rfl | rfl | rfl <;> rfl

theorem fieldRef_returns (h : fieldRef owner name descriptor pool = .ok index later) :
    later.Valid ∧ pool.Extends later ∧ later.RefersTo .fieldRef index owner name descriptor :=
  member_returns valid (.inl rfl) h

theorem methodRef_returns (h : methodRef owner name descriptor pool = .ok index later) :
    later.Valid ∧ pool.Extends later ∧ later.RefersTo .methodRef index owner name descriptor :=
  member_returns valid (.inr (.inl rfl)) h

theorem interfaceMethodRef_returns (h : interfaceMethodRef owner name descriptor pool = .ok index later) :
    later.Valid ∧ pool.Extends later ∧ later.RefersTo .interfaceMethodRef index owner name descriptor :=
  member_returns valid (.inr (.inr rfl)) h

end Pooled

end ClassForge
