import ClassForge.Proofs.Constants
import ClassForge.Verify

set_option autoImplicit false

namespace ClassForge

namespace Constant

theorem gap_in_spans (cs : List Constant) (i : Nat) :
    (cs.flatMap span)[i]? = some none ↔ ∃ c j, i = j + 1 ∧ (cs.flatMap span)[j]? = some (some c) ∧ c.width = 2 := by
  induction cs generalizing i with
  | nil => simp
  | cons first rest ih =>
    rw [List.flatMap_cons]
    -- Only the last slot of `first` can stand right before the rest, and it is wide only if it is no constant.
    by_cases wide : first.width = 2
    · have cut : first.span = [some first, none] := by rw [span, if_pos wide]
      rw [cut]
      match i with
      | 0 => simp
      | 1 => simp [wide]
      | i + 2 =>
        have shifted := ih i
        simp only [List.cons_append, List.nil_append, List.getElem?_cons_succ, shifted]
        constructor
        · rintro ⟨c, j, rfl, found, two⟩
          exact ⟨c, j + 2, rfl, by simpa using found, two⟩
        · rintro ⟨c, j, same, found, two⟩
          match j with
          | 0 => simp at same
          | 1 => simp at found
          | j + 2 => exact ⟨c, j, by omega, by simpa using found, two⟩
    · have cut : first.span = [some first] := by rw [span, if_neg wide]
      rw [cut]
      match i with
      | 0 => simp
      | i + 1 =>
        have shifted := ih i
        simp only [List.cons_append, List.nil_append, List.getElem?_cons_succ, shifted]
        constructor
        · rintro ⟨c, j, rfl, found, two⟩
          exact ⟨c, j + 1, rfl, by simpa using found, two⟩
        · rintro ⟨c, j, same, found, two⟩
          match j with
          | 0 =>
            obtain rfl : first = c := by simpa using found
            exact absurd two wide
          | j + 1 => exact ⟨c, j, by omega, by simpa using found, two⟩

end Constant

variable {index : UInt16} {c : Constant} {isKind : Constant → Bool}

namespace ConstantPool

variable {pool later : ConstantPool}

def HasKind (pool : ConstantPool) (isKind : Constant → Bool) (index : UInt16) : Prop :=
  ∃ c, pool.get? index = some c ∧ isKind c = true

theorem Extends.hasKind (grown : pool.Extends later) (h : pool.HasKind isKind index) : later.HasKind isKind index := by
  obtain ⟨c, found, kind⟩ := h
  exact ⟨c, grown _ _ found, kind⟩

def Linked (pool : ConstantPool) : Constant → Prop
  | .classRef name => pool.HasKind Constant.isUtf8 name
  | .string text => pool.HasKind Constant.isUtf8 text
  | .nameAndType name descriptor =>
    pool.HasKind Constant.isUtf8 name ∧ pool.HasKind Constant.isUtf8 descriptor
  | .fieldRef owner member
  | .methodRef owner member
  | .interfaceMethodRef owner member =>
    pool.HasKind Constant.isClassRef owner ∧ pool.HasKind Constant.isNameAndType member
  | .utf8 _ | .integer _ | .float _ | .long _ | .double _ => True

theorem Extends.linked (grown : pool.Extends later) (h : pool.Linked c) : later.Linked c := by
  cases c with
  | classRef name | string text => exact grown.hasKind h
  | nameAndType name descriptor | fieldRef owner member | methodRef owner member | interfaceMethodRef owner member =>
    exact h.imp grown.hasKind grown.hasKind
  | _ => trivial

theorem checkTarget_eq_ok {owner : Nat} {target : UInt16} :
    pool.checkTarget owner target isKind = .ok () ↔ pool.HasKind isKind target := by
  unfold checkTarget HasKind
  cases pool.get? target with
  | none => simp
  | some c => cases h : isKind c <;> simp [require, h]

theorem checkEntry_eq_ok {index : Nat} : pool.checkEntry index c = .ok () ↔ pool.Linked c := by
  cases c <;> simp [checkEntry, checkEntry.checkMember, Linked, Unique.exists_iff, checkTarget_eq_ok]

theorem get?_eq_some_iff :
    pool.get? index = some c ↔ 0 < index.toNat ∧ pool.slots[index.toNat - 1]? = some (some c) := by
  have zero : index = 0 ↔ ¬ 0 < index.toNat := by
    rw [← UInt16.toNat_inj]
    simp
  unfold get?
  by_cases h : index = 0
  · simp [h]
  · rw [if_neg h, Option.join_eq_some_iff]
    simp [not_not.1 (mt zero.2 h)]

-- The table of indices knows all that is in the slots, and what a constant names is there.
structure Tidy (pool : ConstantPool) : Prop extends pool.Valid where
  indexed : ∀ c index, pool.get? index = some c → pool.index? c = some index
  linked : ∀ c index, pool.get? index = some c → pool.Linked c

theorem Tidy.known (tidy : pool.Tidy) (c : Constant) (index : UInt16) :
    pool.index? c = some index ↔ pool.get? index = some c :=
  ⟨tidy.found c index, tidy.indexed c index⟩

theorem tidy_empty : Tidy {} where
  toValid := valid_empty
  indexed := by simp [get?_eq_some_iff]
  linked := by simp [get?_eq_some_iff]

theorem toNat_lastIndex {width : Nat} (room : pool.hasRoom width) :
    (UInt16.ofNat (pool.slots.size + 1)).toNat = pool.slots.size + 1 := by
  simp only [hasRoom, decide_eq_true_eq] at room
  rw [UInt16.toNat_ofNat']
  exact Nat.mod_eq_of_lt (by omega)

theorem get?_append {d : Constant} (room : pool.hasRoom c.width) :
    (pool.append c).get? index = some d ↔
      pool.get? index = some d ∨ (index = UInt16.ofNat (pool.slots.size + 1) ∧ d = c) := by
  constructor
  · intro found
    obtain ⟨positive, found⟩ := get?_eq_some_iff.1 found
    rw [← Array.getElem?_toList, slots_append, List.getElem?_append, Array.length_toList] at found
    split at found
    next old => exact .inl (get?_eq_some_iff.2 ⟨positive, by rwa [Array.getElem?_toList] at found⟩)
    next new =>
      -- Of the slots that are added only the first holds a constant.
      have first : index.toNat - 1 - pool.slots.size = 0 ∧ d = c := by
        generalize index.toNat - 1 - pool.slots.size = i at found
        unfold Constant.span at found
        split at found
        · match i with
          | 0 => exact ⟨rfl, by simpa using found.symm⟩
          | 1 => simp at found
          | i + 2 => simp at found
        · match i with
          | 0 => exact ⟨rfl, by simpa using found.symm⟩
          | i + 1 => simp at found
      refine .inr ⟨?_, first.2⟩
      apply UInt16.toNat.inj
      rw [toNat_lastIndex room]
      omega
  · rintro (old | ⟨rfl, rfl⟩)
    · exact extends_append c _ _ old
    · exact get?_append_new room

theorem Tidy.append (tidy : pool.Tidy) (room : pool.hasRoom c.width)
    (new : pool.index? c = none) (linked : pool.Linked c) : (pool.append c).Tidy where
  toValid := tidy.toValid.append room
  indexed d index found := by
    rw [index?_append]
    rcases (get?_append room).1 found with old | ⟨rfl, rfl⟩
    · have known := tidy.indexed d index old
      rw [if_neg, known]
      intro same
      rw [← Constant.eq_of_order same, new] at known
      cases known
    · rw [if_pos Std.ReflCmp.compare_self]
  linked d index found := by
    rcases (get?_append room).1 found with old | ⟨-, rfl⟩
    · exact (extends_append c).linked (tidy.linked d index old)
    · exact (extends_append d).linked linked

theorem Tidy.gap (tidy : pool.Tidy) (i : Nat) :
    pool.slots[i]? = some none ↔ ∃ c j, i = j + 1 ∧ pool.slots[j]? = some (some c) ∧ c.width = 2 := by
  simp only [← Array.getElem?_toList, tidy.spans]
  exact Constant.gap_in_spans _ _

theorem Tidy.distinct (tidy : pool.Tidy) {i j : UInt16} (first : pool.get? i = some c)
    (second : pool.get? j = some c) : i = j := by
  rw [← tidy.known] at first second
  exact Option.some_inj.1 (first.symm.trans second)

theorem mem_entries {i : Nat} : (i, c) ∈ pool.entries ↔ 0 < i ∧ pool.slots[i - 1]? = some (some c) := by
  simp only [entries, List.mem_filterMap, Option.map_eq_some_iff, Prod.mk.injEq, Prod.exists]
  constructor
  · rintro ⟨slot, index, among, d, rfl, rfl, rfl⟩
    obtain ⟨low, found⟩ := List.mk_mem_zipIdx_iff_le_and_getElem?_sub.1 among
    exact ⟨low, by simpa using found⟩
  · rintro ⟨positive, found⟩
    refine ⟨some c, i, ?_, c, rfl, rfl, rfl⟩
    exact List.mk_mem_zipIdx_iff_le_and_getElem?_sub.2 ⟨positive, by simpa using found⟩

theorem Tidy.verify (tidy : pool.Tidy) : pool.verify = .ok () := by
  have small : pool.count ≤ 65535 := tidy.room
  simp only [ConstantPool.verify, bind_eq_ok]
  refine ⟨(), by simp [require, small], forM_eq_ok_iff.2 ?_⟩
  rintro ⟨i, c⟩ among
  rw [mem_entries] at among
  have inside : i - 1 < pool.slots.size := (Array.getElem?_eq_some_iff.1 among.2).1
  have room := tidy.room
  have index : (UInt16.ofNat i).toNat = i := by
    rw [UInt16.toNat_ofNat']
    exact Nat.mod_eq_of_lt (by omega)
  exact checkEntry_eq_ok.2 (tidy.linked c (UInt16.ofNat i) (get?_eq_some_iff.2 (by rwa [index])))

end ConstantPool

variable {text : String} {make : UInt16 → UInt16 → Constant}

namespace Pooled

open ConstantPool

def Tidies {α : Type} (step : Pooled α) (pool : ConstantPool) : Prop :=
  (leaves step pool).Tidy ∧ pool.Extends (leaves step pool)

variable {α β : Type} {pool later : ConstantPool} {index : UInt16}

theorem tidies_bind {step : Pooled α} {next : α → Pooled β} (first : step.Tidies pool)
    (rest : ∀ a mid, step pool = .ok a mid → mid.Tidy → (next a).Tidies mid) :
    (step >>= next : Pooled β).Tidies pool := by
  unfold Tidies at *
  rw [leaves_bind]
  cases run : step pool with
  | ok a mid =>
    rw [leaves_of_returns run] at first
    obtain ⟨tidy, grown⟩ := rest a mid run first.1
    exact ⟨tidy, first.2.trans grown⟩
  | error e mid => simpa only [leaves, run] using first

theorem tidies_add (tidy : pool.Tidy) (linked : pool.Linked c) : (add c).Tidies pool := by
  unfold Tidies leaves add
  cases known : pool.index? c with
  | some index => exact ⟨tidy, .refl pool⟩
  | none =>
    by_cases room : pool.hasRoom c.width
    · simpa [room] using And.intro (tidy.append room known linked) (extends_append c)
    · simpa [room] using And.intro tidy (.refl pool)

theorem tidies_utf8 (text : String) (tidy : pool.Tidy) : (utf8 text).Tidies pool :=
  tidies_add tidy trivial

theorem hasKind_utf8 (tidy : pool.Tidy) (h : utf8 text pool = .ok index later) : later.HasKind Constant.isUtf8 index :=
  ⟨_, (add_returns tidy.toValid h).2.2, rfl⟩

theorem tidies_classRef (name : String) (tidy : pool.Tidy) : (classRef name).Tidies pool :=
  tidies_bind (tidies_utf8 name tidy) fun _ _ run tidy' => tidies_add tidy' (hasKind_utf8 tidy run)

theorem tidies_string (text : String) (tidy : pool.Tidy) : (string text).Tidies pool :=
  tidies_bind (tidies_utf8 text tidy) fun _ _ run tidy' => tidies_add tidy' (hasKind_utf8 tidy run)

theorem tidies_nameAndType (name descriptor : String) (tidy : pool.Tidy) :
    (nameAndType name descriptor).Tidies pool := by
  refine tidies_bind (tidies_utf8 name tidy) fun n mid hname tidy1 => ?_
  refine tidies_bind (tidies_utf8 descriptor tidy1) fun d mid' hdescriptor tidy2 => ?_
  have grown : mid.Extends mid' := (utf8_returns tidy1.toValid hdescriptor).2.1
  exact tidies_add tidy2 ⟨grown.hasKind (hasKind_utf8 tidy hname), hasKind_utf8 tidy1 hdescriptor⟩

theorem tidies_member (owner name descriptor : String)
    (kind : make = .fieldRef ∨ make = .methodRef ∨ make = .interfaceMethodRef) (tidy : pool.Tidy) :
    (do add (make (← classRef owner) (← nameAndType name descriptor)) : Pooled UInt16).Tidies pool := by
  refine tidies_bind (tidies_classRef owner tidy) fun a mid howner tidy1 => ?_
  refine tidies_bind (tidies_nameAndType name descriptor tidy1) fun b mid' hmember tidy2 => ?_
  obtain ⟨-, grown, n, d, member, -⟩ := nameAndType_returns tidy1.toValid hmember
  have names : mid.HasKind Constant.isClassRef a := by
    simp only [classRef, bind_returns] at howner
    obtain ⟨text, mid0, h1, h2⟩ := howner
    exact ⟨_, (add_returns (utf8_returns tidy.toValid h1).1 h2).2.2, rfl⟩
  refine tidies_add tidy2 ?_
  have linked := And.intro (grown.hasKind names) (⟨_, member, rfl⟩ : mid'.HasKind Constant.isNameAndType b)
  rcases kind with rfl | rfl | rfl <;> exact linked

theorem add_again (tidy : pool.Tidy) (found : pool.get? index = some c) : add c pool = .ok index pool := by
  simp [add, (tidy.known c index).2 found]

end Pooled

inductive PoolRequest where
  | utf8 (text : String)
  | integer (value : Int32)
  | float (bits : UInt32)
  | long (value : Int64)
  | double (bits : UInt64)
  | classRef (name : String)
  | string (text : String)
  | nameAndType (name descriptor : String)
  | fieldRef (owner name descriptor : String)
  | methodRef (owner name descriptor : String)
  | interfaceMethodRef (owner name descriptor : String)

variable {request : PoolRequest}

namespace PoolRequest

open ConstantPool

def step : PoolRequest → Pooled UInt16
  | .utf8 text => .utf8 text
  | .integer value => .add (.integer value)
  | .float bits => .add (.float bits)
  | .long value => .add (.long value)
  | .double bits => .add (.double bits)
  | .classRef name => .classRef name
  | .string text => .string text
  | .nameAndType name descriptor => .nameAndType name descriptor
  | .fieldRef owner name descriptor => .fieldRef owner name descriptor
  | .methodRef owner name descriptor => .methodRef owner name descriptor
  | .interfaceMethodRef owner name descriptor => .interfaceMethodRef owner name descriptor

def runFrom : ConstantPool → List PoolRequest → ConstantPool
  | pool, [] => pool
  | pool, request :: rest => runFrom (leaves request.step pool) rest

def run (requests : List PoolRequest) : ConstantPool :=
  runFrom {} requests

def StandsAt (pool : ConstantPool) (index : UInt16) : PoolRequest → Prop
  | .utf8 text => pool.utf8? index = some text
  | .integer value => pool.get? index = some (.integer value)
  | .float bits => pool.get? index = some (.float bits)
  | .long value => pool.get? index = some (.long value)
  | .double bits => pool.get? index = some (.double bits)
  | .classRef name => pool.className? index = some name
  | .string text => ∃ i, pool.get? index = some (.string i) ∧ pool.utf8? i = some text
  | .nameAndType name descriptor => ∃ n d, pool.get? index = some (.nameAndType n d) ∧
      pool.utf8? n = some name ∧ pool.utf8? d = some descriptor
  | .fieldRef owner name descriptor => pool.RefersTo .fieldRef index owner name descriptor
  | .methodRef owner name descriptor => pool.RefersTo .methodRef index owner name descriptor
  | .interfaceMethodRef owner name descriptor => pool.RefersTo .interfaceMethodRef index owner name descriptor

variable {pool later : ConstantPool} {index : UInt16}

theorem tidies (request : PoolRequest) (tidy : pool.Tidy) : request.step.Tidies pool := by
  cases request with
  | utf8 text => exact Pooled.tidies_utf8 text tidy
  | integer value | float bits | long value | double bits => exact Pooled.tidies_add tidy trivial
  | classRef name => exact Pooled.tidies_classRef name tidy
  | string text => exact Pooled.tidies_string text tidy
  | nameAndType name descriptor => exact Pooled.tidies_nameAndType name descriptor tidy
  | fieldRef owner name descriptor => exact Pooled.tidies_member owner name descriptor (.inl rfl) tidy
  | methodRef owner name descriptor =>
    exact Pooled.tidies_member owner name descriptor (.inr (.inl rfl)) tidy
  | interfaceMethodRef owner name descriptor =>
    exact Pooled.tidies_member owner name descriptor (.inr (.inr rfl)) tidy

theorem runFrom_tidy (requests : List PoolRequest) (tidy : pool.Tidy) :
    (runFrom pool requests).Tidy ∧ pool.Extends (runFrom pool requests) := by
  induction requests generalizing pool with
  | nil => exact ⟨tidy, .refl pool⟩
  | cons request rest ih =>
    obtain ⟨tidy', grown⟩ := request.tidies tidy
    obtain ⟨last, kept⟩ := ih tidy'
    exact ⟨last, grown.trans kept⟩

theorem run_tidy (requests : List PoolRequest) : (run requests).Tidy :=
  (runFrom_tidy requests tidy_empty).1

theorem StandsAt.mono (grown : pool.Extends later) (h : request.StandsAt pool index) :
    request.StandsAt later index := by
  cases request with
  | utf8 text => exact grown.utf8? h
  | classRef name => exact grown.className? h
  | string text =>
    obtain ⟨i, found, named⟩ := h
    exact ⟨i, grown _ _ found, grown.utf8? named⟩
  | nameAndType name descriptor =>
    obtain ⟨n, d, found, named, typed⟩ := h
    exact ⟨n, d, grown _ _ found, grown.utf8? named, grown.utf8? typed⟩
  | fieldRef owner name descriptor | methodRef owner name descriptor | interfaceMethodRef owner name descriptor =>
    exact grown.refersTo h
  | _ => exact grown _ _ h

theorem step_returns (valid : pool.Valid) (h : request.step pool = .ok index later) :
    later.Valid ∧ pool.Extends later ∧ request.StandsAt later index := by
  cases request with
  | utf8 text => exact Pooled.utf8_returns valid h
  | classRef name => exact Pooled.classRef_returns valid h
  | string text =>
    simp only [step, Pooled.string, bind_returns] at h
    obtain ⟨i, mid, first, second⟩ := h
    obtain ⟨valid, grown, named⟩ := Pooled.utf8_returns valid first
    obtain ⟨valid', grown', found⟩ := Pooled.add_returns valid second
    exact ⟨valid', grown.trans grown', i, found, grown'.utf8? named⟩
  | nameAndType name descriptor => exact Pooled.nameAndType_returns valid h
  | fieldRef owner name descriptor => exact Pooled.fieldRef_returns valid h
  | methodRef owner name descriptor => exact Pooled.methodRef_returns valid h
  | interfaceMethodRef owner name descriptor => exact Pooled.interfaceMethodRef_returns valid h
  | _ => exact Pooled.add_returns valid h

theorem standsAt_of_returns (tidy : pool.Tidy)
    (h : request.step pool = .ok index later) : request.StandsAt later index :=
  (step_returns tidy.toValid h).2.2

end PoolRequest

variable {name : String}

namespace ConstantPool

variable {pool : ConstantPool} {index : UInt16}

theorem utf8?_eq_some_iff : pool.utf8? index = some text ↔ pool.get? index = some (.utf8 text) := by
  unfold utf8?
  split
  next found => simp [found]
  next other =>
    simp only [reduceCtorEq, false_iff]
    exact fun found => other text found

theorem className?_eq_some_iff :
    pool.className? index = some name ↔ ∃ i, pool.get? index = some (.classRef i) ∧ pool.utf8? i = some name := by
  unfold className?
  split
  next found => simp [found]
  next other =>
    simp only [reduceCtorEq, false_iff]
    rintro ⟨i, found, -⟩
    exact other i found

end ConstantPool

namespace Pooled

open ConstantPool

variable {pool : ConstantPool} {index : UInt16}

theorem utf8_again (tidy : pool.Tidy) (found : pool.utf8? index = some text) : utf8 text pool = .ok index pool :=
  add_again tidy (utf8?_eq_some_iff.1 found)

theorem classRef_again (tidy : pool.Tidy) (found : pool.className? index = some name) :
    classRef name pool = .ok index pool := by
  obtain ⟨i, found, named⟩ := className?_eq_some_iff.1 found
  simp only [classRef, bind_returns]
  exact ⟨i, pool, utf8_again tidy named, add_again tidy found⟩

theorem nameAndType_again {n d : UInt16} {descriptor : String} (tidy : pool.Tidy)
    (found : pool.get? index = some (.nameAndType n d)) (named : pool.utf8? n = some name)
    (typed : pool.utf8? d = some descriptor) : nameAndType name descriptor pool = .ok index pool := by
  simp only [nameAndType, bind_returns]
  exact ⟨n, pool, utf8_again tidy named, d, pool, utf8_again tidy typed, add_again tidy found⟩

theorem member_again {owner descriptor : String}
    (kind : make = .fieldRef ∨ make = .methodRef ∨ make = .interfaceMethodRef) (tidy : pool.Tidy)
    (found : pool.RefersTo make index owner name descriptor) :
    (do add (make (← classRef owner) (← nameAndType name descriptor)) : Pooled UInt16) pool = .ok index pool := by
  obtain ⟨⟨a, b, here⟩, names⟩ := found
  obtain ⟨c, a', b', n, d, here', pair, member, owned, named, typed⟩ := memberRef?_eq_some_iff.1 names
  obtain rfl : make a b = c := by simpa [here] using here'
  obtain ⟨rfl, rfl⟩ : a = a' ∧ b = b' := by rcases kind with rfl | rfl | rfl <;> simpa [Constant.member?] using pair
  simp only [bind_returns]
  exact ⟨a, pool, classRef_again tidy owned, b, pool, nameAndType_again tidy member named typed, add_again tidy here⟩

end Pooled

theorem PoolRequest.again {pool : ConstantPool} (tidy : pool.Tidy)
    (found : request.StandsAt pool index) : request.step pool = .ok index pool := by
  cases request with
  | utf8 text => exact Pooled.utf8_again tidy found
  | classRef name => exact Pooled.classRef_again tidy found
  | string text =>
    obtain ⟨i, found, named⟩ := found
    simp only [step, Pooled.string, bind_returns]
    exact ⟨i, pool, Pooled.utf8_again tidy named, Pooled.add_again tidy found⟩
  | nameAndType name descriptor =>
    obtain ⟨n, d, found, named, typed⟩ := found
    exact Pooled.nameAndType_again tidy found named typed
  | fieldRef owner name descriptor => exact Pooled.member_again (.inl rfl) tidy found
  | methodRef owner name descriptor => exact Pooled.member_again (.inr (.inl rfl)) tidy found
  | interfaceMethodRef owner name descriptor => exact Pooled.member_again (.inr (.inr rfl)) tidy found
  | _ => exact Pooled.add_again tidy found

structure ConstantPool.Sound (pool : ConstantPool) : Prop where
  small : pool.count ≤ 65535
  -- A slot is empty exactly when a long or double constant stands right before it.
  gap : ∀ i, pool.slots[i]? = some none ↔ ∃ c j, i = j + 1 ∧ pool.slots[j]? = some (some c) ∧ c.width = 2
  distinct : ∀ i j c, pool.get? i = some c → pool.get? j = some c → i = j
  -- Asking again gives the index that is there, however full the pool is.
  again : ∀ (request : PoolRequest) index, request.StandsAt pool index → request.step pool = .ok index pool
  -- An index that was given stands for what was asked, whatever is asked later.
  lasting : ∀ (request : PoolRequest) index later more, request.step pool = .ok index later →
    request.StandsAt (PoolRequest.runFrom later more) index
  kept : ∀ index c more, pool.get? index = some c → (PoolRequest.runFrom pool more).get? index = some c
  linked : ∀ index c, pool.get? index = some c → pool.Linked c
  accepted : ∀ file : ClassFile, file.pool = pool → file.pool.verify = .ok ()

theorem PoolRequest.run_sound (requests : List PoolRequest) : (run requests).Sound where
  small := (run_tidy requests).room
  gap := (run_tidy requests).gap
  distinct _ _ _ := (run_tidy requests).distinct
  again _ _ := again (run_tidy requests)
  lasting request index later more run := by
    have tidy := run_tidy requests
    have given := standsAt_of_returns tidy run
    have tidy' : later.Tidy := leaves_of_returns run ▸ (request.tidies tidy).1
    exact given.mono (runFrom_tidy more tidy').2
  kept index c more := (runFrom_tidy more (run_tidy requests)).2 index c
  linked index c := (run_tidy requests).linked c index
  accepted file same := same ▸ (run_tidy requests).verify

end ClassForge
