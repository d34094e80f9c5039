import ClassForge.Proofs.Steps

set_option autoImplicit false

namespace ClassForge

variable {start stop : Nat} {bindings : List Binding} {b : Binding} {s later : Slots} {name : String}
  {new : List Binding} {inner slots : Slots} {isStatic : Bool} {scope : Scope} {params : List Param}

namespace Slots

-- Bindings, latest first, that take the slots from `start` to `stop` one after the other.
inductive Stack (start : Nat) : List Binding → Nat → Prop
  | nil : Stack start [] start
  | cons {b : Binding} {rest : List Binding} {stop : Nat} (below : Stack start rest stop)
      (offset : b.offset = stop) (width : 0 < b.width) : Stack start (b :: rest) (stop + b.width)

theorem Stack.le (stack : Stack start bindings stop) : start ≤ stop := by
  induction stack with
  | nil => exact Nat.le_refl _
  | cons _ _ _ ih => omega

theorem Stack.append {mid : Nat} {lower upper : List Binding} (first : Stack start lower mid)
    (second : Stack mid upper stop) : Stack start (upper ++ lower) stop := by
  induction second with
  | nil => exact first
  | cons _ offset width ih => exact .cons ih offset width

theorem Stack.bounds (stack : Stack start bindings stop) (member : b ∈ bindings) :
    start ≤ b.offset ∧ b.offset + b.width ≤ stop ∧ 0 < b.width := by
  induction stack with
  | nil => cases member
  | cons below offset width ih =>
    have := below.le
    rcases List.mem_cons.1 member with rfl | old
    · exact ⟨by omega, by omega, width⟩
    · obtain ⟨low, high, positive⟩ := ih old
      exact ⟨low, by omega, positive⟩

theorem Stack.apart (stack : Stack start bindings stop)
    {other : Binding} (member : b ∈ bindings) (member' : other ∈ bindings) :
    b = other ∨ b.offset + b.width ≤ other.offset ∨ other.offset + other.width ≤ b.offset := by
  induction stack with
  | nil => cases member
  | cons below offset width ih =>
    rcases List.mem_cons.1 member with rfl | old <;> rcases List.mem_cons.1 member' with rfl | old'
    · exact .inl rfl
    · exact .inr (.inr (offset ▸ (below.bounds old').2.1))
    · exact .inr (.inl (offset ▸ (below.bounds old).2.1))
    · exact ih old old'

-- The slots after some names were bound on top of those there were; none of them hides another.
structure Extends (s later : Slots) : Prop where
  stack : ∃ new, later.bindings = new ++ s.bindings ∧ Stack s.size new later.size
  keeps : ∀ name b, s.lookup? name = some b → later.lookup? name = some b
  scopes : later.scopes = s.scopes
  grown : s.maxSize ≤ later.maxSize
  peak : s.size ≤ s.maxSize → later.size ≤ later.maxSize
  small : s.maxSize ≤ 65535 → later.maxSize ≤ 65535

theorem Extends.refl (s : Slots) : s.Extends s where
  stack := ⟨[], rfl, .nil⟩
  keeps := fun _ _ => id
  scopes := rfl
  grown := Nat.le_refl _
  peak := id
  small := id

theorem Extends.trans {mid : Slots} (first : s.Extends mid) (second : mid.Extends later) : s.Extends later where
  stack := by
    obtain ⟨new, bindings, stack⟩ := first.stack
    obtain ⟨new', bindings', stack'⟩ := second.stack
    exact ⟨new' ++ new, by rw [bindings', bindings, List.append_assoc], stack.append stack'⟩
  keeps := fun name b found => second.keeps name b (first.keeps name b found)
  scopes := second.scopes.trans first.scopes
  grown := Nat.le_trans first.grown second.grown
  peak := fun peak => second.peak (first.peak peak)
  small := fun small => second.small (first.small small)

theorem rewind_stack (limit : Nat) (stack : Stack limit new stop)
    (rest : List Binding) : rewind limit (new ++ rest) stop = (rest, limit) := by
  induction stack with
  | nil => cases rest <;> simp [rewind]
  | cons below offset width ih =>
    rename_i b new stop
    have := below.le
    rw [List.cons_append, rewind, if_pos (by omega), offset, ih]

theorem closeScope_of_stack (bindings : inner.bindings = new ++ s.bindings) (stack : Stack s.size new inner.size)
    (scopes : inner.scopes = s.size :: s.scopes) : inner.closeScope = { s with maxSize := inner.maxSize } := by
  simp only [closeScope, scopes, bindings]
  rw [rewind_stack s.size stack]

theorem closeScope_of_extends (grown : s.openScope.Extends inner) :
    inner.closeScope = { s with maxSize := inner.maxSize } := by
  obtain ⟨new, bindings, stack⟩ := grown.stack
  exact closeScope_of_stack bindings stack grown.scopes

theorem extends_closeScope (grown : s.openScope.Extends inner) : s.Extends inner.closeScope where
  stack := by
    rw [closeScope_of_extends grown]
    exact ⟨[], rfl, .nil⟩
  keeps := by
    rw [closeScope_of_extends grown]
    exact fun _ _ => id
  scopes := by rw [closeScope_of_extends grown]
  grown := by
    rw [closeScope_of_extends grown]
    exact grown.grown
  peak := by
    intro peak
    rw [closeScope_of_extends grown]
    exact Nat.le_trans peak grown.grown
  small := by
    rw [closeScope_of_extends grown]
    exact grown.small

theorem append_returns {label : Option String} {type : Option Descriptor} {width slot : Nat}
    (h : s.append label width type = .ok (slot, later)) :
    slot = s.size ∧ s.size + width ≤ 65535 ∧
      later = { s with
        bindings := { name := label, offset := s.size, width, descriptor := type } :: s.bindings
        size := s.size + width
        maxSize := max s.maxSize (s.size + width) } := by
  simp only [append] at h
  split_ifs at h with large
  cases h
  exact ⟨rfl, by omega, rfl⟩

theorem setFinal_latest {rest : List Binding} (latest : s.bindings = b :: rest) (named : b.name = some name) :
    s.setFinal name = { s with bindings := { b with isFinal := true } :: rest } := by
  simp [setFinal, latest, modifyLatest, named]

def row (start : Nat) : List (String × Nat) → List Binding
  | [] => []
  | (name, width) :: rest => row (start + width) rest ++ [{ name := some name, offset := start, width }]

def rowWidth (names : List (String × Nat)) : Nat :=
  (names.map (·.2)).sum

theorem foldlM_push {names : List (String × Nat)} (full : s.maxSize = s.size) (small : s.size ≤ 65535)
    (h : names.foldlM (fun s (name, width) => do return (← s.push name width).2) s = .ok later) :
    later = { s with
        bindings := row s.size names ++ s.bindings
        size := s.size + rowWidth names
        maxSize := s.size + rowWidth names } ∧ s.size + rowWidth names ≤ 65535 := by
  induction names generalizing s with
  | nil =>
    simp only [List.foldlM_nil, pure_eq_ok] at h
    subst h
    refine ⟨?_, by simpa [rowWidth] using small⟩
    obtain ⟨bindings, size, maxSize, scopes⟩ := s
    obtain rfl : maxSize = size := full
    simp [row, rowWidth]
  | cons pair rest ih =>
    obtain ⟨name, width⟩ := pair
    simp only [List.foldlM_cons, bind_eq_ok, pure_eq_ok] at h
    obtain ⟨_, ⟨⟨slot, next⟩, pushed, rfl⟩, h⟩ := h
    obtain ⟨-, fits, rfl⟩ := append_returns pushed
    have full' : max s.maxSize (s.size + width) = s.size + width := by omega
    obtain ⟨rfl, bound⟩ := ih full' fits h
    refine ⟨?_, by simpa [rowWidth, Nat.add_assoc] using bound⟩
    simp [row, rowWidth, Nat.add_assoc]

theorem ofMethod_returns {params : List (String × Nat)} (h : ofMethod isStatic params = .ok s) :
    s = { bindings := row 0 ((if isStatic then [] else [("this", 1)]) ++ params)
          size := (if isStatic then 0 else 1) + rowWidth params
          maxSize := (if isStatic then 0 else 1) + rowWidth params } ∧
      (if isStatic then 0 else 1) + rowWidth params ≤ 65535 := by
  obtain ⟨rfl, small⟩ := foldlM_push (by rfl) (Nat.zero_le _) h
  have width : rowWidth ((if isStatic then [] else [("this", 1)]) ++ params) =
      (if isStatic then 0 else 1) + rowWidth params := by
    cases isStatic <;> simp [rowWidth]
  rw [width] at small ⊢
  simpa using small

end Slots

def entrySize (isStatic : Bool) (params : List Param) : Nat :=
  (if isStatic then 0 else 1) + (params.map (·.type.slotWidth)).sum

theorem Slots.foldlM_setDescriptor
    (h : params.foldlM (fun slots p => do
      return slots.setDescriptor p.name (← scope.descriptor p.type)) slots = .ok later) :
    later.size = slots.size ∧ later.maxSize = slots.maxSize ∧ later.scopes = slots.scopes := by
  induction params generalizing slots with
  | nil =>
    simp only [List.foldlM_nil, pure_eq_ok] at h
    exact h ▸ ⟨rfl, rfl, rfl⟩
  | cons p rest ih =>
    simp only [List.foldlM_cons, bind_eq_ok, pure_eq_ok] at h
    obtain ⟨_, ⟨d, -, rfl⟩, h⟩ := h
    exact @ih (slots.setDescriptor p.name d) h

theorem Scope.paramSlots_size (h : scope.paramSlots isStatic params = .ok slots) :
    slots.size = entrySize isStatic params ∧ slots.maxSize = entrySize isStatic params ∧
      entrySize isStatic params ≤ 65535 := by
  unfold paramSlots at h
  split at h
  next => simp at h
  next start made =>
    obtain ⟨rfl, small⟩ := Slots.ofMethod_returns made
    obtain ⟨size, maxSize, -⟩ := Slots.foldlM_setDescriptor h
    have width : Slots.rowWidth (params.map fun p => (p.name, p.type.slotWidth)) =
        (params.map (·.type.slotWidth)).sum := by
      simp [Slots.rowWidth, Function.comp_def]
    dsimp only at size maxSize
    rw [width] at size maxSize small
    exact ⟨size, maxSize, small⟩

end ClassForge
