import ClassForge.Proofs.SlotStack

set_option autoImplicit false

namespace ClassForge

inductive SlotCall where
  | push (name : String) (width : Nat)
  | pushTemp (width : Nat)
  | bind (name : String) (descriptor : Descriptor)
  | pop
  | openScope
  | closeScope
  | setFinal (name : String)
  | setDescriptor (name : String) (descriptor : Descriptor)
  deriving DecidableEq

namespace SlotCall

def width? : SlotCall → Option Nat
  | push _ width | pushTemp width => some width
  | bind _ descriptor => some descriptor.width
  | _ => none

def answer (s : Slots) : SlotCall → Except CodeError Slots
  | push name width => return (← s.push name width).2
  | pushTemp width => return (← s.pushTemp width).2
  | bind name descriptor => return (← s.bind name descriptor).2
  | pop => return s.pop.2
  | openScope => return s.openScope
  | closeScope => return s.closeScope
  | setFinal name => return s.setFinal name
  | setDescriptor name descriptor => return s.setDescriptor name descriptor

def step (s : Slots) (call : SlotCall) : Slots :=
  match call.answer s with
  | .ok later => later
  | .error _ => s

def run (s : Slots) (calls : List SlotCall) : Slots :=
  calls.foldl step s

def Sized (call : SlotCall) : Prop :=
  ∀ width ∈ call.width?, width = 1 ∨ width = 2

instance (call : SlotCall) : Decidable call.Sized :=
  inferInstanceAs (Decidable (∀ width ∈ call.width?, width = 1 ∨ width = 2))

inductive Bracketed : List SlotCall → Prop
  | nil : Bracketed []
  | bound {call : SlotCall} {rest : List SlotCall} (binds : call.width?.isSome) (sized : call.Sized)
      (later : Bracketed rest) : Bracketed (call :: rest)
  | block {body rest : List SlotCall} (inner : Bracketed body) (later : Bracketed rest) :
      Bracketed (openScope :: body ++ closeScope :: rest)

end SlotCall

namespace Slots

open SlotCall

variable {start stop width : Nat} {bindings : List Binding} {b : Binding} {s : Slots}
  {call : SlotCall} {calls : List SlotCall}

theorem Stack.modifyLatest {name : String} {f : Binding → Binding}
    (keeps : ∀ b, (f b).offset = b.offset ∧ (f b).width = b.width) (stack : Stack start bindings stop) :
    Stack start (modifyLatest name f bindings) stop := by
  induction stack with
  | nil => exact .nil
  | cons below offset width ih =>
    rename_i b rest stop
    unfold Slots.modifyLatest
    split
    · rw [← (keeps b).2]
      exact .cons below ((keeps b).1.trans offset) ((keeps b).2 ▸ width)
    · exact .cons ih offset width

theorem Stack.rewind (limit : Nat) (stack : Stack 0 bindings stop) :
    Stack 0 (rewind limit bindings stop).1 (rewind limit bindings stop).2 ∧ (rewind limit bindings stop).2 ≤ stop := by
  induction stack with
  | nil => simpa [Slots.rewind] using Stack.nil
  | cons below offset width ih =>
    unfold Slots.rewind
    split
    · rw [offset]
      exact ⟨ih.1, ih.2.trans (Nat.le_add_right _ _)⟩
    · exact ⟨.cons below offset width, Nat.le_refl _⟩

def bound (s : Slots) (b : Binding) : Slots :=
  { s with
    bindings := b :: s.bindings
    size := s.size + b.width
    maxSize := max s.maxSize (s.size + b.width) }

theorem answer_of_width (s : Slots) (wants : call.width? = some width) :
    ∃ b : Binding, b.offset = s.size ∧ b.width = width ∧
      call.answer s =
        if s.size + width > 65535 then .error (.localOutOfRange (s.size + width))
        else .ok (s.bound b) := by
  have appended (name : Option String) (descriptor : Option Descriptor) :
      (return (← s.append name width descriptor).2 : Except CodeError Slots) =
        if s.size + width > 65535 then .error (.localOutOfRange (s.size + width))
        else .ok (s.bound { name, offset := s.size, width, descriptor }) := by
    simp only [append]
    split_ifs <;> rfl
  cases call <;> simp only [width?, Option.some.injEq, reduceCtorEq] at wants
  case push name _ => exact wants ▸ ⟨_, rfl, rfl, wants ▸ appended (some name) none⟩
  case pushTemp => exact wants ▸ ⟨_, rfl, rfl, wants ▸ appended none none⟩
  case bind name d => exact wants ▸ ⟨_, rfl, rfl, wants ▸ appended (some name) (some d)⟩

theorem answer_eq_error_iff {e : CodeError} :
    call.answer s = .error e ↔
      ∃ width ∈ call.width?, 65535 < s.size + width ∧ e = .localOutOfRange (s.size + width) := by
  cases wants : call.width? with
  | none => cases call <;> simp_all [width?, answer, pure, Except.pure]
  | some width =>
    obtain ⟨b, -, -, answered⟩ := answer_of_width s wants
    rw [answered]
    split_ifs with large <;> simp [large, eq_comm]

theorem step_of_width (s : Slots) (wants : call.width? = some width) :
    call.step s = s ∨ ∃ b : Binding, b.offset = s.size ∧ b.width = width ∧ s.size + width ≤ 65535 ∧
      call.step s = s.bound b := by
  obtain ⟨b, offset, wide, answered⟩ := answer_of_width s wants
  unfold step
  rw [answered]
  split_ifs with large
  · exact .inl rfl
  · exact .inr ⟨b, offset, wide, by omega, rfl⟩

structure Sound (s : Slots) : Prop where
  stack : Stack 0 s.bindings s.size
  peak : s.size ≤ s.maxSize
  small : s.maxSize ≤ 65535

theorem step_sound (sound : s.Sound) (sized : call.Sized) :
    (call.step s).Sound ∧ (call.step s).maxSize = max s.maxSize (call.step s).size := by
  obtain ⟨stack, peak, small⟩ := sound
  have same : s.maxSize = max s.maxSize s.size := (Nat.max_eq_left peak).symm
  have binds {width : Nat} (wants : call.width? = some width) :
      (call.step s).Sound ∧ (call.step s).maxSize = max s.maxSize (call.step s).size := by
    have positive := sized width wants
    obtain kept | ⟨b, offset, rfl, fits, stepped⟩ := step_of_width s wants
    · rw [kept]
      exact ⟨⟨stack, peak, small⟩, same⟩
    · rw [stepped]
      exact ⟨⟨.cons stack offset (by omega), Nat.le_max_right _ _, Nat.max_le.2 ⟨small, fits⟩⟩, rfl⟩
  cases call with
  | push | pushTemp | bind => exact binds rfl
  | openScope => exact ⟨⟨stack, peak, small⟩, same⟩
  | setFinal | setDescriptor =>
    exact ⟨⟨stack.modifyLatest fun _ => ⟨rfl, rfl⟩, peak, small⟩, same⟩
  | pop =>
    obtain ⟨bindings, size, maxSize, scopes⟩ := s
    cases stack with
    | nil => exact ⟨⟨.nil, peak, small⟩, same⟩
    | cons below offset _ =>
      subst offset
      have peak' := (Nat.le_add_right _ _).trans peak
      exact ⟨⟨below, peak', small⟩, (Nat.max_eq_left peak').symm⟩
  | closeScope =>
    obtain ⟨bindings, size, maxSize, scopes⟩ := s
    cases scopes with
    | nil => exact ⟨⟨stack, peak, small⟩, same⟩
    | cons limit scopes =>
      obtain ⟨rest, lower⟩ := stack.rewind limit
      have peak' := lower.trans peak
      exact ⟨⟨rest, peak', small⟩, (Nat.max_eq_left peak').symm⟩

def sizes (calls : List SlotCall) : Set Nat :=
  { n | ∃ before, before <+: calls ∧ (run {} before).size = n }

theorem run_sized (sized : ∀ call ∈ calls, call.Sized) :
    (run {} calls).Sound ∧ IsGreatest (sizes calls) (run {} calls).maxSize := by
  -- from the back: the last call is made on slots that are sound already
  induction calls using List.reverseRecOn with
  | nil => exact ⟨⟨.nil, Nat.le_refl _, by decide⟩, by simp [sizes, run, IsGreatest, upperBounds]⟩
  | append_singleton calls call ih =>
    obtain ⟨sound, greatest⟩ := ih fun c member => sized c (by simp [member])
    obtain ⟨sound', peak⟩ := step_sound sound (sized call (by simp))
    have snoc : run {} (calls ++ [call]) = call.step (run {} calls) := by simp [run]
    have grown : sizes (calls ++ [call]) = insert (call.step (run {} calls)).size (sizes calls) := by
      ext n
      simp [sizes, List.prefix_concat_iff, or_and_right, exists_or, snoc, eq_comm]
    rw [snoc, grown, peak, max_comm]
    exact ⟨sound', greatest.insert _⟩

def Above (s later : Slots) : Prop :=
  ∃ new, later.bindings = new ++ s.bindings ∧ Stack s.size new later.size ∧ later.scopes = s.scopes

theorem Above.trans {mid later : Slots} (first : s.Above mid) (second : mid.Above later) : s.Above later := by
  obtain ⟨new, bindings, stack, scopes⟩ := first
  obtain ⟨new', bindings', stack', scopes'⟩ := second
  exact ⟨new' ++ new, by rw [bindings', bindings, List.append_assoc], stack.append stack', scopes'.trans scopes⟩

theorem Above.closed {inner : Slots} (above : s.openScope.Above inner) :
    inner.closeScope = { s with maxSize := inner.maxSize } := by
  obtain ⟨new, bindings, stack, scopes⟩ := above
  exact closeScope_of_stack bindings stack scopes

theorem run_block (s : Slots) (body rest : List SlotCall) :
    run s (.openScope :: body ++ .closeScope :: rest) = run (run s.openScope body).closeScope rest := by
  simp only [run, List.cons_append, List.foldl_cons, List.foldl_append]
  rfl

theorem run_bracketed {body : List SlotCall} (bracketed : Bracketed body) (s : Slots) : s.Above (run s body) := by
  induction bracketed generalizing s with
  | nil => exact ⟨[], rfl, .nil, rfl⟩
  | @bound call _ binds sized _ ih =>
    obtain ⟨width, wants⟩ := Option.isSome_iff_exists.1 binds
    have positive := sized width wants
    have first : s.Above (call.step s) := by
      obtain kept | ⟨b, offset, rfl, -, stepped⟩ := step_of_width s wants
      · exact ⟨[], by rw [kept]; rfl, by rw [kept]; exact .nil, by rw [kept]⟩
      · rw [stepped]
        exact ⟨[b], rfl, .cons .nil offset (by omega), rfl⟩
    exact first.trans (ih _)
  | block _ _ inner later =>
    rw [run_block, (inner s.openScope).closed]
    exact later _

theorem allocation {body : List SlotCall} (sized : ∀ call ∈ calls, call.Sized)
    (made : run {} calls = s) (bracketed : Bracketed body) :
    Stack 0 s.bindings s.size ∧ IsGreatest (sizes calls) s.maxSize ∧ s.maxSize ≤ 65535 ∧
      (∀ (call : SlotCall) (e : CodeError), call.answer s = .error e ↔
        ∃ width ∈ call.width?, 65535 < s.size + width ∧ e = .localOutOfRange (s.size + width)) ∧
      (∀ (call : SlotCall) (e : CodeError), call.answer s = .error e → run s [call] = s) ∧
      ∀ after, run s (.openScope :: body ++ [.closeScope]) = after →
        after.bindings = s.bindings ∧ after.size = s.size ∧ after.scopes = s.scopes ∧
          ∀ name, after.lookup? name = s.lookup? name := by
  subst made
  obtain ⟨⟨stack, -, small⟩, greatest⟩ := run_sized sized
  refine ⟨stack, greatest, small, fun _ _ => answer_eq_error_iff, fun call e failed => ?_, ?_⟩
  · simp only [run, List.foldl_cons, List.foldl_nil, step] at failed ⊢
    rw [failed]
  · rintro after rfl
    rw [run_block, (run_bracketed bracketed _).closed]
    exact ⟨rfl, rfl, rfl, fun _ => rfl⟩

theorem allocation_hidden :
    IsGreatest (sizes [.push "x" 2, .push "y" 1, .pop]) 3 ∧
      ∀ name, (run {} [.push "x" 2, .push "y" 1, .pop, .openScope, .push "x" 1, .openScope,
          .pushTemp 2, .closeScope, .closeScope]).lookup? name =
        (run {} [.push "x" 2]).lookup? name := by
  have body : Bracketed [.push "x" 1, .openScope, .pushTemp 2, .closeScope] :=
    .bound rfl (by decide) (.block (.bound rfl (by decide) .nil) .nil)
  have sized : ∀ call ∈ [SlotCall.push "x" 2, .push "y" 1, .pop], call.Sized := by decide
  obtain ⟨-, greatest, -, -, -, block⟩ := allocation sized rfl body
  exact ⟨greatest, (block _ rfl).2.2.2⟩

end Slots

end ClassForge
