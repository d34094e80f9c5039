import Mathlib
import ClassForge.Lowering.Member

set_option autoImplicit false

namespace ClassForge

variable {p : Prop}

section Chains

variable {ε σ α β : Type} {x : EStateM ε σ α} {b : β} {a : α} {e : ε} {f : α → β} {xs : List α} {ys : List β}
  {r : α → β → Prop} {s t : σ}

@[simp]
theorem bind_returns {f : α → EStateM ε σ β} : (x >>= f) s = .ok b t ↔ ∃ a u, x s = .ok a u ∧ f a u = .ok b t := by
  change EStateM.bind x f s = _ ↔ _
  unfold EStateM.bind
  cases h : x s <;> simp [and_assoc]

@[simp]
theorem pure_returns {b : α} : (pure a : EStateM ε σ α) s = .ok b t ↔ a = b ∧ s = t := by
  change EStateM.Result.ok a s = _ ↔ _
  simp

@[simp]
theorem throw_returns {b : α} : (throw e : EStateM ε σ α) s = .ok b t ↔ False := by
  change EStateM.Result.error e s = _ ↔ _
  simp

@[simp]
theorem get_returns {u : σ} : (get : EStateM ε σ σ) s = .ok u t ↔ s = u ∧ s = t := by
  change EStateM.Result.ok s s = _ ↔ _
  simp

@[simp]
theorem modify_returns {f : σ → σ} {b : PUnit} : (modify f : EStateM ε σ PUnit) s = .ok b t ↔ f s = t := by
  change EStateM.Result.ok PUnit.unit (f s) = _ ↔ _
  simp

@[simp]
theorem modifyGet_returns {f : σ → α × σ} : (modifyGet f : EStateM ε σ α) s = .ok a t ↔ (f s).1 = a ∧ (f s).2 = t := by
  change EStateM.Result.ok (f s).1 (f s).2 = _ ↔ _
  simp

@[simp]
theorem ite_returns [Decidable p] {y : EStateM ε σ α} :
    (if p then x else y) s = .ok a t ↔ (p ∧ x s = .ok a t) ∨ (¬ p ∧ y s = .ok a t) := by
  by_cases h : p <;> simp [h]

theorem guard_returns [Decidable p] {f : β → EStateM ε σ α} :
    (if p then throw e >>= f else x) s = .ok a t ↔ ¬ p ∧ x s = .ok a t := by
  by_cases h : p <;> simp [h]

@[simp]
theorem map_returns : (f <$> x) s = .ok b t ↔ ∃ a, x s = .ok a t ∧ f a = b := by
  change EStateM.map f x s = _ ↔ _
  unfold EStateM.map
  cases h : x s <;> simp [and_comm]

theorem run'_eq_some : x.run' s = some a ↔ ∃ t, x s = .ok a t := by
  unfold EStateM.run'
  cases h : x s <;> simp [EStateM.run, h]

def leaves (x : EStateM ε σ α) (s : σ) : σ :=
  match x s with
  | .ok _ t => t
  | .error _ t => t

theorem leaves_of_returns (h : x s = .ok a t) : leaves x s = t := by
  simp [leaves, h]

theorem leaves_bind (x : EStateM ε σ α) (f : α → EStateM ε σ β) (s : σ) :
    leaves (x >>= f) s = match x s with
      | .ok a t => leaves (f a) t
      | .error _ t => t := by
  unfold leaves
  change (match EStateM.bind x f s with | .ok _ t => t | .error _ t => t) = _
  unfold EStateM.bind
  cases x s <;> rfl

@[simp]
theorem bind_eq_ok {x : Except ε α} {f : α → Except ε β} : (x >>= f) = .ok b ↔ ∃ a, x = .ok a ∧ f a = .ok b := by
  cases x <;> simp [bind, Except.bind]

@[simp]
theorem map_eq_ok {x : Except ε α} : f <$> x = .ok b ↔ ∃ a, x = .ok a ∧ f a = b := by
  cases x <;> simp

@[simp]
theorem pure_eq_ok {b : α} : (pure a : Except ε α) = .ok b ↔ a = b := by
  simp [pure, Except.pure]

@[simp]
theorem throw_eq_ok : (throw e : Except ε α) = .ok a ↔ False := by
  change Except.error e = _ ↔ _
  simp

theorem toOption_eq_some {x : Except ε α} : x.toOption = some a ↔ x = .ok a := by
  cases x <;> simp [Except.toOption]

theorem exists_of_mapM_returns {f : α → EStateM ε σ β}
    (h : xs.mapM f s = .ok ys t) : ∀ y ∈ ys, ∃ x ∈ xs, ∃ s t, f x s = .ok y t := by
  induction xs generalizing ys s t with
  | nil =>
    simp only [List.mapM_nil, pure_returns] at h
    obtain ⟨rfl, -⟩ := h
    simp
  | cons x xs ih =>
    simp only [List.mapM_cons, bind_returns, pure_returns] at h
    obtain ⟨y, mid, first, ys, _, rest, rfl, -⟩ := h
    refine List.forall_mem_cons.2 ⟨⟨x, List.mem_cons_self, _, _, first⟩, fun other member => ?_⟩
    obtain ⟨x', among, found⟩ := ih rest other member
    exact ⟨x', List.mem_cons_of_mem _ among, found⟩

theorem mapM_eq_ok_iff {f : α → Except ε β} : xs.mapM f = .ok ys ↔ List.Forall₂ (fun x y => f x = .ok y) xs ys := by
  induction xs generalizing ys with
  | nil => cases ys <;> simp
  | cons x xs ih =>
    simp only [List.mapM_cons, bind_eq_ok, pure_eq_ok, ih, List.forall₂_cons_left_iff]
    constructor
    · rintro ⟨y, first, rest, tail, rfl⟩
      exact ⟨y, rest, first, tail, rfl⟩
    · rintro ⟨y, rest, first, tail, rfl⟩
      exact ⟨y, first, rest, tail, rfl⟩

theorem forM_eq_ok_iff {f : α → Except ε Unit} : xs.forM f = .ok () ↔ ∀ x ∈ xs, f x = .ok () := by
  induction xs with
  | nil => simp [List.forM, pure, Except.pure]
  | cons x xs ih =>
    change (f x >>= fun _ => xs.forM f) = .ok () ↔ _
    rw [bind_eq_ok, List.forall_mem_cons, ← ih]
    exact ⟨fun ⟨_, first, rest⟩ => ⟨first, rest⟩, fun ⟨first, rest⟩ => ⟨(), first, rest⟩⟩

theorem exists_left_of_forall₂ (pairs : List.Forall₂ r xs ys) {y : β} (member : y ∈ ys) : ∃ x ∈ xs, r x y := by
  induction pairs with
  | nil => cases member
  | cons first _ ih =>
    rcases List.mem_cons.1 member with rfl | later
    · exact ⟨_, List.mem_cons_self, first⟩
    · obtain ⟨x, among, found⟩ := ih later
      exact ⟨x, List.mem_cons_of_mem _ among, found⟩

theorem exists_right_of_forall₂ (pairs : List.Forall₂ r xs ys) {x : α} (member : x ∈ xs) : ∃ y ∈ ys, r x y :=
  exists_left_of_forall₂ pairs.flip member

theorem forall₂_comp {γ : Type} {s : β → γ → Prop}
    {zs : List γ} (first : List.Forall₂ r xs ys) (second : List.Forall₂ s ys zs) :
    List.Forall₂ (fun x z => ∃ y, r x y ∧ s y z) xs zs := by
  induction first generalizing zs with
  | nil =>
    cases second
    exact .nil
  | cons related _ ih =>
    cases second with
    | cons related' rest => exact .cons ⟨_, related, related'⟩ (ih rest)

theorem exists_of_mapM_eq_ok {f : α → Except ε β} (h : xs.mapM f = .ok ys)
    {y : β} (member : y ∈ ys) : ∃ x ∈ xs, f x = .ok y :=
  exists_left_of_forall₂ (mapM_eq_ok_iff.1 h) member

end Chains

section Moves

variable {ε σ α β : Type} {R : σ → σ → Prop} {x : EStateM ε σ α}

def Moves (R : σ → σ → Prop) (x : EStateM ε σ α) : Prop :=
  ∀ s a t, x s = .ok a t → R s t

theorem moves_throw (e : ε) : Moves R (throw e : EStateM ε σ α) := by
  intro s a t h
  cases h

theorem moves_get {f : σ → EStateM ε σ β} (each : ∀ s, Moves R (f s)) : Moves R (get >>= f) :=
  fun s => each s s

theorem moves_ite [Decidable p] {y : EStateM ε σ α} (yes : p → Moves R x) (no : ¬ p → Moves R y) :
    Moves R (if p then x else y) := by
  by_cases h : p
  · rw [if_pos h]
    exact yes h
  · rw [if_neg h]
    exact no h

theorem moves_guard [Decidable p] {e : ε} {f : PUnit → EStateM ε σ α}
    (passed : ¬ p → Moves R x) : Moves R (if p then throw e >>= f else x) :=
  moves_ite (fun _ => moves_throw e) passed

variable [IsPreorder σ R] {f : α → EStateM ε σ β} {xs : List α}

theorem moves_pure (a : α) : Moves R (pure a : EStateM ε σ α) := by
  intro s b t h
  cases h
  exact Std.Refl.refl s

theorem moves_bind_of (first : Moves R x) (second : ∀ s a t, x s = .ok a t → Moves R (f a)) : Moves R (x >>= f) := by
  intro s b t h
  obtain ⟨a, mid, run, h⟩ := bind_returns.1 h
  exact IsTrans.trans s mid t (first s a mid run) (second s a mid run mid b t h)

theorem moves_bind (first : Moves R x) (second : ∀ a, Moves R (f a)) : Moves R (x >>= f) :=
  moves_bind_of first fun _ a _ _ => second a

theorem moves_map (moves : Moves R x) (f : α → β) : Moves R (f <$> x) := by
  rw [map_eq_pure_bind]
  exact moves_bind moves fun a => moves_pure (f a)

theorem moves_mapM (each : ∀ x ∈ xs, Moves R (f x)) : Moves R (xs.mapM f) := by
  induction xs with
  | nil => exact moves_pure []
  | cons x xs ih =>
    obtain ⟨first, rest⟩ := List.forall_mem_cons.1 each
    rw [List.mapM_cons]
    exact moves_bind first fun _ => moves_bind (ih rest) fun _ => moves_pure _

theorem moves_forM {f : α → EStateM ε σ Unit} (each : ∀ x ∈ xs, Moves R (f x)) : Moves R (xs.forM f) := by
  induction xs with
  | nil => exact moves_pure ()
  | cons x xs ih =>
    obtain ⟨first, rest⟩ := List.forall_mem_cons.1 each
    exact moves_bind first fun _ => ih rest

end Moves

section Failures

variable {ε σ α β : Type} {P : ε → Prop} {f : α → EStateM ε σ β} {x : EStateM ε σ α} {xs : List α}

def FailsOnly (P : ε → Prop) (x : EStateM ε σ α) : Prop :=
  ∀ s e t, x s = .error e t → P e

theorem FailsOnly.mono {Q : ε → Prop} (only : FailsOnly P x) (weaker : ∀ e, P e → Q e) :
    FailsOnly Q x :=
  fun s e t h => weaker e (only s e t h)

theorem failsOnly_pure (a : α) : FailsOnly P (pure a : EStateM ε σ α) := by
  intro s e t h
  cases h

theorem failsOnly_throw {e : ε} (holds : P e) : FailsOnly P (throw e : EStateM ε σ α) := by
  intro s e t h
  cases h
  exact holds

theorem bind_fails {s t : σ} {e : ε} :
    (x >>= f) s = .error e t ↔ x s = .error e t ∨ ∃ a u, x s = .ok a u ∧ f a u = .error e t := by
  change EStateM.bind x f s = _ ↔ _
  unfold EStateM.bind
  cases x s <;> simp [and_assoc]

theorem failsOnly_bind (first : FailsOnly P x) (second : ∀ a, FailsOnly P (f a)) : FailsOnly P (x >>= f) := by
  intro s e t h
  rcases bind_fails.1 h with early | ⟨a, u, -, late⟩
  · exact first s e t early
  · exact second a u e t late

theorem failsOnly_map {f : α → β} (only : FailsOnly P x) : FailsOnly P (f <$> x) := by
  rw [map_eq_pure_bind]
  exact failsOnly_bind only fun a => failsOnly_pure (f a)

theorem failsOnly_ite [Decidable p] {y : EStateM ε σ α} (yes : FailsOnly P x) (no : FailsOnly P y) :
    FailsOnly P (if p then x else y) := by
  by_cases h : p
  · rwa [if_pos h]
  · rwa [if_neg h]

theorem failsOnly_mapM (each : ∀ x ∈ xs, FailsOnly P (f x)) : FailsOnly P (xs.mapM f) := by
  induction xs with
  | nil => exact failsOnly_pure []
  | cons x xs ih =>
    rw [List.mapM_cons]
    refine failsOnly_bind (each x List.mem_cons_self) fun y => failsOnly_bind (ih fun x' member => ?_) fun ys => ?_
    · exact each x' (List.mem_cons_of_mem x member)
    · exact failsOnly_pure _

theorem failsOnly_forM {f : α → EStateM ε σ Unit} (each : ∀ x ∈ xs, FailsOnly P (f x)) : FailsOnly P (xs.forM f) := by
  induction xs with
  | nil => exact failsOnly_pure ()
  | cons x xs ih =>
    change FailsOnly P (f x >>= fun _ => xs.forM f)
    exact failsOnly_bind (each x List.mem_cons_self) fun _ => ih fun x' member =>
      each x' (List.mem_cons_of_mem x member)

end Failures

@[simp]
theorem located_eq_ok {α : Type} {location : Location} {result : Except Cause α} {a : α} :
    located location result = .ok a ↔ result = .ok a := by
  cases result <;> simp [located]

namespace Gen

variable {α : Type} {w w' : Workspace} {a : α} {result : Except Cause α} {step : Gen α}
  {R : Workspace → Workspace → Prop}

@[simp]
theorem emit_returns {step : Emit α} :
    emit step w = .ok a w' ↔ ∃ code, step w.code = .ok a code ∧ { w with code } = w' := by
  obtain ⟨pool, code, slots⟩ := w
  cases h : step code <;> simp [emit, h, and_assoc]

@[simp]
theorem pooled_returns {step : Pooled α} :
    pooled step w = .ok a w' ↔ ∃ pool, step w.pool = .ok a pool ∧ { w with pool } = w' := by
  obtain ⟨pool, code, slots⟩ := w
  cases h : step pool <;> simp [pooled, h, and_assoc]

@[simp]
theorem check_returns : check result w = .ok a w' ↔ result = .ok a ∧ w = w' := by
  cases result <;> simp [check]

@[simp]
theorem located_returns {location : Location} : located location step w = .ok a w' ↔ step w = .ok a w' := by
  unfold located
  cases h : step w <;> simp

@[simp]
theorem unlocated_returns : unlocated step w = .ok a w' ↔ step w = .ok a w' := by
  unfold unlocated
  cases h : step w <;> simp

theorem moves_check {β : Type} {f : α → Gen β}
    (next : ∀ a, result = .ok a → Moves R (f a)) : Moves R (check result >>= f) := by
  intro w b later h
  simp only [bind_returns, check_returns] at h
  obtain ⟨a, _, ⟨known, rfl⟩, h⟩ := h
  exact next a known w b later h

theorem moves_located {x : Gen α} (moves : Moves R x) (location : Location) : Moves R (x.located location) :=
  fun w a later h => moves w a later (located_returns.1 h)

theorem moves_unlocated {x : Gen α} (moves : Moves R x) : Moves R x.unlocated :=
  fun w a later h => moves w a later (unlocated_returns.1 h)

end Gen

end ClassForge
