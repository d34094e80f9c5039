import ClassForge.Proofs.EntryFrames
import ClassForge.Proofs.MemberGrowth

set_option autoImplicit false

namespace ClassForge

namespace Pooled

open ConstantPool

variable {pool later : ConstantPool} {index i n t : UInt16}

theorem get?_of_add {c found : Constant} (h : add c pool = .ok index later) (present : later.get? i = some found) :
    pool.get? i = some found ∨ found = c := by
  unfold add at h
  cases known : pool.index? c with
  | some old =>
    simp only [known] at h
    cases h
    exact .inl present
  | none =>
    simp only [known] at h
    split_ifs at h with room
    cases h
    exact ((get?_append room).1 present).imp_right And.right

theorem member_of_classRef {owner : String} (h : classRef owner pool = .ok index later)
    (present : later.get? i = some (.nameAndType n t)) : pool.get? i = some (.nameAndType n t) := by
  simp only [classRef, bind_returns] at h
  obtain ⟨text, mid, named, h⟩ := h
  have before := (get?_of_add h present).resolve_right (by simp)
  exact (get?_of_add named before).resolve_right (by simp)

theorem member_of_nameAndType {name descriptor : String} (valid : pool.Valid)
    (h : nameAndType name descriptor pool = .ok index later) (present : later.get? i = some (.nameAndType n t)) :
    pool.get? i = some (.nameAndType n t) ∨ later.utf8? n = some name ∧ later.utf8? t = some descriptor := by
  simp only [nameAndType, bind_returns] at h
  obtain ⟨n', mid, named, t', mid', typed, h⟩ := h
  obtain ⟨valid1, -, name'⟩ := utf8_returns valid named
  obtain ⟨valid2, grown, type'⟩ := utf8_returns valid1 typed
  obtain ⟨-, grown', -⟩ := add_returns valid2 h
  rcases get?_of_add h present with before | same
  · have before := (get?_of_add typed before).resolve_right (by simp)
    exact .inl ((get?_of_add named before).resolve_right (by simp))
  · cases same
    exact .inr ⟨grown'.utf8? (grown.utf8? name'), grown'.utf8? type'⟩

theorem member_of_reference {make : UInt16 → UInt16 → Constant} {owner name descriptor : String}
    (other : ∀ a b, make a b ≠ .nameAndType n t) (valid : pool.Valid)
    (h : (do add (make (← classRef owner) (← nameAndType name descriptor)) : Pooled UInt16) pool = .ok index later)
    (present : later.get? i = some (.nameAndType n t)) :
    pool.get? i = some (.nameAndType n t) ∨ later.utf8? n = some name ∧ later.utf8? t = some descriptor := by
  simp only [bind_returns] at h
  obtain ⟨a, mid, owned, b, mid', named, h⟩ := h
  obtain ⟨valid1, -⟩ := classRef_returns valid owned
  obtain ⟨valid2, -⟩ := nameAndType_returns valid1 named
  obtain ⟨-, grown, -⟩ := add_returns valid2 h
  have before := (get?_of_add h present).resolve_right fun same => other a b same.symm
  rcases member_of_nameAndType valid1 named before with before | ⟨name', type'⟩
  · exact .inl (member_of_classRef owned before)
  · exact .inr ⟨grown.utf8? name', grown.utf8? type'⟩

end Pooled

namespace PoolRequest

theorem member_of_step {request : PoolRequest} {pool later : ConstantPool} {index i n t : UInt16}
    (valid : pool.Valid) (h : request.step pool = .ok index later) (present : later.get? i = some (.nameAndType n t)) :
    pool.get? i = some (.nameAndType n t) ∨
      ∃ name type, request.named? = some (name, type) ∧ later.utf8? n = some name ∧ later.utf8? t = some type := by
  cases request with
  | classRef name => exact .inl (Pooled.member_of_classRef h present)
  | string text =>
    simp only [step, Pooled.string, bind_returns] at h
    obtain ⟨_, mid, named, h⟩ := h
    have before := (Pooled.get?_of_add h present).resolve_right (by simp)
    exact .inl ((Pooled.get?_of_add named before).resolve_right (by simp))
  | nameAndType name descriptor =>
    exact (Pooled.member_of_nameAndType valid h present).imp_right fun texts => ⟨_, _, rfl, texts⟩
  | fieldRef owner name descriptor =>
    exact (Pooled.member_of_reference (by simp) valid h present).imp_right fun texts => ⟨_, _, rfl, texts⟩
  | methodRef owner name descriptor =>
    exact (Pooled.member_of_reference (by simp) valid h present).imp_right fun texts => ⟨_, _, rfl, texts⟩
  | interfaceMethodRef owner name descriptor =>
    exact (Pooled.member_of_reference (by simp) valid h present).imp_right fun texts => ⟨_, _, rfl, texts⟩
  | _ => exact .inl ((Pooled.get?_of_add h present).resolve_right (by simp))

inductive Answered : ConstantPool → List PoolRequest → ConstantPool → Prop
  | nil (pool : ConstantPool) : Answered pool [] pool
  | cons {pool mid later : ConstantPool} {request : PoolRequest} {index : UInt16} {rest : List PoolRequest}
      (first : request.step pool = .ok index mid) (more : Answered mid rest later) :
      Answered pool (request :: rest) later

namespace Answered

variable {pool mid later : ConstantPool} {requests others : List PoolRequest}

theorem append (first : Answered pool requests mid) (second : Answered mid others later) :
    Answered pool (requests ++ others) later := by
  induction first with
  | nil => exact second
  | cons first _ ih => exact .cons first (ih second)

theorem tidy (answered : Answered pool requests later) (tidy : pool.Tidy) : later.Tidy ∧ pool.Extends later := by
  induction answered with
  | nil pool => exact ⟨tidy, .refl pool⟩
  | @cons pool mid later request index rest first more ih =>
    obtain ⟨tidy', grown⟩ := request.tidies tidy
    rw [leaves_of_returns first] at tidy' grown
    obtain ⟨last, kept⟩ := ih tidy'
    exact ⟨last, grown.trans kept⟩

theorem standsAt (answered : Answered pool requests later) (tidy : pool.Tidy) :
    ∀ request ∈ requests, ∃ index, request.StandsAt later index := by
  induction answered with
  | nil => simp
  | @cons pool mid later request index rest first more ih =>
    have tidy' : mid.Tidy := leaves_of_returns first ▸ (request.tidies tidy).1
    refine List.forall_mem_cons.2 ⟨⟨index, ?_⟩, ih tidy'⟩
    exact (standsAt_of_returns tidy first).mono (more.tidy tidy').2

theorem named (answered : Answered pool requests later) (tidy : pool.Tidy) {i n t : UInt16}
    (present : later.get? i = some (.nameAndType n t)) :
    pool.get? i = some (.nameAndType n t) ∨ ∃ request ∈ requests, ∃ name type,
      request.named? = some (name, type) ∧ later.utf8? n = some name ∧ later.utf8? t = some type := by
  induction answered with
  | nil => exact .inl present
  | @cons pool mid later request index rest first more ih =>
    have tidy' : mid.Tidy := leaves_of_returns first ▸ (request.tidies tidy).1
    rcases ih tidy' present with old | ⟨other, member, found⟩
    · refine (member_of_step tidy.toValid first old).imp_right ?_
      rintro ⟨name, type, asked, name', type'⟩
      have grown := (more.tidy tidy').2
      exact ⟨request, List.mem_cons_self, name, type, asked, grown.utf8? name', grown.utf8? type'⟩
    · exact .inr ⟨other, List.mem_cons_of_mem _ member, found⟩

end Answered

end PoolRequest

theorem Scope.paramSlots_sane {scope : Scope} {isStatic : Bool} {params : List Param} {slots : Slots}
    (uses : scope.UsesNamed IsPlain) (h : scope.paramSlots isStatic params = .ok slots) : slots.IsSane := by
  intro b member d type
  obtain ⟨types, known, rows⟩ := paramSlots_bindings h
  obtain ⟨before, p, after, split, -⟩ := Slots.param_of_typed rows member type
  have typed := List.forall₂_zip (mapM_eq_ok_iff.1 known) (show (p, d) ∈ params.zip types by simp [split])
  exact erase_proper isPlain_object uses typed

variable {asks : PoolRequest → Prop} {β : Type} {R : ConstantPool → ConstantPool → Prop}

def ConstantPool.Asked (asks : PoolRequest → Prop) (pool later : ConstantPool) : Prop :=
  ∃ requests, PoolRequest.Answered pool requests later ∧ ∀ request ∈ requests, asks request

instance : IsPreorder ConstantPool (ConstantPool.Asked asks) where
  refl pool := ⟨[], .nil pool, by simp⟩
  trans := by
    rintro pool mid later ⟨requests, answered, allowed⟩ ⟨others, answered', allowed'⟩
    exact ⟨_, answered.append answered', List.forall_mem_append.2 ⟨allowed, allowed'⟩⟩

def Workspace.Asked (asks : PoolRequest → Prop) (w later : Workspace) : Prop :=
  w.pool.Asked asks later.pool

instance : IsPreorder Workspace (Workspace.Asked asks) where
  refl w := Std.Refl.refl w.pool
  trans w mid later := IsTrans.trans w.pool mid.pool later.pool

abbrev Gen.Asks {ε α : Type} (asks : PoolRequest → Prop) (x : EStateM ε Workspace α) : Prop :=
  Moves (Workspace.Asked asks) x

abbrev Build.Asks {α : Type} (asks : PoolRequest → Prop) (x : Build α) : Prop :=
  Moves (ConstantPool.Asked asks) x

namespace Gen

variable {α : Type}

theorem asks_emit (step : Emit α) : Asks asks (emit step) := by
  intro w a later h
  obtain ⟨code, run, rfl⟩ := emit_returns.1 h
  exact ⟨[], .nil _, by simp⟩

theorem asks_pooled (request : PoolRequest) (allowed : asks request) : Asks asks (pooled request.step) := by
  intro w a later h
  obtain ⟨pool, run, rfl⟩ := pooled_returns.1 h
  exact ⟨[request], .cons run (.nil _), by simpa using allowed⟩

theorem asks_then {step : Emit α} {f : α → Gen β} (next : ∀ a, Asks asks (f a)) : Asks asks (emit step >>= f) :=
  moves_bind (asks_emit step) next

theorem asks_refer (request : PoolRequest) (allowed : asks request) {f : UInt16 → Gen β}
    (next : ∀ index, Asks asks (f index)) : Asks asks (pooled request.step >>= f) :=
  moves_bind (asks_pooled request allowed) next

end Gen

namespace Build

variable {α : Type}

theorem moves_check {result : Except CompileError α}
    {f : α → Build β} (next : ∀ a, result = .ok a → Moves R (f a)) : Moves R (check result >>= f) := by
  intro pool b later h
  simp only [bind_returns, check_returns] at h
  obtain ⟨a, _, ⟨known, rfl⟩, h⟩ := h
  exact next a known pool b later h

theorem moves_located {x : Build α} (moves : Moves R x) (location : Location) : Moves R (x.located location) :=
  fun pool a later h => moves pool a later (located_returns.1 h)

theorem asks_pooled (request : PoolRequest) (allowed : asks request) : Asks asks (pooled request.step) := by
  intro pool a later h
  exact ⟨[request], .cons (pooled_returns.1 h) (.nil _), by simpa using allowed⟩

theorem asks_run {slots : Slots} {step : Lower α} (asked : Gen.Asks asks step) : Asks asks (Lower.run slots step) := by
  intro pool a later h
  obtain ⟨w, run, rfl⟩ := Lower.run_returns.1 h
  exact asked { pool, slots } a w run

end Build

end ClassForge
