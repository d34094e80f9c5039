import ClassForge.Proofs.NameUses
import ClassForge.Proofs.Typing

set_option autoImplicit false

namespace ClassForge

open CodeBuffer (arrival position)

namespace CodeBuffer

-- Labels stand somewhere unless they are pending, jumps lead to labels that there are, and the stack is never
-- deeper than can be counted.
structure Settled (pending : List Label) (b : CodeBuffer) : Prop extends b.Deep where
  placed : ∀ label : Label, label.index < b.labels.size → label ∉ pending → (position b.labels label).isSome = true
  known : ∀ label ∈ pending, label.index < b.labels.size
  jumps : ∀ fixup ∈ b.fixups.toList, fixup.label.index < b.labels.size
  small : b.maxDepth ≤ 65535

namespace Settled

variable {pending : List Label} {b later : CodeBuffer} {opcode : Opcode} {pops pushes : Nat}

theorem empty : Settled [] {} where
  placed := by simp
  known := by simp
  jumps := by simp
  depth := Nat.le_refl 0
  arrivals := by simp [arrival]
  small := Nat.zero_le _

theorem writes {item : Item} (settled : b.Settled pending) (known : ∀ label ∈ item.targets, label ∈ pending)
    (written : Written item pops pushes b later) : later.Settled pending := by
  rcases written with ⟨-, rfl⟩ | writes
  · exact settled
  have size : later.labels.size = b.labels.size := by rw [writes.labels, size_foldl_arriveAt]
  have peak := writes.peak settled.depth
  refine ⟨settled.toDeep.reach writes.labels ((Nat.sub_le _ _).trans (settled.depth.trans writes.grown))
    writes.grown peak,
    fun label old free => ?_, size ▸ settled.known, fun fixup member => ?_, writes.small settled.small⟩
  · rw [writes.labels, position_foldl_arriveAt]
    exact settled.placed label (size ▸ old) free
  · rw [size]
    rw [writes.adds.fixups, List.mem_append] at member
    rcases member with member | member
    · exact settled.jumps fixup member
    · have jump := List.mem_map_of_mem (f := fun f : Fixup => (f.opcodePc, f.label)) member
      rw [Item.jumps_chunks, List.mem_map] at jump
      obtain ⟨label, among, same⟩ := jump
      have own : label = fixup.label := congrArg Prod.snd same
      exact settled.known _ (known _ (own ▸ among))

theorem withLabel (settled : b.Settled pending) : b.withLabel.Settled (⟨b.labels.size⟩ :: pending) where
  toDeep := settled.toDeep.withLabel
  placed := by
    intro label old free
    rw [size_withLabel] at old
    rw [position_withLabel]
    refine settled.placed label ?_ fun member => free (List.mem_cons_of_mem _ member)
    have other : label.index ≠ b.labels.size := by
      intro same
      exact free (List.mem_cons.2 (.inl (by cases label; simp_all)))
    omega
  known := by
    rw [List.forall_mem_cons, size_withLabel]
    exact ⟨Nat.lt_succ_self _, fun label member => Nat.lt_succ_of_lt (settled.known label member)⟩
  jumps := by
    intro fixup member
    rw [size_withLabel]
    exact Nat.lt_succ_of_lt (settled.jumps fixup member)
  small := settled.small

theorem swap {first second : Label} (settled : b.Settled (first :: second :: pending)) :
    b.Settled (second :: first :: pending) :=
  { settled with
    placed := fun label old free => settled.placed label old fun member => free ((List.Perm.swap ..).mem_iff.1 member)
    known := fun label member => settled.known label ((List.Perm.swap ..).mem_iff.1 member) }

theorem place {label : Label} (settled : b.Settled (label :: pending)) : (b.place label).Settled pending := by
  have own := settled.known label List.mem_cons_self
  have size := size_place b label
  have same : (b.place label).maxDepth = b.maxDepth ∧ (b.place label).fixups = b.fixups := by
    rw [place_eq]
    exact ⟨rfl, rfl⟩
  refine ⟨settled.toDeep.place label, fun other old free => ?_, fun other member => ?_, fun fixup member => ?_,
    same.1 ▸ settled.small⟩
  · rw [position_place]
    split
    · rfl
    next apart =>
      refine settled.placed other (size ▸ old) fun member => ?_
      rcases List.mem_cons.1 member with rfl | member
      · exact apart ⟨rfl, own⟩
      · exact free member
  · rw [size]
    exact settled.known other (List.mem_cons_of_mem _ member)
  · rw [size]
    exact settled.jumps fixup (same.2 ▸ member)

end Settled

end CodeBuffer

-- Labels that were pending still are, if the jumps between lead to some of them.
def Workspace.SettlesTo (targets : List Label) (w later : Workspace) : Prop :=
  ∀ pending, targets ⊆ pending → w.code.Settled pending → later.code.Settled pending

instance (targets : List Label) : IsPreorder Workspace (Workspace.SettlesTo targets) where
  refl _ _ _ settled := settled
  trans _ _ _ first second pending known settled := second pending known (first pending known settled)

namespace Gen

variable {α ε : Type} {targets : List Label} {opcode : Opcode}

abbrev Settles (targets : List Label) (x : EStateM ε Workspace α) : Prop :=
  Moves (Workspace.SettlesTo targets) x

theorem Settles.mono {x : EStateM ε Workspace α} {labels : List Label} (settles : Settles targets x)
    (within : targets ⊆ labels) : Settles labels x :=
  fun w a later h pending known => settles w a later h pending (List.Subset.trans within known)

theorem settles_pooled (step : Pooled α) : Settles targets (pooled step) := by
  intro w a later h pending _ settled
  obtain ⟨pool, -, rfl⟩ := pooled_returns.1 h
  exact settled

theorem settles_plain {step : Emit α} {operands : List UInt8} {a : α}
    (puts : step.Puts (.plain opcode operands) a) : Settles targets (emit step) := by
  intro w a later h pending _ settled
  obtain ⟨code, run, rfl⟩ := emit_returns.1 h
  obtain ⟨-, _, _, written⟩ := puts.returns _ _ _ run
  exact settled.writes (by simp [Item.targets]) written

theorem settles_jump (opcode : Opcode) {target : Label} (member : target ∈ targets) :
    Settles targets (emit (.jump opcode target)) := by
  intro w a later h pending known settled
  obtain ⟨code, run, rfl⟩ := emit_returns.1 h
  obtain ⟨pops, pushes, -, written⟩ := Emit.jump_returns run
  exact settled.writes (by simpa [Item.targets] using known member) written

theorem settles_skip {x : Label → Gen Unit} (each : ∀ label, Settles (label :: targets) (x label)) :
    Settles targets (do let skip ← emit .newLabel; x skip; emit (.place skip)) := by
  intro w a later h pending known settled
  simp only [bind_returns] at h
  obtain ⟨label, w1, made, _, w2, run, placed⟩ := h
  obtain ⟨rfl, rfl⟩ := newLabel_run made
  obtain rfl := place_run placed
  exact (each _ _ _ _ run _ (List.cons_subset_cons _ known) settled.withLabel).place

theorem settles_op (length : Instruction.operandLength? 0 opcode [] = some 0) : Settles targets (op opcode) :=
  settles_plain (Emit.puts_op length)

theorem settles_load (kind : Kind) (slot : Nat) : Settles targets (emit (.load kind slot)) := by
  obtain ⟨_, _, same, -⟩ := Item.load_plain kind slot
  exact settles_plain (same ▸ Emit.puts_load kind slot)

theorem settles_condition {jump : Bool → Label → Gen Unit}
    (settles : ∀ expected target, Settles [target] (jump expected target)) : Settles [] (condition jump) := by
  intro w a later h pending _ settled
  simp only [condition, bind_returns] at h
  obtain ⟨otherwise, w1, made1, done, w2, made2, _, w3, run3, _, w4, run4, _, w5, run5, _, w6, placed6, _, w7, run7,
    _, w8, placed8, ended⟩ := h
  obtain ⟨rfl, rfl⟩ := newLabel_run made1
  obtain ⟨rfl, rfl⟩ := newLabel_run made2
  obtain rfl := place_run placed6
  obtain rfl := place_run placed8
  obtain ⟨-, rfl⟩ := pure_returns.1 ended
  -- Both labels are open while the jump is written; the first one is placed while the second still waits.
  have opened := settled.withLabel.withLabel
  have tested := settles _ _ _ _ _ run3 _ (by simp) opened
  have first := settles_op rfl _ _ _ run4 _ (List.nil_subset _) tested
  have left := settles_jump .goto (List.mem_singleton_self _) _ _ _ run5 _ (by simp) first
  have second := settles_op rfl _ _ _ run7 _ (List.nil_subset _) left.swap.place
  exact second.place

theorem settles_use (step : Pooled UInt16) {use : UInt16 → Emit Unit} {operands : UInt16 → List UInt8}
    (puts : ∀ index, (use index).Puts (.plain opcode (operands index)) ()) :
    Settles targets (do emit (use (← pooled step))) :=
  moves_bind (settles_pooled step) fun index => settles_plain (puts index)

theorem Composed.settles {ctx : Context} {targets : List (Label × Label)} {names : List String} {does : α → Prop}
    {x x' : Gen α} (composed : Composed ctx targets names does x x') : Settles (targets.map (·.1)) x := by
  induction composed with
  | done => exact moves_pure _
  | failed cause => exact moves_throw cause
  | after first _ moves second => exact moves_bind_of moves fun _ a _ run => second a (first.returns run)
  | checked _ second => exact moves_check second
  | more _ known _ _ inner => exact inner.mono (List.map_subset _ known)
  | leaf leaf =>
    intro w a later h pending _ settled
    obtain ⟨-, same | ⟨item, _, _, -, free, -, writes⟩⟩ := leaf.puts w a later h
    · exact same ▸ settled
    · exact settled.writes (by simp [free]) (.inr writes)
  | jump _ label label' => exact settles_jump _ List.mem_cons_self
  | condition _ each => exact settles_condition fun expected target => each expected target target
  | skip _ each => exact settles_skip fun label => each label label

end Gen

theorem Field.lowerInit_settles (site : Site) (field : Field) :
    Gen.Settles [] (Field.lowerInits.lowerInit site field) := by
  unfold Field.lowerInits.lowerInit
  split
  next => exact moves_pure ()
  next value _ =>
    refine Gen.moves_check fun d _ => ?_
    have coded : Gen.Settles [] (site.within fun ctx => value.codeAs ctx d) :=
      Gen.moves_within fun _ => (value.codeAs_made _ d).settles
    have last (u : Unit) := moves_bind coded fun _ =>
      Gen.settles_use (.fieldRef site.self field.name d.text) fun index => @Emit.puts_field
        (if field.modifier.has .static = true then .putstatic else .putfield) d.width index (by split_ifs <;> simp)
    exact moves_ite (fun _ => moves_bind (Gen.settles_load _ _) last) fun _ => last ()

variable {labels : Array LabelState} {error : CodeError}

namespace CodeBuffer

theorem patch_error {fixup : Fixup} {bytes : Array UInt8}
    (placed : (position labels fixup.label).isSome = true) (h : patch labels bytes fixup = .error error) :
    ∃ offset, error = .branchTooFar offset := by
  obtain ⟨target, found⟩ := Option.isSome_iff_exists.1 placed
  rw [patch_eq, Fixup.defect?, found] at h
  dsimp only at h
  split_ifs at h
  exact ⟨_, (Except.error.inj h).symm⟩

theorem patchAll_error {fixups : List Fixup} {bytes : Array UInt8}
    (placed : ∀ fixup ∈ fixups, (position labels fixup.label).isSome = true)
    (h : fixups.foldlM (patch labels) bytes = .error error) : ∃ offset, error = .branchTooFar offset := by
  induction fixups generalizing bytes with
  | nil => cases h
  | cons fixup rest ih =>
    obtain ⟨found, later⟩ := List.forall_mem_cons.1 placed
    rw [List.foldlM_cons] at h
    cases first : patch labels bytes fixup with
    | ok patched =>
      rw [first] at h
      exact ih later h
    | error cause =>
      rw [first] at h
      cases h
      exact patch_error found first

theorem finish_error {b : CodeBuffer}
    (placed : ∀ fixup ∈ b.fixups.toList, (position b.labels fixup.label).isSome = true) (h : b.finish = .error error) :
    error = .codeTooLarge ∨ ∃ offset, error = .branchTooFar offset := by
  unfold finish at h
  rw [← Array.foldlM_toList] at h
  cases patched : b.fixups.toList.foldlM (patch b.labels) b.bytes with
  | error cause =>
    rw [patched] at h
    cases h
    exact .inr (patchAll_error placed patched)
  | ok bytes =>
    rw [patched] at h
    change (if bytes.size > 65535 then throw CodeError.codeTooLarge >>= fun _ => pure bytes.toList
      else pure bytes.toList) = Except.error error at h
    split_ifs at h
    · exact .inl (Except.error.inj h).symm
    · cases h

theorem Settled.jumps_placed {b : CodeBuffer} (settled : b.Settled []) :
    ∀ fixup ∈ b.fixups.toList, (position b.labels fixup.label).isSome = true :=
  fun fixup member => settled.placed _ (settled.jumps fixup member) List.not_mem_nil

end CodeBuffer

end ClassForge
