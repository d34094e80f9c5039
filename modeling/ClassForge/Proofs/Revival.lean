import ClassForge.Proofs.BufferUses

set_option autoImplicit false

namespace ClassForge

open CodeBuffer (arrival)

namespace BufferUse

variable {b : CodeBuffer} {use : BufferUse} {uses : List BufferUse} {label : Label}

def label? : BufferUse → Option Label
  | .perform (.place label) => some label
  | _ => none

def arrival? (b : CodeBuffer) (label : Label) (use : BufferUse) : Option Nat :=
  if label ∈ use.reached b ∧ label.index < b.labels.size then some (leaves use.step b).depth else none

def firstArrival? (b : CodeBuffer) (label : Label) : List BufferUse → Option Nat
  | [] => none
  | use :: rest => (use.arrival? b label).or (firstArrival? (leaves use.step b) label rest)

theorem step_arrival (apart : use.label? ≠ some label) :
    arrival (leaves use.step b).labels label = (arrival b.labels label).or (use.arrival? b label) := by
  rcases use.emits_or with ⟨emits, -⟩ | rfl | rfl | ⟨other, rfl⟩
  · rw [(step_emitted b emits).labels, CodeBuffer.arrival_foldl_arriveAt, arrival?]
    split_ifs
    · rfl
    · rw [Option.or_none]
  · exact Option.or_none.symm
  · exact (b.arrival_withLabel label).trans Option.or_none.symm
  · refine (CodeBuffer.arrival_place b other label).trans ?_
    rw [if_neg fun same => apart (congrArg some same.2.1.symm)]
    exact Option.or_none.symm

theorem after_arrival (apart : label ∉ uses.filterMap label?) :
    arrival (after b uses).labels label = (arrival b.labels label).or (firstArrival? b label uses) := by
  induction uses generalizing b with
  | nil => exact Option.or_none.symm
  | cons use rest ih =>
    have here : use.label? ≠ some label := fun same => apart (by simp [same])
    have further : label ∉ rest.filterMap label? := fun member => apart (by
      rw [List.filterMap_cons]
      split
      · exact member
      · exact List.mem_cons_of_mem _ member)
    rw [after, ih further, step_arrival here, firstArrival?, Option.or_assoc]

theorem step_deep (deep : b.Deep) : b.maxDepth ≤ (leaves use.step b).maxDepth ∧ (leaves use.step b).Deep := by
  rcases use.emits_or with ⟨emits, -⟩ | rfl | rfl | ⟨label, rfl⟩
  · have emitted := step_emitted b emits
    have peak := emitted.peak deep.depth
    exact ⟨emitted.grown, deep.reach emitted.labels peak emitted.grown peak⟩
  · exact ⟨Nat.le_refl _, deep.depth, deep.arrivals⟩
  · exact ⟨Nat.le_refl _, deep.withLabel⟩
  · refine ⟨?_, deep.place label⟩
    change b.maxDepth ≤ (b.place label).maxDepth
    rw [CodeBuffer.place_eq]

theorem after_deep (deep : b.Deep) : (after b uses).Deep := by
  induction uses generalizing b with
  | nil => exact deep
  | cons use rest ih => exact ih (step_deep deep).2

theorem step_revives (dead : b.alive = false) (depth : Nat) :
    (leaves use.step b).alive = true ∧ (leaves use.step b).depth = depth ↔
      ∃ label, use = .perform (.place label) ∧ arrival b.labels label = some depth := by
  rcases use.emits_or with ⟨emits, apart⟩ | rfl | rfl | ⟨label, rfl⟩
  · rw [step_dead dead emits, dead]
    exact ⟨fun h => (by cases h.1), fun ⟨label, same, _⟩ => absurd same (apart label)⟩
  · exact ⟨fun h => (by cases h.1), fun ⟨_, same, _⟩ => by cases same⟩
  · exact ⟨fun h => (by cases dead.symm.trans h.1), fun ⟨_, same, _⟩ => by cases same⟩
  · change (b.place label).alive = true ∧ (b.place label).depth = depth ↔ _
    rw [CodeBuffer.place_eq]
    cases earlier : arrival b.labels label <;> simp [dead, earlier]

theorem liveness {before : List BufferUse} {use : BufferUse} (once : ((before ++ [use]).filterMap label?).Nodup) :
    (after {} (before ++ [use])).depth ≤ (after {} (before ++ [use])).maxDepth ∧
      (after {} before).maxDepth ≤ (after {} (before ++ [use])).maxDepth ∧
      ((after {} before).alive = false → use.emits = true → after {} (before ++ [use]) = after {} before) ∧
      ((after {} before).alive = false → ∀ depth,
        (after {} (before ++ [use])).alive = true ∧ (after {} (before ++ [use])).depth = depth ↔
          ∃ label, use = .perform (.place label) ∧ firstArrival? {} label before = some depth) := by
  have deep : (after {} before).Deep := after_deep ⟨Nat.le_refl 0, by simp [arrival]⟩
  rw [after_append]
  obtain ⟨grown, deep'⟩ := @step_deep _ use deep
  refine ⟨deep'.depth, grown, step_dead, fun dead depth => ?_⟩
  refine (step_revives dead depth).trans (exists_congr fun label => and_congr_right ?_)
  rintro rfl
  rw [List.filterMap_append] at once
  have apart : label ∉ before.filterMap label? := fun member =>
    (List.nodup_append.1 once).2.2 label member label (by simp [label?]) rfl
  rw [after_arrival apart]
  rfl

theorem liveness_placed :
    let jump : List BufferUse := [.perform .newLabel, .perform (.jump .goto ⟨0⟩)]
    (after {} jump).alive = false ∧ (after {} (jump ++ [.perform (.place ⟨0⟩)])).alive = true ∧
      (after {} (jump ++ [.perform (.place ⟨0⟩)])).depth = 0 :=
  have dead : (after {} [.perform .newLabel, .perform (.jump .goto ⟨0⟩)]).alive = false := rfl
  ⟨dead, ((liveness (by decide)).2.2.2 dead 0).2 ⟨⟨0⟩, rfl, rfl⟩⟩

end BufferUse

end ClassForge
