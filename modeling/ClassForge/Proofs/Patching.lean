import ClassForge.Proofs.BufferUses

set_option autoImplicit false

namespace ClassForge

open CodeBuffer (Adds position placeOf)

namespace Fixup

def Before (f g : Fixup) : Prop :=
  f.operandPc + f.width ≤ g.operandPc

def distance? (f : Fixup) (bytes : List UInt8) : Option Int :=
  match (bytes.drop f.operandPc).take f.width with
  | [a, b] => some (Bytes.toI2 a b)
  | [a, b, c, d] => some (Bytes.toI4 a b c d)
  | _ => none

theorem distance_of_filling {f : Fixup} {bytes : List UInt8} {distance : Int}
    (filled : (bytes.drop f.operandPc).take f.width = f.filling distance) (near : -65535 ≤ distance ∧ distance ≤ 65535)
    (fits : f.isWide = false → -32768 ≤ distance ∧ distance ≤ 32767) : f.distance? bytes = some distance := by
  rw [distance?, filled, filling]
  cases wide : f.isWide with
  | true =>
    simp only [if_true, Bytes.u4, Bytes.toI4, Bytes.toU4_u4, Bytes.toInt_u4]
    rw [Int.bmod_eq_of_le (by omega) (by omega)]
  | false =>
    obtain ⟨low, high⟩ := fits wide
    simp only [Bool.false_eq_true, if_false, Bytes.u2, Bytes.toI2_ofInt low high]

end Fixup

namespace Chunk

variable {chunks : List Chunk}

theorem fixups_apart (start : Nat) (chunks : List Chunk) :
    (fixups start chunks).Pairwise Fixup.Before ∧
      ∀ f ∈ fixups start chunks, start ≤ f.operandPc ∧ f.operandPc + f.width ≤
        start + (chunks.flatMap blank).length := by
  induction chunks generalizing start with
  | nil => exact ⟨.nil, by simp [fixups]⟩
  | cons chunk rest ih =>
    rw [List.flatMap_cons, List.length_append]
    cases chunk with
    | code bytes =>
      obtain ⟨apart, inside⟩ := ih (start + bytes.length)
      refine ⟨apart, fun f member => ?_⟩
      have := inside f member
      rw [blank]
      omega
    | gap opcodePc label isWide =>
      obtain ⟨apart, inside⟩ := ih (start + if isWide then 4 else 2)
      rw [fixups, List.pairwise_cons, List.forall_mem_cons, blank, List.length_replicate]
      refine ⟨⟨fun f member => (inside f member).1, apart⟩, ⟨Nat.le_refl _, ?_⟩, fun f member => ?_⟩
      · simp only [Fixup.width]
        omega
      · have := inside f member
        omega

theorem filled_gap (place : Label → Nat) {f : Fixup} (front : List UInt8) (member : f ∈ fixups front.length chunks) :
    ((front ++ chunks.flatMap (filled place)).drop f.operandPc).take f.width =
      f.filling ((place f.label : Int) - f.opcodePc) := by
  induction chunks generalizing front with
  | nil => cases member
  | cons chunk rest ih =>
    rw [List.flatMap_cons, ← List.append_assoc]
    cases chunk with
    | code bytes => exact ih (front ++ bytes) (by rw [List.length_append]; exact member)
    | gap opcodePc label isWide =>
      rcases List.mem_cons.1 member with rfl | further
      · rw [List.append_assoc, List.drop_left, List.take_left']
        · rfl
        · exact Fixup.length_filling _ _
      · refine ih _ ?_
        rw [List.length_append, filled, Fixup.length_filling]
        exact further

theorem filled_outside (place : Label → Nat) (start i : Nat)
    (outside : ∀ f ∈ fixups start chunks, start + i < f.operandPc ∨ f.operandPc + f.width ≤ start + i) :
    (chunks.flatMap (filled place))[i]? = (chunks.flatMap blank)[i]? := by
  induction chunks generalizing start i with
  | nil => rfl
  | cons chunk rest ih =>
    have length : (chunk.filled place).length = chunk.blank.length := by
      simpa using length_filled place [chunk]
    rw [List.flatMap_cons, List.flatMap_cons, List.getElem?_append, List.getElem?_append, length]
    split_ifs with here
    · cases chunk with
      | code => rfl
      | gap opcodePc label isWide =>
        have := outside _ List.mem_cons_self
        rw [blank, List.length_replicate] at here
        simp only [Fixup.width] at this
        omega
    · refine ih (start + chunk.blank.length) _ fun f member => ?_
      rw [Nat.add_assoc, Nat.add_sub_cancel' (Nat.not_lt.1 here)]
      cases chunk with
      | code bytes => exact outside f member
      | gap opcodePc label isWide =>
        rw [blank, List.length_replicate] at member
        exact outside f (List.mem_cons_of_mem _ member)

end Chunk

namespace BufferUse

def placed? (b : CodeBuffer) (label : Label) : BufferUse → Option Nat
  | .perform (.place other) => if label = other ∧ other.index < b.labels.size then some b.pc else none
  | _ => none

def allGaps (b : CodeBuffer) : List BufferUse → List Fixup
  | [] => []
  | use :: rest => use.gaps b ++ allGaps (leaves use.step b) rest

def lastPlaced? (b : CodeBuffer) (label : Label) : List BufferUse → Option Nat
  | [] => none
  | use :: rest => (lastPlaced? (leaves use.step b) label rest).or (use.placed? b label)

structure Grown (gaps : List Fixup) (placed : Label → Option Nat) (b later : CodeBuffer) : Prop where
  adds : ∃ chunks, Adds chunks b later ∧ Chunk.fixups b.pc chunks = gaps
  position : ∀ label, position later.labels label = (placed label).or (position b.labels label)
  stands : ∀ label pc, placed label = some pc → pc ≤ later.pc
  origins : ∀ f ∈ gaps, f.opcodePc ≤ later.pc

variable {b mid later : CodeBuffer}

theorem Grown.trans {gaps more : List Fixup} {placed next : Label → Option Nat} (first : Grown gaps placed b mid)
    (second : Grown more next mid later) : Grown (gaps ++ more) (fun label => (next label).or (placed label))
      b later := by
  obtain ⟨chunks, adds, rfl⟩ := first.adds
  obtain ⟨others, adds', rfl⟩ := second.adds
  have further : mid.pc ≤ later.pc := adds'.pc ▸ Nat.le_add_right _ _
  refine ⟨⟨_, adds.trans adds', by rw [Chunk.fixups_append, adds.pc]⟩, fun label => ?_, fun label pc known => ?_,
    List.forall_mem_append.2 ⟨fun f member => (first.origins f member).trans further, second.origins⟩⟩
  · rw [second.position, first.position, Option.or_assoc]
  · rcases Option.or_eq_some_iff.1 known with new | ⟨-, old⟩
    · exact second.stands label pc new
    · exact (first.stands label pc old).trans further

theorem gaps_here {use : BufferUse} {f : Fixup} (member : f ∈ use.gaps b) : f.opcodePc = b.pc := by
  have here {item : Item} (member : f ∈ Chunk.fixups b.pc (item.chunks b.pc)) : f.opcodePc = b.pc := by
    have jump := List.mem_map_of_mem (f := fun f : Fixup => (f.opcodePc, f.label)) member
    rw [Item.jumps_chunks, List.mem_map] at jump
    obtain ⟨label, -, same⟩ := jump
    exact (congrArg Prod.fst same).symm
  unfold gaps at member
  split at member
  · split_ifs at member
    · exact here member
    · cases member
  · split_ifs at member
    · exact here member
    · cases member
  · cases member

theorem step_grown (b : CodeBuffer) (use : BufferUse) : Grown (use.gaps b) (use.placed? b) b (leaves use.step b) := by
  have idle : Adds [] b b := .refl b
  rcases use.emits_or with ⟨emits, apart⟩ | rfl | rfl | ⟨label, rfl⟩
  · have emitted := step_emitted b emits
    have none (label : Label) : use.placed? b label = none := by
      unfold placed?
      split
      · exact absurd rfl (apart _)
      · rfl
    refine ⟨emitted.adds, fun label => ?_, by simp [none], fun f member => ?_⟩
    · rw [none, emitted.labels, CodeBuffer.position_foldl_arriveAt]
      rfl
    · obtain ⟨chunks, adds, -⟩ := emitted.adds
      rw [gaps_here member, adds.pc]
      exact Nat.le_add_right _ _
  · exact ⟨⟨[], ⟨idle.bytes, idle.fixups⟩, rfl⟩, fun _ => rfl, by simp [placed?], by simp [gaps]⟩
  · exact ⟨⟨[], ⟨idle.bytes, idle.fixups⟩, rfl⟩, b.position_withLabel, by simp [placed?], by simp [gaps]⟩
  · change Grown [] _ b (b.place label)
    refine ⟨⟨[], ⟨?_, ?_⟩, rfl⟩, fun other => ?_, fun other pc placed => ?_, by simp⟩
    · rw [CodeBuffer.place_eq]
      exact idle.bytes
    · rw [CodeBuffer.place_eq]
      exact idle.fixups
    · rw [CodeBuffer.position_place, placed?]
      split_ifs <;> rfl
    · rw [CodeBuffer.place_eq]
      simp only [placed?] at placed
      split_ifs at placed
      exact (Option.some_inj.1 placed).ge

theorem after_grown (b : CodeBuffer) (uses : List BufferUse) :
    Grown (allGaps b uses) (lastPlaced? b · uses) b (after b uses) := by
  induction uses generalizing b with
  | nil => exact ⟨⟨[], .refl b, rfl⟩, fun _ => rfl, by simp [lastPlaced?], by simp [allGaps]⟩
  | cons use rest ih => exact (step_grown b use).trans (ih _)

/-- Finished code: the gaps hold the distances to where their labels were placed last, and every other byte is still the
one that was written first. -/
structure Patched (uses : List BufferUse) (bytes : List UInt8) : Prop where
  length : bytes.length = (after {} uses).pc
  apart : (allGaps {} uses).Pairwise Fixup.Before
  inside : ∀ f ∈ allGaps {} uses, f.operandPc + f.width ≤ bytes.length
  distance : ∀ f ∈ allGaps {} uses, ∃ target, lastPlaced? {} f.label uses = some target ∧
    f.distance? bytes = some ((target : Int) - f.opcodePc)
  kept : ∀ n i, i < (after {} (uses.take n)).pc →
    (∀ f ∈ allGaps {} uses, i < f.operandPc ∨ f.operandPc + f.width ≤ i) →
    bytes[i]? = (after {} (uses.take n)).bytes[i]?

theorem finish_after (uses : List BufferUse) :
    match (allGaps {} uses).findSome? (·.defect? (lastPlaced? {} · uses)) with
    | some error => (after {} uses).finish = .error error
    | none =>
      if 65535 < (after {} uses).pc then (after {} uses).finish = .error .codeTooLarge
      else ∃ bytes, (after {} uses).finish = .ok bytes ∧ Patched uses bytes := by
  have grown := after_grown {} uses
  obtain ⟨chunks, adds, gaps⟩ := grown.adds
  have places : position (after {} uses).labels = (lastPlaced? {} · uses) := by
    funext label
    rw [grown.position]
    exact Option.or_none
  have start : ({} : CodeBuffer).pc = 0 := rfl
  obtain ⟨apart, inside⟩ := Chunk.fixups_apart 0 chunks
  rw [start] at gaps
  rw [CodeBuffer.finish_adds adds, places, gaps]
  rw [gaps] at apart inside
  cases sound : (allGaps {} uses).findSome? (·.defect? (lastPlaced? {} · uses)) with
  | some error => rfl
  | none =>
    dsimp only
    split_ifs with large
    · rfl
    have length : (chunks.flatMap (Chunk.filled (placeOf (after {} uses).labels))).length = (after {} uses).pc := by
      rw [Chunk.length_filled, adds.pc, start, Nat.zero_add]
    refine ⟨_, rfl, length, apart, fun f member => ?_, fun f member => ?_, fun n i early outside => ?_⟩
    · rw [Chunk.length_filled]
      simpa using (inside f member).2
    · obtain ⟨target, placed, near⟩ := Fixup.placed_of_sound (List.findSome?_eq_none_iff.1 sound f member)
      have stands := grown.stands f.label target placed
      have origin := grown.origins f member
      have place : placeOf (after {} uses).labels f.label = target := by
        rw [CodeBuffer.placeOf, places]
        simp [placed]
      have filled := Chunk.filled_gap (placeOf (after {} uses).labels) [] (gaps ▸ member)
      rw [place] at filled
      exact ⟨target, placed, Fixup.distance_of_filling filled (by omega) near⟩
    · obtain ⟨more, further, -⟩ := (after_grown (after {} (uses.take n)) (uses.drop n)).adds
      rw [← after_append, List.take_append_drop] at further
      rw [Chunk.filled_outside _ 0 i (by simpa [gaps] using outside)]
      have whole : (after {} uses).bytes.toList = chunks.flatMap Chunk.blank := adds.bytes
      rw [← whole, further.bytes, List.getElem?_append_left early, Array.getElem?_toList]

end BufferUse

end ClassForge
