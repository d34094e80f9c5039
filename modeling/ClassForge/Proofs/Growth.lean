import ClassForge.Proofs.Writing

set_option autoImplicit false

namespace ClassForge

namespace CodeBuffer

def arrival (labels : Array LabelState) (label : Label) : Option Nat :=
  (labels[label.index]?).bind (·.depth)

section Labels

variable {labels : Array LabelState} {label : Label} {depth : Nat}

theorem size_arriveAt : (arriveAt depth labels label).size = labels.size := by
  simp [arriveAt]

theorem position_arriveAt (other : Label) : position (arriveAt depth labels label) other = position labels other := by
  simp only [position, arriveAt, Array.getElem?_modify]
  split
  next h => cases labels[other.index]? <;> rfl
  next h => rfl

theorem arrival_arriveAt (other : Label) :
    arrival (arriveAt depth labels label) other =
      if other = label ∧ label.index < labels.size then (arrival labels label).or (some depth)
      else arrival labels other := by
  obtain ⟨i⟩ := label
  obtain ⟨j⟩ := other
  simp only [arrival, arriveAt, Array.getElem?_modify, Label.mk.injEq]
  by_cases same : i = j
  · subst same
    by_cases bound : i < labels.size
    · simp [bound]
    · simp [bound]
  · simp [same, Ne.symm same]

variable {targets : List Label}

theorem size_foldl_arriveAt : (targets.foldl (arriveAt depth) labels).size = labels.size := by
  induction targets generalizing labels with
  | nil => rfl
  | cons target rest ih => rw [List.foldl_cons, ih, size_arriveAt]

theorem position_foldl_arriveAt (other : Label) :
    position (targets.foldl (arriveAt depth) labels) other = position labels other := by
  induction targets generalizing labels with
  | nil => rfl
  | cons target rest ih => rw [List.foldl_cons, ih, position_arriveAt]

theorem arrival_foldl_arriveAt (other : Label) :
    arrival (targets.foldl (arriveAt depth) labels) other =
      if other ∈ targets ∧ other.index < labels.size then (arrival labels other).or (some depth)
      else arrival labels other := by
  induction targets generalizing labels with
  | nil => simp
  | cons target rest ih =>
    rw [List.foldl_cons, ih, arrival_arriveAt, size_arriveAt]
    by_cases same : other = target
    · subst same
      by_cases bound : other.index < labels.size
      · simp [bound]
      · simp [bound]
    · simp [same]

end Labels

def Ready (b : CodeBuffer) (label : Label) : Prop :=
  label.index < b.labels.size ∧ (position b.labels label = none ∨ (arrival b.labels label).isSome = true)

structure Laid (b : CodeBuffer) (items : List Item) : Prop extends b.Holds items where
  targets : ∀ item ∈ items, ∀ label ∈ item.targets, (arrival b.labels label).isSome = true
  landing : ∀ label pc, (arrival b.labels label).isSome = true → position b.labels label = some pc →
    (∃ item, (pc, item) ∈ Item.listing 0 items) ∨ (pc = b.pc ∧ b.alive = true)
  ending : b.alive = false → ∃ item, items.getLast? = some item ∧ item.endsPath = true

theorem laid_empty : Laid {} [] where
  made := .refl _
  formed := by simp
  targets := by simp
  landing := by simp [arrival]
  ending := by simp

/-- What a part of the generation does to a buffer when it adds items, jumps to no other old labels
than `targets` and places none; labels from `fresh` on are its own. -/
structure Advance (fresh : Nat) (targets : List Label) (b later : CodeBuffer) (more : List Item) : Prop
    where
  laid : ∀ items, b.Laid items → later.Laid (items ++ more)
  pc : b.pc ≤ later.pc
  size : b.labels.size ≤ later.labels.size
  position : ∀ label, label.index < fresh → position later.labels label = position b.labels label
  arrival : ∀ label depth, arrival b.labels label = some depth → arrival later.labels label = some depth
  untouched : ∀ label, label.index < fresh → label ∉ targets →
    CodeBuffer.arrival later.labels label = CodeBuffer.arrival b.labels label
  grown : b.maxDepth ≤ later.maxDepth
  small : b.maxDepth ≤ 65535 → later.maxDepth ≤ 65535
  asleep : b.alive = false →
    (∀ label, fresh ≤ label.index → CodeBuffer.arrival b.labels label = none) →
    later.alive = false ∧ later.pc = b.pc ∧
      ∀ label, CodeBuffer.arrival later.labels label = CodeBuffer.arrival b.labels label

namespace Advance

variable {fresh : Nat} {targets : List Label} {b mid later : CodeBuffer} {more rest : List Item}

theorem refl (fresh : Nat) (targets : List Label) (b : CodeBuffer) : Advance fresh targets b b [] where
  laid := by simp
  pc := Nat.le_refl _
  size := Nat.le_refl _
  position := fun _ _ => rfl
  arrival := fun _ _ h => h
  untouched := fun _ _ _ => rfl
  grown := Nat.le_refl _
  small := id
  asleep := fun dead _ => ⟨dead, rfl, fun _ => rfl⟩

theorem trans (first : Advance fresh targets b mid more) (second : Advance fresh targets mid later rest) :
    Advance fresh targets b later (more ++ rest) where
  laid items laid := by
    rw [← List.append_assoc]
    exact second.laid _ (first.laid items laid)
  pc := Nat.le_trans first.pc second.pc
  size := Nat.le_trans first.size second.size
  position label old := (second.position label old).trans (first.position label old)
  arrival label depth h := second.arrival label depth (first.arrival label depth h)
  untouched label old other :=
    (second.untouched label old other).trans (first.untouched label old other)
  grown := Nat.le_trans first.grown second.grown
  small := fun small => second.small (first.small small)
  asleep := by
    intro dead fresh
    obtain ⟨dead', pc, same⟩ := first.asleep dead fresh
    obtain ⟨dead'', pc', same'⟩ := second.asleep dead' fun label own => (same label).trans (fresh label own)
    exact ⟨dead'', pc'.trans pc, fun label => (same' label).trans (same label)⟩

theorem mono {fewer : Nat} {others : List Label} (advance : Advance fresh targets b later more)
    (less : fewer ≤ fresh) (known : ∀ label ∈ targets, label.index < fewer → label ∈ others) :
    Advance fewer others b later more where
  laid := advance.laid
  pc := advance.pc
  size := advance.size
  position label old := advance.position label (by omega)
  arrival := advance.arrival
  untouched label old other := advance.untouched label (by omega) (fun h => other (known label h old))
  grown := advance.grown
  small := advance.small
  asleep := fun dead fresh => advance.asleep dead fun label own => fresh label (Nat.le_trans less own)

theorem ready (advance : Advance fresh targets b later more) {label : Label} (old : label.index < fresh)
    (ready : b.Ready label) : later.Ready label := by
  refine ⟨Nat.lt_of_lt_of_le ready.1 advance.size, ?_⟩
  rw [advance.position label old]
  refine ready.2.imp id ?_
  intro arrived
  obtain ⟨depth, h⟩ := Option.isSome_iff_exists.1 arrived
  exact Option.isSome_iff_exists.2 ⟨depth, advance.arrival label depth h⟩

end Advance

section Steps

variable {b later : CodeBuffer} {item : Item} {items : List Item} {pops pushes : Nat}

section

variable (writes : Writes item pops pushes b later)
include writes

theorem Writes.arrival_of_arrived {label : Label} {depth : Nat}
    (h : arrival b.labels label = some depth) : arrival later.labels label = some depth := by
  rw [writes.labels, arrival_foldl_arriveAt, h]
  simp

theorem Writes.pc : later.pc = b.pc + item.size b.pc := by
  rw [writes.adds.pc, Item.length_chunks]

theorem Writes.holds (formed : item.WellFormed) (holds : b.Holds items) : later.Holds (items ++ [item]) where
  made := by
    have made := holds.made.trans writes.adds
    rwa [Item.layout_append, ← holds.pc_eq, Item.layout, Item.layout, List.append_nil]
  formed := by
    intro other member
    rcases List.mem_append.1 member with old | new
    · exact holds.formed other old
    · rw [List.mem_singleton.1 new]
      exact formed

theorem Writes.laid (formed : item.WellFormed) (ready : ∀ label ∈ item.targets, b.Ready label) (laid : b.Laid items) :
    later.Laid (items ++ [item]) where
  toHolds := writes.holds formed laid.toHolds
  targets := by
    intro other member label target
    rcases List.mem_append.1 member with old | new
    · obtain ⟨depth, h⟩ := Option.isSome_iff_exists.1 (laid.targets other old label target)
      exact Option.isSome_iff_exists.2 ⟨depth, writes.arrival_of_arrived h⟩
    · rw [List.mem_singleton.1 new] at target
      rw [writes.labels, arrival_foldl_arriveAt, if_pos ⟨target, (ready label target).1⟩]
      simp
  landing := by
    intro label pc arrived stands
    rw [writes.labels, position_foldl_arriveAt] at stands
    -- A label that stands already was arrived at before.
    have before : (arrival b.labels label).isSome = true := by
      rw [writes.labels, arrival_foldl_arriveAt] at arrived
      by_cases target : label ∈ item.targets ∧ label.index < b.labels.size
      · rcases (ready label target.1).2 with nowhere | before
        · rw [nowhere] at stands
          cases stands
        · exact before
      · rwa [if_neg target] at arrived
    left
    rw [Item.listing, Item.layout_append, ← laid.pc_eq]
    rcases laid.landing label pc before stands with ⟨other, found⟩ | ⟨rfl, -⟩
    · exact ⟨other, List.mem_append_left _ found⟩
    · exact ⟨item, List.mem_append_right _ (by simp [Item.layout])⟩
  ending := by
    intro dead
    refine ⟨item, by simp, ?_⟩
    simpa [dead] using writes.ends

end

theorem Written.advance (written : Written item pops pushes b later) (formed : item.WellFormed)
    (ready : ∀ label ∈ item.targets, b.Ready label) (fresh : Nat) :
    ∃ more, more ⊆ [item] ∧ Advance fresh item.targets b later more := by
  rcases written with ⟨-, rfl⟩ | writes
  · exact ⟨[], by simp, .refl _ _ _⟩
  · refine ⟨[item], List.Subset.refl _, fun items => writes.laid formed ready, ?_, ?_, ?_, ?_, ?_,
      writes.grown, writes.small, ?_⟩
    · rw [writes.pc]
      exact Nat.le_add_right _ _
    · rw [writes.labels, size_foldl_arriveAt]
    · intro label _
      rw [writes.labels, position_foldl_arriveAt]
    · intro label depth
      exact writes.arrival_of_arrived
    · intro label _ other
      rw [writes.labels, arrival_foldl_arriveAt, if_neg (fun h => other h.1)]
    · intro dead
      rw [writes.alive] at dead
      cases dead

end Steps

section Places

def standAt (pc : Nat) (labels : Array LabelState) (label : Label) : Array LabelState :=
  labels.modify label.index (fun s => { s with pc := some pc })

variable (b : CodeBuffer) (label : Label) {targets : List Label}

theorem place_eq :
    b.place label = { b with
      alive := b.alive || (arrival b.labels label).isSome
      depth := if b.alive then b.depth else (arrival b.labels label).getD b.depth
      labels := standAt b.pc (if b.alive then arriveAt b.depth b.labels label else b.labels) label } := by
  unfold place arrive
  cases alive : b.alive with
  | true => simp [recordArrival, standAt, arriveAt, pc, alive]
  | false =>
    cases h : b.labels[label.index]? with
    | none => simp [arrival, h, standAt, pc, alive]
    | some s =>
      obtain ⟨position, depth⟩ := s
      cases depth <;> simp [arrival, h, standAt, pc, alive]

theorem position_standAt (pc : Nat) (labels : Array LabelState) (other : Label) :
    position (standAt pc labels label) other =
      if other = label ∧ label.index < labels.size then some pc else position labels other := by
  obtain ⟨i⟩ := label
  obtain ⟨j⟩ := other
  simp only [position, standAt, Array.getElem?_modify, Label.mk.injEq]
  by_cases same : i = j
  · subst same
    by_cases bound : i < labels.size <;> simp [bound]
  · simp [same, Ne.symm same]

theorem arrival_standAt (pc : Nat) (labels : Array LabelState) (other : Label) :
    arrival (standAt pc labels label) other = arrival labels other := by
  simp only [arrival, standAt, Array.getElem?_modify]
  split
  next h => cases labels[other.index]? <;> rfl
  next h => rfl

theorem size_place : (b.place label).labels.size = b.labels.size := by
  rw [place_eq]
  cases b.alive <;> simp [standAt, arriveAt]

theorem position_place (other : Label) :
    position (b.place label).labels other =
      if other = label ∧ label.index < b.labels.size then some b.pc else position b.labels other := by
  rw [place_eq]
  cases b.alive <;> simp [position_standAt, position_arriveAt, size_arriveAt]

theorem arrival_place (other : Label) :
    arrival (b.place label).labels other =
      if b.alive = true ∧ other = label ∧ label.index < b.labels.size then
        (arrival b.labels label).or (some b.depth)
      else arrival b.labels other := by
  rw [place_eq]
  cases b.alive <;> simp [arrival_standAt, arrival_arriveAt]

theorem place_laid {items : List Item} (laid : b.Laid items) : (b.place label).Laid items where
  toHolds := laid.toHolds.congr (by rw [place_eq]) (by rw [place_eq])
  targets := by
    intro item member target h
    have before := laid.targets item member target h
    rw [arrival_place]
    split
    · simp
    · exact before
  landing := by
    intro other pc arrived stands
    rw [arrival_place] at arrived
    rw [position_place] at stands
    have alive : (b.place label).alive = (b.alive || (arrival b.labels label).isSome) := by rw [place_eq]
    have here : (b.place label).pc = b.pc := by rw [place_eq]; rfl
    rw [alive, here]
    by_cases same : other = label ∧ label.index < b.labels.size
    · rw [if_pos same, Option.some_inj] at stands
      right
      refine ⟨stands.symm, ?_⟩
      cases live : b.alive with
      | true => rfl
      | false =>
        rw [live, same.1] at arrived
        simpa using arrived
    · rw [if_neg (fun h => same h.2)] at arrived
      rw [if_neg same] at stands
      refine (laid.landing other pc arrived stands).imp id ?_
      rintro ⟨rfl, live⟩
      exact ⟨rfl, by simp [live]⟩
  ending := by
    intro dead
    rw [place_eq] at dead
    have : b.alive = false := (Bool.or_eq_false_iff.1 dead).1
    exact laid.ending this

theorem place_ready (alive : b.alive = true) (known : label.index < b.labels.size) : (b.place label).Ready label := by
  refine ⟨by rwa [size_place], .inr ?_⟩
  rw [arrival_place, if_pos ⟨alive, rfl, known⟩]
  simp

theorem place_advance {fresh : Nat} (own : fresh ≤ label.index) : Advance fresh targets b (b.place label) [] where
  laid items laid := by
    rw [List.append_nil]
    exact b.place_laid label laid
  pc := Nat.le_of_eq (by rw [place_eq]; rfl)
  size := Nat.le_of_eq (size_place b label).symm
  position other old := by
    rw [position_place, if_neg]
    rintro ⟨rfl, -⟩
    omega
  arrival other depth h := by
    rw [arrival_place]
    split
    next same =>
      rw [← same.2.1, h]
      rfl
    next => exact h
  untouched other old _ := by
    rw [arrival_place, if_neg]
    rintro ⟨-, rfl, -⟩
    omega
  grown := by rw [place_eq]
  small := by rw [place_eq]; exact id
  asleep dead fresh := by
    refine ⟨?_, by rw [place_eq]; rfl, fun other => ?_⟩
    · rw [place_eq, dead, fresh label own]
      rfl
    · rw [arrival_place, if_neg]
      rintro ⟨alive, -⟩
      rw [dead] at alive
      cases alive

def withLabel : CodeBuffer :=
  { b with labels := b.labels.push {} }

theorem size_withLabel : b.withLabel.labels.size = b.labels.size + 1 := by
  simp [withLabel]

theorem position_withLabel (other : Label) : position b.withLabel.labels other = position b.labels other := by
  simp only [position, withLabel, Array.getElem?_push]
  split
  next h => simp [h]
  next => rfl

theorem arrival_withLabel (other : Label) : arrival b.withLabel.labels other = arrival b.labels other := by
  simp only [arrival, withLabel, Array.getElem?_push]
  split
  next h => simp [h]
  next => rfl

structure Deep (b : CodeBuffer) : Prop where
  depth : b.depth ≤ b.maxDepth
  arrivals : ∀ label depth, arrival b.labels label = some depth → depth ≤ b.maxDepth

theorem Deep.reach {b later : CodeBuffer} {depth : Nat} (deep : b.Deep)
    (labels : later.labels = targets.foldl (arriveAt depth) b.labels) (low : depth ≤ later.maxDepth)
    (grown : b.maxDepth ≤ later.maxDepth) (peak : later.depth ≤ later.maxDepth) : later.Deep := by
  refine ⟨peak, fun label found arrived => ?_⟩
  rw [labels, arrival_foldl_arriveAt] at arrived
  split at arrived
  · rcases Option.or_eq_some_iff.1 arrived with old | ⟨-, new⟩
    · exact (deep.arrivals label found old).trans grown
    · cases new
      exact low
  · exact (deep.arrivals label found arrived).trans grown

theorem Deep.withLabel {b : CodeBuffer} (deep : b.Deep) : b.withLabel.Deep :=
  ⟨deep.depth, fun label depth arrived => deep.arrivals label depth (b.arrival_withLabel label ▸ arrived)⟩

theorem Deep.place {b : CodeBuffer} (deep : b.Deep) (label : Label) : (b.place label).Deep := by
  have same : (b.place label).maxDepth = b.maxDepth := by rw [place_eq]
  refine ⟨?_, fun other depth arrived => ?_⟩
  · rw [same, place_eq]
    dsimp only
    split
    · exact deep.depth
    · cases earlier : arrival b.labels label with
      | none => exact deep.depth
      | some depth => exact deep.arrivals label depth earlier
  · rw [arrival_place] at arrived
    rw [same]
    split at arrived
    · rcases Option.or_eq_some_iff.1 arrived with old | ⟨-, new⟩
      · exact deep.arrivals label depth old
      · cases new
        exact deep.depth
    · exact deep.arrivals other depth arrived

theorem withLabel_advance (fresh : Nat) (targets : List Label) : Advance fresh targets b b.withLabel [] where
  laid items laid := by
    rw [List.append_nil]
    refine ⟨laid.toHolds.congr rfl rfl, ?_, ?_, laid.ending⟩
    · intro item member target h
      rw [arrival_withLabel]
      exact laid.targets item member target h
    · intro other pc
      rw [arrival_withLabel, position_withLabel]
      exact laid.landing other pc
  pc := Nat.le_refl _
  size := by simp [withLabel]
  position other _ := b.position_withLabel other
  arrival other depth h := by rwa [arrival_withLabel]
  untouched other _ _ := b.arrival_withLabel other
  grown := Nat.le_refl _
  small := id
  asleep dead _ := ⟨dead, rfl, b.arrival_withLabel⟩

theorem withLabel_ready : b.withLabel.Ready ⟨b.labels.size⟩ := by
  refine ⟨by simp [withLabel], .inl ?_⟩
  rw [position_withLabel]
  simp [position]

end Places

end CodeBuffer

end ClassForge
