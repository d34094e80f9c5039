import ClassForge.Proofs.LeafTyping
import ClassForge.Proofs.NamesInSight

set_option autoImplicit false

namespace ClassForge

open CodeBuffer (arrival position)

namespace Opcode

def refers (op : Opcode) : Bool :=
  op.isIn getstatic new || op = anewarray || op.isIn checkcast instanceof

def isAlone (op : Opcode) : Bool :=
  op.goesOn && !op.refers && !op.isIn ldc ldc2W && op ≠ tableswitch && !op.isIn gotoW jsrW

theorem alone_or_refers : ∀ op : Opcode,
    (op.isBare = true → op ≠ athrow → op.isAlone = true) ∧ (op.refers = true → op.goesOn = true) := by
  decide +kernel

end Opcode

inductive Meaning where
  | alone (opcode : Opcode) (operands : List UInt8)
  | constant (value : PoolRequest) (isWide : Bool)
  | reference (opcode : Opcode) (target : PoolRequest) (rest : List UInt8)
  -- A jump within a stretch of code, to the instruction at this position there.
  | jump (opcode : Opcode) (position : Nat)

namespace Meaning

def label? : Meaning → Option Nat
  | .jump _ label => some label
  | _ => none

def ends : Meaning → Bool
  | .jump opcode _ => opcode.isReturn || opcode = .athrow || opcode = .goto
  | _ => false

def settle (place : Nat → Nat) : Meaning → Meaning
  | .jump opcode label => .jump opcode (place label)
  | other => other

end Meaning

variable {c : CodeBuffer} {pops pushes base : Nat} {m : Meaning} {item : Item}

-- Labels are counted from the first one of the stretch of code on.
inductive Item.Means (base : Nat) (pool : ConstantPool) : Item → Meaning → Prop
  | alone {opcode : Opcode} (operands : List UInt8) (isAlone : opcode.isAlone = true) :
      Means base pool (.plain opcode operands) (.alone opcode operands)
  | constant {request : PoolRequest} {index : UInt16} (width : Nat) (stands : request.StandsAt pool index) :
      Means base pool (.constant index width) (.constant request (decide (width = 2)))
  | reference {request : PoolRequest} {opcode : Opcode} {index : UInt16} (rest : List UInt8)
      (refers : opcode.refers = true) (stands : request.StandsAt pool index) :
      Means base pool (.plain opcode (Bytes.u2 index ++ rest)) (.reference opcode request rest)
  | jump {opcode : Opcode} (label : Nat) (branch : opcode.isBranch = true) :
      Means base pool (.jump opcode ⟨base + label⟩) (.jump opcode label)

namespace Item.Means

variable {pool later : ConstantPool}

theorem mono (means : item.Means base pool m) (grown : pool.Extends later) : item.Means base later m := by
  cases means with
  | alone operands isAlone => exact .alone operands isAlone
  | constant width stands => exact .constant width (stands.mono grown)
  | reference rest refers stands => exact .reference rest refers (stands.mono grown)
  | jump label branch => exact .jump label branch

theorem leads (means : item.Means base pool m) :
    item.endsPath = m.ends ∧ item.targets = (m.label?.map fun label => ⟨base + label⟩).toList := by
  cases means with
  | alone operands isAlone =>
    simp only [Opcode.isAlone, Bool.and_eq_true] at isAlone
    exact ⟨Item.endsPath_of_goesOn isAlone.1.1.1.1, rfl⟩
  | constant width =>
    unfold Item.constant
    split_ifs <;> exact ⟨rfl, rfl⟩
  | reference rest refers => exact ⟨Item.endsPath_of_goesOn ((Opcode.alone_or_refers _).2 refers), rfl⟩
  | jump label branch => exact ⟨rfl, rfl⟩

end Item.Means

-- What has been generated of a stretch of code, and which of its labels are reached and placed.
structure Script where
  said : List Meaning
  alive : Bool
  labels : Nat
  arrived : Nat → Bool
  placed : Nat → Option Nat

namespace Script

variable {s : Script} {live : Nat → Prop} {label : Nat}

def write (s : Script) (m : Meaning) : Script :=
  if s.alive then
    { s with said := s.said ++ [m], alive := !m.ends, arrived := fun k => s.arrived k || m.label? = some k }
  else s

def withLabel (s : Script) : Script :=
  { s with labels := s.labels + 1 }

def place (s : Script) (label : Nat) : Script :=
  { s with
    alive := s.alive || s.arrived label
    arrived := fun k => s.arrived k || (s.alive && k = label)
    placed := fun k => if k = label then some s.said.length else s.placed k }

-- Control comes to the end, or it has left by one of these labels.
def Steady (s : Script) (live : Nat → Prop) : Prop :=
  s.alive = true ∨ ∃ k, live k ∧ s.arrived k = true

theorem labels_write (s : Script) (m : Meaning) : (s.write m).labels = s.labels := by
  unfold write
  split_ifs <;> rfl

theorem Steady.mono {more : Nat → Prop} (steady : s.Steady live) (sub : ∀ k, live k → more k) : s.Steady more :=
  steady.imp id fun ⟨k, known, arrived⟩ => ⟨k, sub k known, arrived⟩

theorem Steady.write (steady : s.Steady live) (known : ∀ k, m.label? = some k → live k) : (s.write m).Steady live := by
  unfold Script.write
  split_ifs with alive
  · cases m with
    | jump opcode k =>
      right
      exact ⟨k, known k rfl, by simp [Meaning.label?]⟩
    | _ => exact .inl rfl
  · exact steady

theorem Steady.place (steady : s.Steady fun k => k = label ∨ live k) : (s.place label).Steady live := by
  rcases steady with alive | ⟨k, rfl | known, arrived⟩
  · exact .inl (by simp [Script.place, alive])
  · exact .inl (by simp [Script.place, arrived])
  · exact .inr ⟨k, known, by simp [Script.place, arrived]⟩

end Script

structure Enacts (start : CodeBuffer) (s : Script) (items : List Item) (w : Workspace) : Prop where
  valid : w.pool.Valid
  alive : w.code.alive = s.alive
  size : w.code.labels.size = start.labels.size + s.labels
  arrived : ∀ k, (arrival w.code.labels ⟨start.labels.size + k⟩).isSome = s.arrived k
  means : List.Forall₂ (Item.Means start.labels.size w.pool) items s.said
  holds : ∀ before, start.Holds before → w.code.Holds (before ++ items)
  pc : w.code.pc = Item.endFrom start.pc items
  known : ∀ m ∈ s.said, ∀ k, m.label? = some k → k < s.labels
  placed : ∀ k, position w.code.labels ⟨start.labels.size + k⟩ =
    (s.placed k).map fun n => Item.endFrom start.pc (items.take n)
  within : ∀ k n, s.placed k = some n → n ≤ items.length

namespace Enacts

variable {start : CodeBuffer} {s : Script} {items : List Item} {w : Workspace} (enacts : Enacts start s items w)
include enacts

theorem pooled {pool : ConstantPool} (valid : pool.Valid) (grown : w.pool.Extends pool) :
    Enacts start s items { w with pool } :=
  { enacts with valid, means := enacts.means.imp fun _ _ means => means.mono grown }

theorem writes (writes : CodeBuffer.Writes item pops pushes w.code c) (means : item.Means start.labels.size w.pool m)
    (formed : item.WellFormed) (known : ∀ k, m.label? = some k → k < s.labels) :
    Enacts start (s.write m) (items ++ [item]) { w with code := c } := by
  obtain ⟨ends, targets⟩ := means.leads
  rw [Script.write, if_pos (enacts.alive ▸ writes.alive)]
  refine ⟨enacts.valid, ?_, ?_, fun k => ?_, List.rel_append enacts.means (.cons means .nil),
    fun before holds => ?_, ?_,
    List.forall_mem_append.2 ⟨enacts.known, by simpa using known⟩, fun k => ?_, fun k n placed => ?_⟩ <;> try dsimp only
  · rw [writes.ends, ends]
  · rw [writes.labels, CodeBuffer.size_foldl_arriveAt, enacts.size]
  · rw [writes.labels, CodeBuffer.arrival_foldl_arriveAt, targets, ← enacts.arrived, enacts.size]
    by_cases target : m.label? = some k
    · simp [target, known k target]
    · cases label : m.label? with
      | none => simp
      | some n =>
        have apart : k ≠ n := fun same => target (same ▸ label)
        simp [apart, Ne.symm apart]
  · rw [← List.append_assoc]
    exact writes.holds formed (enacts.holds before holds)
  · rw [writes.pc, enacts.pc, Item.endFrom_append]
    rfl
  · rw [writes.labels, CodeBuffer.position_foldl_arriveAt, enacts.placed]
    exact Option.map_congr fun n placed => by rw [List.take_append_of_le_length (enacts.within k n placed)]
  · exact (enacts.within k n placed).trans (by simp)

theorem written (written : CodeBuffer.Written item pops pushes w.code c)
    (means : item.Means start.labels.size w.pool m) (formed : item.WellFormed)
    (known : ∀ k, m.label? = some k → k < s.labels) : ∃ items, Enacts start (s.write m) items { w with code := c } := by
  rcases written with ⟨dead, rfl⟩ | writes
  · rw [Script.write, if_neg (by simp [← enacts.alive, dead])]
    exact ⟨items, enacts⟩
  · exact ⟨_, enacts.writes writes means formed known⟩

theorem withLabel : Enacts start s.withLabel items { w with code := w.code.withLabel } where
  valid := enacts.valid
  alive := enacts.alive
  size := by rw [w.code.size_withLabel, enacts.size]; rfl
  arrived k := by rw [w.code.arrival_withLabel]; exact enacts.arrived k
  means := enacts.means
  holds before holds := (enacts.holds before holds).congr rfl rfl
  pc := enacts.pc
  known m member k target := Nat.lt_succ_of_lt (enacts.known m member k target)
  placed k := by rw [w.code.position_withLabel]; exact enacts.placed k
  within := enacts.within

theorem place {label : Nat} (known : label < s.labels) :
    Enacts start (s.place label) items { w with code := w.code.place ⟨start.labels.size + label⟩ } := by
  have old : start.labels.size + label < w.code.labels.size := enacts.size ▸ Nat.add_lt_add_left known _
  refine ⟨enacts.valid, ?_, ?_, fun k => ?_, enacts.means, fun before holds => ?_, ?_, enacts.known, fun k => ?_,
    fun k n placed => ?_⟩ <;> dsimp only [Script.place] at *
  · rw [CodeBuffer.place_eq, ← enacts.arrived, ← enacts.alive]
  · rw [CodeBuffer.size_place, enacts.size]
  · rw [CodeBuffer.arrival_place, ← enacts.arrived, ← enacts.alive]
    by_cases here : w.code.alive = true ∧ k = label
    · simp [here, old]
    · rw [if_neg fun h => here ⟨h.1, by simpa using h.2.1⟩]
      simp only [not_and] at here
      simpa using fun alive same => absurd same (here alive)
  · exact (enacts.holds before holds).congr (by rw [CodeBuffer.place_eq]) (by rw [CodeBuffer.place_eq])
  · rw [CodeBuffer.place_eq]
    exact enacts.pc
  · rw [CodeBuffer.position_place]
    by_cases same : k = label
    · simp [same, old, enacts.pc, ← enacts.means.length_eq]
    · simp [same, enacts.placed]
  · split_ifs at placed
    · simp [← Option.some.inj placed, enacts.means.length_eq]
    · exact enacts.within k n placed

end Enacts

/-- Two buffers after which the same code is written, and the local names that it asks for. -/
structure Pairing where
  first : CodeBuffer
  second : CodeBuffer
  names : List String

namespace Pairing

def label (pair : Pairing) (k : Nat) : Label × Label :=
  (⟨pair.first.labels.size + k⟩, ⟨pair.second.labels.size + k⟩)

structure Abreast (pair : Pairing) (s : Script) (w w' : Workspace) : Prop where
  agree : w.slots.Agree w'.slots pair.names
  first : ∃ items, Enacts pair.first s items w
  second : ∃ items, Enacts pair.second s items w'

end Pairing

end ClassForge
