import Mathlib
import ClassForge.CodeBuffer
import ClassForge.Instruction

set_option autoImplicit false

namespace ClassForge

namespace Fixup

def width (f : Fixup) : Nat :=
  if f.isWide then 4 else 2

def defect? (placed : Label → Option Nat) (f : Fixup) : Option CodeError :=
  match placed f.label with
  | none => some (.unplacedLabel f.label.index)
  | some target =>
    let distance := (target : Int) - f.opcodePc
    if f.isWide = false ∧ ¬ (-32768 ≤ distance ∧ distance ≤ 32767) then some (.branchTooFar distance) else none

theorem placed_of_sound {placed : Label → Option Nat} {f : Fixup} (sound : f.defect? placed = none) :
    ∃ target, placed f.label = some target ∧ (f.isWide = false →
      -32768 ≤ (target : Int) - f.opcodePc ∧ (target : Int) - f.opcodePc ≤ 32767) := by
  unfold defect? at sound
  cases known : placed f.label with
  | none =>
    rw [known] at sound
    cases sound
  | some target =>
    rw [known] at sound
    exact ⟨target, rfl, fun short => by simpa [short] using sound⟩

def filling (f : Fixup) (distance : Int) : List UInt8 :=
  if f.isWide then Bytes.u4 (UInt32.ofInt distance) else Bytes.u2 (UInt16.ofInt distance)

theorem length_filling (f : Fixup) (distance : Int) : (f.filling distance).length = f.width := by
  unfold filling width
  split_ifs <;> rfl

end Fixup

/-- Bytes that stay, or a gap for the distance from an opcode to a label. -/
inductive Chunk where
  | code (bytes : List UInt8)
  | gap (opcodePc : Nat) (label : Label) (isWide : Bool)

namespace Chunk

def blank : Chunk → List UInt8
  | .code bytes => bytes
  | .gap _ _ isWide => List.replicate (if isWide then 4 else 2) 0

def filled (place : Label → Nat) : Chunk → List UInt8
  | .code bytes => bytes
  | .gap opcodePc label isWide => Fixup.filling { opcodePc, operandPc := 0, label, isWide }
    ((place label : Int) - opcodePc)

def fixups : Nat → List Chunk → List Fixup
  | _, [] => []
  | start, .code bytes :: rest => fixups (start + bytes.length) rest
  | start, .gap opcodePc label isWide :: rest =>
    { opcodePc, operandPc := start, label, isWide } :: fixups (start + if isWide then 4 else 2) rest

theorem length_filled (place : Label → Nat) (chunks : List Chunk) :
    (chunks.flatMap (filled place)).length = (chunks.flatMap blank).length := by
  simp only [List.length_flatMap]
  congr 2
  funext chunk
  cases chunk with
  | code => rfl
  | gap => simp [filled, blank, Fixup.length_filling, Fixup.width]

theorem fixups_append (start : Nat) (chunks more : List Chunk) :
    fixups start (chunks ++ more) = fixups start chunks ++ fixups (start + (chunks.flatMap blank).length) more := by
  induction chunks generalizing start with
  | nil => rfl
  | cons chunk rest ih => cases chunk <;> simp [fixups, ih, blank, Nat.add_assoc]

end Chunk

namespace CodeBuffer

structure Adds (chunks : List Chunk) (b later : CodeBuffer) : Prop where
  bytes : later.bytes.toList = b.bytes.toList ++ chunks.flatMap Chunk.blank
  fixups : later.fixups.toList = b.fixups.toList ++ Chunk.fixups b.pc chunks

namespace Adds

variable {chunks more : List Chunk} {b mid later : CodeBuffer}

theorem refl (b : CodeBuffer) : Adds [] b b :=
  ⟨by simp, by simp [Chunk.fixups]⟩

theorem pc (adds : Adds chunks b later) : later.pc = b.pc + (chunks.flatMap Chunk.blank).length := by
  rw [CodeBuffer.pc, ← Array.length_toList, adds.bytes, List.length_append]
  rfl

theorem trans (first : Adds chunks b mid) (second : Adds more mid later) : Adds (chunks ++ more) b later where
  bytes := by rw [second.bytes, first.bytes, List.flatMap_append, List.append_assoc]
  fixups := by rw [second.fixups, first.fixups, first.pc, Chunk.fixups_append, List.append_assoc]

theorem cut (first : Adds chunks b mid) (both : Adds (chunks ++ more) b later) : Adds more mid later where
  bytes := by rw [both.bytes, first.bytes, List.flatMap_append, List.append_assoc]
  fixups := by rw [both.fixups, first.fixups, first.pc, Chunk.fixups_append, List.append_assoc]

end Adds

end CodeBuffer

inductive Item where
  | plain (opcode : Opcode) (operands : List UInt8)
  | jump (opcode : Opcode) (target : Label)
  | switch (default : Label) (pairs : List (Int × Label))
  deriving DecidableEq

variable {pc at' : Nat} {item : Item} {items : List Item}

namespace Item

def opcode : Item → Opcode
  | .plain opcode _ => opcode
  | .jump opcode _ => opcode
  | .switch .. => .lookupswitch

def targets : Item → List Label
  | .plain .. => []
  | .jump _ target => [target]
  | .switch default pairs => default :: pairs.map (·.2)

def endsPath : Item → Bool
  | .plain opcode _ => opcode.isReturn || opcode = .athrow || opcode = .goto
  | .jump opcode _ => opcode.isReturn || opcode = .athrow || opcode = .goto
  | .switch .. => true

def size (pc : Nat) : Item → Nat
  | .plain _ operands => 1 + operands.length
  | .jump .. => 3
  | .switch _ pairs => 1 + Instruction.padding pc + 8 + 8 * pairs.length

def pairBytes (long : Label → List UInt8) (pairs : List (Int × Label)) : List UInt8 :=
  pairs.flatMap (fun (key, label) => Bytes.u4 (UInt32.ofInt key) ++ long label)

def operandsWith (short long : Label → List UInt8) (pc : Nat) : Item → List UInt8
  | .plain _ operands => operands
  | .jump _ target => short target
  | .switch default pairs =>
    List.replicate (Instruction.padding pc) 0 ++ (long default ++
      (Bytes.u4 (UInt32.ofNat pairs.length) ++ pairBytes long pairs))

def shortOffset (place : Label → Nat) (pc : Nat) (label : Label) : List UInt8 :=
  Bytes.u2 (UInt16.ofInt ((place label : Int) - pc))

def longOffset (place : Label → Nat) (pc : Nat) (label : Label) : List UInt8 :=
  Bytes.u4 (UInt32.ofInt ((place label : Int) - pc))

def instruction (place : Label → Nat) (pc : Nat) (item : Item) : Instruction :=
  { pc, opcode := item.opcode
    operands := item.operandsWith (shortOffset place pc) (longOffset place pc) pc }

def WellFormed : Item → Prop
  | .plain opcode operands =>
    ∀ pc rest, Instruction.operandLength? pc opcode (operands ++ rest) = some operands.length
  | .jump opcode _ => opcode.isBranch
  | .switch .. => True

def layout {α : Type} (f : Nat → Item → List α) : Nat → List Item → List α
  | _, [] => []
  | pc, item :: rest => f pc item ++ layout f (pc + item.size pc) rest

def endFrom : Nat → List Item → Nat
  | pc, [] => pc
  | pc, item :: rest => endFrom (pc + item.size pc) rest

abbrev listing : Nat → List Item → List (Nat × Item) :=
  layout (fun pc item => [(pc, item)])

theorem layout_append {α : Type} (f : Nat → Item → List α) (pc : Nat) (items more : List Item) :
    layout f pc (items ++ more) = layout f pc items ++ layout f (endFrom pc items) more := by
  induction items generalizing pc with
  | nil => rfl
  | cons item rest ih => simp [layout, endFrom, ih]

theorem endFrom_append (pc : Nat) (items more : List Item) :
    endFrom pc (items ++ more) = endFrom (endFrom pc items) more := by
  induction items generalizing pc with
  | nil => rfl
  | cons item rest ih => simp [endFrom, ih]

theorem layout_eq_flatMap {α : Type} (f : Nat → Item → List α) (pc : Nat) (items : List Item) :
    layout f pc items = (listing pc items).flatMap (fun (pc, item) => f pc item) := by
  induction items generalizing pc with
  | nil => rfl
  | cons item rest ih => simp [layout, ih]

theorem mem_of_mem_listing (h : (at', item) ∈ listing pc items) : item ∈ items := by
  induction items generalizing pc with
  | nil => simp [layout] at h
  | cons first rest ih =>
    simp only [layout, List.singleton_append, List.mem_cons, Prod.mk.injEq] at h
    rcases h with ⟨-, rfl⟩ | h
    · exact List.mem_cons_self
    · exact List.mem_cons_of_mem _ (ih h)

theorem length_pairBytes {long : Label → List UInt8} (four : ∀ label, (long label).length = 4)
    (pairs : List (Int × Label)) : (pairBytes long pairs).length = 8 * pairs.length := by
  induction pairs with
  | nil => rfl
  | cons pair rest ih =>
    simp only [pairBytes, List.flatMap_cons, List.length_append, List.length_cons] at ih ⊢
    rw [ih, four]
    simp only [Bytes.u4, List.length_cons, List.length_nil]
    omega

theorem length_operandsWith {short long : Label → List UInt8} (two : ∀ label, (short label).length = 2)
    (four : ∀ label, (long label).length = 4) (pc : Nat) (item : Item) :
    1 + (item.operandsWith short long pc).length = item.size pc := by
  cases item with
  | plain => rfl
  | jump opcode target => simp [operandsWith, size, two]
  | switch default pairs =>
    simp only [operandsWith, size, List.length_append, List.length_replicate, four,
      length_pairBytes four, Bytes.u4, List.length_cons, List.length_nil]
    omega

theorem length_instruction (place : Label → Nat) (pc : Nat) (item : Item) :
    1 + (item.instruction place pc).operands.length = item.size pc :=
  length_operandsWith (fun _ => rfl) (fun _ => rfl) pc item

theorem size_pos (pc : Nat) (item : Item) : 0 < item.size pc := by
  cases item <;> simp only [size] <;> omega

theorem le_endFrom (pc : Nat) (items : List Item) : pc + items.length ≤ endFrom pc items := by
  induction items generalizing pc with
  | nil => exact Nat.le_refl _
  | cons item rest ih =>
    have first := item.size_pos pc
    have others := ih (pc + item.size pc)
    rw [endFrom, List.length_cons]
    omega

theorem bounds_of_mem_listing
    (h : (at', item) ∈ listing pc items) : pc ≤ at' ∧ at' + item.size at' ≤ endFrom pc items := by
  induction items generalizing pc with
  | nil => simp [layout] at h
  | cons first rest ih =>
    simp only [layout, List.singleton_append, List.mem_cons, Prod.mk.injEq] at h
    rcases h with ⟨rfl, rfl⟩ | h
    · exact ⟨Nat.le_refl _, Nat.le_trans (Nat.le_add_right _ _) (le_endFrom _ _)⟩
    · obtain ⟨low, high⟩ := ih h
      exact ⟨by omega, high⟩

theorem listing_unique {other : Item}
    (h : (at', item) ∈ listing pc items) (h' : (at', other) ∈ listing pc items) : item = other := by
  induction items generalizing pc with
  | nil => simp [layout] at h
  | cons first rest ih =>
    have later {x : Item} (hx : (at', x) ∈ listing (pc + first.size pc) rest) : at' ≠ pc := by
      have := (bounds_of_mem_listing hx).1
      have := size_pos pc first
      omega
    simp only [layout, List.singleton_append, List.mem_cons, Prod.mk.injEq] at h h'
    rcases h with ⟨here, rfl⟩ | h <;> rcases h' with ⟨here', rfl⟩ | h'
    · rfl
    · exact absurd here (later h')
    · exact absurd here' (later h)
    · exact ih h h'

def chunks (pc : Nat) : Item → List Chunk
  | .plain opcode operands => [.code (opcode :: operands)]
  | .jump opcode target => [.code [opcode], .gap pc target false]
  | .switch default pairs =>
    .code (Opcode.lookupswitch :: List.replicate (Instruction.padding pc) 0) :: .gap pc default true ::
      .code (Bytes.u4 (UInt32.ofNat pairs.length)) ::
      pairs.flatMap fun pair => [.code (Bytes.u4 (UInt32.ofInt pair.1)), .gap pc pair.2 true]

theorem filled_chunks (place : Label → Nat) (pc : Nat) (item : Item) :
    (item.chunks pc).flatMap (Chunk.filled place) = item.opcode :: (item.instruction place pc).operands := by
  cases item with
  | plain => simp [chunks, Chunk.filled, opcode, instruction, operandsWith]
  | jump => rfl
  | switch default pairs =>
    simp [instruction, opcode, operandsWith, chunks, Chunk.filled, Fixup.filling, pairBytes, longOffset,
      List.flatMap_assoc]

theorem length_chunks (pc : Nat) (item : Item) : ((item.chunks pc).flatMap Chunk.blank).length = item.size pc := by
  rw [← Chunk.length_filled fun _ => 0, filled_chunks, List.length_cons, Nat.add_comm, length_instruction]

theorem jumps_chunks (pc start : Nat) (item : Item) :
    (Chunk.fixups start (item.chunks pc)).map (fun f => (f.opcodePc, f.label)) = item.targets.map (pc, ·) := by
  have entries (start : Nat) (pairs : List (Int × Label)) : (Chunk.fixups start (pairs.flatMap fun pair =>
      [.code (Bytes.u4 (UInt32.ofInt pair.1)), .gap pc pair.2 true])).map (fun f => (f.opcodePc, f.label)) =
      pairs.map fun pair => (pc, pair.2) := by
    induction pairs generalizing start with
    | nil => rfl
    | cons pair rest ih => simp [Chunk.fixups, ih]
  cases item with
  | plain | jump => rfl
  | switch default pairs => simp [chunks, Chunk.fixups, targets, entries, Function.comp_def]

theorem length_layout (pc : Nat) (items : List Item) :
    pc + ((layout chunks pc items).flatMap Chunk.blank).length = endFrom pc items := by
  induction items generalizing pc with
  | nil => rfl
  | cons item rest ih =>
    rw [layout, endFrom, List.flatMap_append, List.length_append, length_chunks, ← ih, Nat.add_assoc]

theorem fixups_layout (pc : Nat) (items : List Item) : Chunk.fixups pc (layout chunks pc items) =
    (listing pc items).flatMap fun (pc, item) => Chunk.fixups pc (item.chunks pc) := by
  induction items generalizing pc with
  | nil => rfl
  | cons item rest ih =>
    rw [layout, Chunk.fixups_append, length_chunks, ih]
    rfl

end Item

end ClassForge
