import ClassForge.Proofs.Decoding

set_option autoImplicit false

namespace ClassForge

namespace Item

def constant (index : UInt16) (width : Nat) : Item :=
  if width = 2 then .plain .ldc2W (Bytes.u2 index)
  else if index ≤ 0xff then .plain .ldc [index.toUInt8]
  else .plain .ldcW (Bytes.u2 index)

def smallInt (value : Int) : Item :=
  if -1 ≤ value ∧ value ≤ 5 then .plain (.iconst0 + UInt8.ofInt value) []
  else if -128 ≤ value ∧ value ≤ 127 then .plain .bipush [UInt8.ofInt value]
  else .plain .sipush (Bytes.u2 (UInt16.ofInt value))

def access (base shortBase : Opcode) (kind : Kind) (slot : Nat) : Item :=
  if slot ≤ 3 then .plain (shortBase + UInt8.ofNat (kind.familyOffset * 4 + slot)) []
  else if slot ≤ 255 then .plain (base.ofFamily kind) [UInt8.ofNat slot]
  else .plain .wide (base.ofFamily kind :: Bytes.u2 (UInt16.ofNat slot))

def load (kind : Kind) (slot : Nat) : Item :=
  access .iload .iload0 kind slot

def store (kind : Kind) (slot : Nat) : Item :=
  access .istore .istore0 kind slot

def invoke (opcode : Opcode) (index : UInt16) (args : Nat) : Item :=
  .plain opcode (Bytes.u2 index ++ if opcode = .invokeinterface then [UInt8.ofNat (args + 1), 0] else [])

end Item

namespace CodeBuffer

theorem append_append (b : CodeBuffer) (bytes more : List UInt8) :
    (b.append bytes).append more = b.append (bytes ++ more) := by
  have : (b.bytes ++ bytes) ++ more = b.bytes ++ (bytes ++ more) := by
    apply Array.toList_inj.1
    simp
  simp only [append, this]

theorem Adds.append (b : CodeBuffer) (bytes : List UInt8) : Adds [.code bytes] b (b.append bytes) where
  bytes := by simp [CodeBuffer.append, Chunk.blank]
  fixups := by simp [CodeBuffer.append, Chunk.fixups]

def arriveAt (depth : Nat) (labels : Array LabelState) (label : Label) : Array LabelState :=
  labels.modify label.index (fun s => { s with depth := s.depth.or (some depth) })

structure Writes (item : Item) (pops pushes : Nat) (b later : CodeBuffer) : Prop where
  alive : b.alive = true
  enough : pops ≤ b.depth
  adds : Adds (item.chunks b.pc) b later
  depth : later.depth = b.depth - pops + pushes
  grown : b.maxDepth ≤ later.maxDepth
  peaks : b.depth ≤ b.maxDepth → later.maxDepth = max b.maxDepth later.depth
  small : b.maxDepth ≤ 65535 → later.maxDepth ≤ 65535
  labels : later.labels = item.targets.foldl (arriveAt (b.depth - pops)) b.labels
  ends : later.alive = !item.endsPath

def Written (item : Item) (pops pushes : Nat) (b later : CodeBuffer) : Prop :=
  (b.alive = false ∧ later = b) ∨ Writes item pops pushes b later

theorem Writes.peak {item : Item} {pops pushes : Nat} {b later : CodeBuffer} (writes : Writes item pops pushes b later)
    (peak : b.depth ≤ b.maxDepth) : later.depth ≤ later.maxDepth := by
  rw [writes.peaks peak]
  exact Nat.le_max_right _ _

theorem Writes.bytes {opcode : Opcode} {operands : List UInt8} {pops pushes : Nat} {b later : CodeBuffer}
    (writes : Writes (.plain opcode operands) pops pushes b later) :
    later.bytes.toList = b.bytes.toList ++ opcode :: operands := by
  simpa [Item.chunks, Chunk.blank] using writes.adds.bytes

namespace Written

variable {item : Item} {pops pushes : Nat} {b later : CodeBuffer} (written : Written item pops pushes b later)
include written

theorem writes (alive : b.alive = true) : Writes item pops pushes b later := by
  rcases written with ⟨dead, -⟩ | writes
  · rw [alive] at dead
    cases dead
  · exact writes

theorem of_dead (dead : b.alive = false) : later = b := by
  rcases written with ⟨-, same⟩ | writes
  · exact same
  · rw [writes.alive] at dead
    cases dead

theorem ends_dead (ends : item.endsPath = true) : later.alive = false := by
  rcases written with ⟨dead, rfl⟩ | writes
  · exact dead
  · rw [writes.ends, ends]
    rfl

end Written

end CodeBuffer

variable {pops pushes width : Nat} {operands : List UInt8} {index : UInt16} {slots : Nat} {value : Int} {kind : Kind}
  {pairs : List (Int × Label)}

namespace Emit

open CodeBuffer

variable {b later : CodeBuffer} {opcode : Opcode} {u : Unit}

@[simp]
theorem whenAlive_returns {step : Emit Unit} :
    whenAlive step b = .ok u later ↔ (b.alive = false ∧ later = b) ∨ (b.alive = true ∧ step b = .ok u later) := by
  cases h : b.alive <;> simp [whenAlive, h, eq_comm (a := later)]

@[simp]
theorem append_returns {bytes : List UInt8} : append bytes b = .ok u later ↔ b.append bytes = later := by
  simp [append]

@[simp]
theorem pop_returns : pop slots b = .ok u later ↔ slots ≤ b.depth ∧ { b with depth := b.depth - slots } = later := by
  simp [pop]

@[simp]
theorem push_returns : push slots b = .ok u later ↔ b.depth + slots ≤ 65535 ∧ b.push slots = later := by
  simp [push]

@[simp]
theorem stackEffect_returns {effect : Nat × Nat} :
    stackEffect opcode b = .ok effect later ↔ opcode.stackEffect? = some effect ∧ b = later := by
  cases h : opcode.stackEffect? <;> simp [stackEffect, h]

@[simp]
theorem endPath_returns :
    endPath opcode b = .ok u later ↔
      (if opcode.isReturn || opcode = .athrow || opcode = .goto then b.kill else b) = later := by
  unfold endPath
  split <;> simp_all

@[simp]
theorem effect_returns :
    effect pops pushes b = .ok u later ↔
      pops ≤ b.depth ∧ b.depth - pops + pushes ≤ 65535 ∧
        { b with depth := b.depth - pops + pushes
                 maxDepth := max b.maxDepth (b.depth - pops + pushes) } = later := by
  simp [effect, CodeBuffer.push, and_assoc]

theorem writes_plain (opcode : Opcode) (operands : List UInt8) (alive : b.alive = true)
    (enough : pops ≤ b.depth) (fits : b.depth - pops + pushes ≤ 65535) :
    Writes (.plain opcode operands) pops pushes b
      { b with
        bytes := b.bytes ++ opcode :: operands
        depth := b.depth - pops + pushes
        maxDepth := max b.maxDepth (b.depth - pops + pushes)
        alive := !(Item.plain opcode operands).endsPath } where
  alive := alive
  enough := enough
  adds := ⟨(Adds.append b _).bytes, (Adds.append b _).fixups⟩
  depth := rfl
  grown := Nat.le_max_left _ _
  peaks := fun _ => rfl
  small := fun small => Nat.max_le.2 ⟨small, fits⟩
  labels := rfl
  ends := rfl

theorem fixed_returns :
    fixed opcode operands b = .ok u later ↔
      ∃ effect, opcode.stackEffect? = some effect ∧ effect.1 ≤ b.depth ∧
        b.depth - effect.1 + effect.2 ≤ 65535 ∧
        { b with
          bytes := b.bytes ++ opcode :: operands
          depth := b.depth - effect.1 + effect.2
          maxDepth := max b.maxDepth (b.depth - effect.1 + effect.2) } = later := by
  simp [fixed, CodeBuffer.append, and_assoc]

theorem op_returns (h : op opcode b = .ok u later) :
    ∃ pops pushes, (b.alive = true → opcode.stackEffect? = some (pops, pushes)) ∧
      Written (.plain opcode []) pops pushes b later := by
  simp only [op, whenAlive_returns, bind_returns, fixed_returns, endPath_returns] at h
  rcases h with dead | ⟨alive, -, _, ⟨effect, known, enough, fits, rfl⟩, rfl⟩
  · exact ⟨0, 0, by simp [dead.1], .inl dead⟩
  · refine ⟨effect.1, effect.2, fun _ => known, .inr ?_⟩
    have := writes_plain opcode [] alive enough fits
    by_cases ends : opcode.isReturn || opcode = .athrow || opcode = .goto
    · simpa [Item.endsPath, ends, CodeBuffer.kill] using this
    · simpa [Item.endsPath, ends, alive] using this

theorem whenAlive_fixed_returns (goesOn : (Item.plain opcode operands).endsPath = false)
    (h : whenAlive (fixed opcode operands) b = .ok u later) :
    ∃ pops pushes, (b.alive = true → opcode.stackEffect? = some (pops, pushes)) ∧
      Written (.plain opcode operands) pops pushes b later := by
  simp only [whenAlive_returns, fixed_returns] at h
  rcases h with dead | ⟨alive, effect, known, enough, fits, rfl⟩
  · exact ⟨0, 0, by simp [dead.1], .inl dead⟩
  · refine ⟨effect.1, effect.2, fun _ => known, .inr ?_⟩
    simpa [goesOn, alive] using writes_plain opcode operands alive enough fits

theorem writes_push (alive : b.alive = true)
    (goesOn : (Item.plain opcode operands).endsPath = false) (fits : b.depth + width ≤ 65535) :
    Writes (.plain opcode operands) 0 width b ((b.append (opcode :: operands)).push width) := by
  simpa [goesOn, alive, CodeBuffer.append, CodeBuffer.push] using
    writes_plain opcode operands alive (Nat.zero_le _) fits

theorem op_written (known : opcode.stackEffect? = some (pops, pushes))
    (h : op opcode b = .ok u later) : Written (.plain opcode []) pops pushes b later := by
  obtain ⟨pops', pushes', same, dead | writes⟩ := op_returns h
  · exact .inl dead
  · obtain ⟨rfl, rfl⟩ : pops = pops' ∧ pushes = pushes' := by simpa [known] using same writes.alive
    exact .inr writes

theorem fixed_written (known : opcode.stackEffect? = some (pops, pushes))
    (goesOn : (Item.plain opcode operands).endsPath = false) (h : whenAlive (fixed opcode operands) b = .ok u later) :
    Written (.plain opcode operands) pops pushes b later := by
  obtain ⟨pops', pushes', same, dead | writes⟩ := whenAlive_fixed_returns goesOn h
  · exact .inl dead
  · obtain ⟨rfl, rfl⟩ : pops = pops' ∧ pushes = pushes' := by simpa [known] using same writes.alive
    exact .inr writes

theorem stackEffect_iconst (low : -1 ≤ value) (high : value ≤ 5) :
    (Opcode.iconst0 + UInt8.ofInt value).stackEffect? = some (0, 1) := by
  interval_cases value <;> decide

theorem smallInt_returns {found : Bool} (h : smallInt value b = .ok found later) :
    (found = false ∧ later = b ∧ ¬ (-32768 ≤ value ∧ value ≤ 32767)) ∨
      (found = true ∧ (-32768 ≤ value ∧ value ≤ 32767) ∧ Written (.smallInt value) 0 1 b later) := by
  simp only [smallInt, ite_returns, bind_returns, pure_returns, opByte, opWord] at h
  rcases h with ⟨tiny, _, _, written, rfl, rfl⟩ | ⟨notTiny, ⟨byte, _, _, written, rfl, rfl⟩ |
    ⟨notByte, ⟨word, _, _, written, rfl, rfl⟩ | ⟨large, rfl, rfl⟩⟩⟩
  · refine .inr ⟨rfl, by omega, ?_⟩
    rw [Item.smallInt, if_pos tiny]
    exact op_written (stackEffect_iconst tiny.1 tiny.2) written
  · refine .inr ⟨rfl, by omega, ?_⟩
    rw [Item.smallInt, if_neg notTiny, if_pos byte]
    exact fixed_written rfl rfl written
  · refine .inr ⟨rfl, word, ?_⟩
    rw [Item.smallInt, if_neg notTiny, if_neg notByte]
    exact fixed_written rfl rfl written
  · exact .inl ⟨rfl, rfl, large⟩

theorem constant_returns (h : constant index width b = .ok u later) :
    Written (.constant index width) 0 width b later := by
  simp only [constant, whenAlive_returns, bind_returns, ite_returns, append_returns, push_returns] at h
  rcases h with dead | ⟨alive, ⟨wide, -, _, rfl, fits, rfl⟩ | ⟨narrow, ⟨short, -, _, rfl, fits, rfl⟩ |
    ⟨long, -, _, rfl, fits, rfl⟩⟩⟩
  · exact .inl dead
  · simpa [Written, Item.constant, wide] using Or.inr (writes_push alive rfl fits)
  · simpa [Written, Item.constant, narrow, short] using Or.inr (writes_push alive rfl fits)
  · simpa [Written, Item.constant, narrow, long] using Or.inr (writes_push alive rfl fits)

theorem goesOn_short : ∀ kind : Kind, ∀ slot < 4,
    (Item.plain (.iload0 + UInt8.ofNat (kind.familyOffset * 4 + slot)) []).endsPath = false ∧
    (Item.plain (.istore0 + UInt8.ofNat (kind.familyOffset * 4 + slot)) []).endsPath = false := by
  intro kind
  cases kind <;> decide

theorem localAccess_load (kind : Kind) (slot : Nat) :
    ∃ opcode operands, Item.load kind slot = .plain opcode operands ∧
      localAccess .iload .iload0 kind slot = opcode :: operands ∧ (Item.plain opcode operands).endsPath = false := by
  unfold localAccess Item.load Item.access
  split_ifs with short byte
  · exact ⟨_, _, rfl, rfl, (goesOn_short kind slot (by omega)).1⟩
  · exact ⟨_, _, rfl, rfl, by cases kind <;> rfl⟩
  · exact ⟨_, _, rfl, rfl, rfl⟩

theorem localAccess_store (kind : Kind) (slot : Nat) :
    ∃ opcode operands, Item.store kind slot = .plain opcode operands ∧
      localAccess .istore .istore0 kind slot = opcode :: operands ∧ (Item.plain opcode operands).endsPath = false := by
  unfold localAccess Item.store Item.access
  split_ifs with short byte
  · exact ⟨_, _, rfl, rfl, (goesOn_short kind slot (by omega)).2⟩
  · exact ⟨_, _, rfl, rfl, by cases kind <;> rfl⟩
  · exact ⟨_, _, rfl, rfl, rfl⟩

theorem load_returns {slot : Nat} (h : load kind slot b = .ok u later) :
    Written (.load kind slot) 0 kind.width b later := by
  obtain ⟨opcode, operands, item, bytes, goesOn⟩ := localAccess_load kind slot
  simp only [load, bytes, whenAlive_returns, bind_returns, append_returns, push_returns] at h
  rcases h with dead | ⟨alive, -, _, rfl, fits, rfl⟩
  · exact .inl dead
  · exact .inr (item ▸ writes_push alive goesOn fits)

theorem store_returns {slot : Nat} (h : store kind slot b = .ok u later) :
    Written (.store kind slot) kind.width 0 b later := by
  obtain ⟨opcode, operands, item, bytes, goesOn⟩ := localAccess_store kind slot
  simp only [store, bytes, whenAlive_returns, bind_returns, append_returns, pop_returns] at h
  rcases h with dead | ⟨alive, -, _, rfl, enough, rfl⟩
  · exact .inl dead
  · right
    rw [item]
    refine ⟨alive, enough, ⟨(Adds.append b _).bytes, (Adds.append b _).fixups⟩, rfl, Nat.le_refl _, ?_, id, rfl, ?_⟩
    · exact fun peak => (Nat.max_eq_left (Nat.le_trans (Nat.sub_le _ _) peak)).symm
    · simp [CodeBuffer.append, goesOn, alive]

theorem invoke_returns {args returns : Nat} (goesOn : (Item.invoke opcode index args).endsPath = false)
    (h : invoke opcode index args returns b = .ok u later) :
    Written (.invoke opcode index args) (if opcode = .invokestatic then args else args + 1) returns
      b later := by
  simp only [invoke, whenAlive_returns, bind_returns, ite_returns, append_returns, effect_returns] at h
  rcases h with dead | ⟨alive, -, _, rfl, ⟨isInterface, -, _, rfl, enough, fits, rfl⟩ |
    ⟨notInterface, enough, fits, rfl⟩⟩
  · exact .inl dead
  · have := writes_plain opcode (Bytes.u2 index ++ [UInt8.ofNat (args + 1), 0]) alive enough fits
    rw [Item.invoke, if_pos isInterface] at goesOn ⊢
    rw [goesOn, Bool.not_false, ← alive] at this
    rw [append_append]
    exact .inr this
  · have := writes_plain opcode (Bytes.u2 index) alive enough fits
    rw [Item.invoke, if_neg notInterface, List.append_nil] at goesOn ⊢
    rw [goesOn, Bool.not_false, ← alive] at this
    exact .inr this

theorem field_returns (goesOn : (Item.plain opcode (Bytes.u2 index)).endsPath = false)
    (h : field opcode index width b = .ok u later) :
    Written (.plain opcode (Bytes.u2 index)) (fieldEffect opcode width).1 (fieldEffect opcode width).2
      b later := by
  simp only [field, whenAlive_returns, bind_returns, append_returns, effect_returns] at h
  rcases h with dead | ⟨alive, -, _, rfl, enough, fits, rfl⟩
  · exact .inl dead
  · right
    simpa [goesOn, alive, CodeBuffer.append] using writes_plain opcode (Bytes.u2 index) alive enough fits

theorem jump_returns {target : Label} (h : jump opcode target b = .ok u later) :
    ∃ pops pushes, (b.alive = true → opcode.stackEffect? = some (pops, pushes)) ∧
      Written (.jump opcode target) pops 0 b later := by
  simp only [jump, whenAlive_returns, bind_returns, stackEffect_returns, modify_returns, pop_returns,
    endPath_returns] at h
  rcases h with dead | ⟨alive, effect, _, ⟨known, rfl⟩, -, _, rfl, -, _, ⟨enough, rfl⟩, -, _, rfl, rfl⟩
  · exact ⟨0, 0, by simp [dead.1], .inl dead⟩
  · refine ⟨effect.1, effect.2, fun _ => known, .inr ?_⟩
    have writes : Writes (.jump opcode target) effect.1 0 b
        { b with
          bytes := b.bytes ++ [opcode, 0, 0]
          fixups := b.fixups.push { opcodePc := b.pc, operandPc := b.pc + 1, label := target, isWide := false }
          depth := b.depth - effect.1
          labels := arriveAt (b.depth - effect.1) b.labels target
          alive := !(Item.jump opcode target).endsPath } := by
      refine ⟨alive, enough, ⟨?_, ?_⟩, rfl, Nat.le_refl _, ?_, id, rfl, rfl⟩
      · simp [Item.chunks, Chunk.blank]
      · simp [Item.chunks, Chunk.fixups]
      · exact fun peak => (Nat.max_eq_left (Nat.le_trans (Nat.sub_le _ _) peak)).symm
    by_cases ends : opcode.isReturn || opcode = .athrow || opcode = .goto
    · rw [if_pos ends]
      rwa [Item.endsPath, ends] at writes
    · rw [if_neg ends]
      rwa [Item.endsPath, Bool.eq_false_iff.2 ends, Bool.not_false, ← alive] at writes

theorem adds_switchTarget (opcodePc : Nat) (label : Label) :
    Adds [.gap opcodePc label true] b (((b.addFixup
      { opcodePc, operandPc := b.pc, label, isWide := true }).append [0, 0, 0, 0]).recordArrival label) :=
  ⟨by simp [CodeBuffer.addFixup, CodeBuffer.append, CodeBuffer.recordArrival, Chunk.blank],
    by simp [CodeBuffer.addFixup, CodeBuffer.append, CodeBuffer.recordArrival, Chunk.fixups]⟩

theorem switchPairs_returns {opcodePc : Nat}
    (h : (forM pairs fun (pair : Int × Label) => do
      append (Bytes.u4 (UInt32.ofInt pair.1))
      switchTarget opcodePc pair.2) b = .ok u later) :
    Adds (pairs.flatMap fun pair => [.code (Bytes.u4 (UInt32.ofInt pair.1)), .gap opcodePc pair.2 true]) b later ∧
      later.labels = (pairs.map (·.2)).foldl (arriveAt b.depth) b.labels ∧
      later.depth = b.depth ∧ later.maxDepth = b.maxDepth := by
  induction pairs generalizing b with
  | nil =>
    obtain rfl : b = later := by simpa using h
    exact ⟨.refl b, rfl, rfl, rfl⟩
  | cons pair rest ih =>
    simp only [List.forM_cons, bind_returns, append_returns, switchTarget, modify_returns] at h
    obtain ⟨-, _, ⟨-, _, rfl, rfl⟩, h⟩ := h
    obtain ⟨adds, kept⟩ := ih h
    exact ⟨((Adds.append b _).trans (adds_switchTarget opcodePc pair.2)).trans adds, kept⟩

theorem lookupSwitch_returns {default : Label} (h : lookupSwitch default pairs b = .ok u later) :
    Written (.switch default pairs) 1 0 b later := by
  simp only [lookupSwitch, List.forM_eq_forM, whenAlive_returns, bind_returns, get_returns,
    append_returns, pop_returns, switchTarget, modify_returns] at h
  rcases h with dead | ⟨alive, _, _, ⟨rfl, rfl⟩, -, _, rfl, -, _, ⟨enough, rfl⟩, -, _, rfl, -, _, rfl,
    _, filled, written, rfl⟩
  · exact .inl dead
  · right
    obtain ⟨adds, labels, depth, maxDepth⟩ := switchPairs_returns written
    have first : Adds [.code (Opcode.lookupswitch :: List.replicate (Instruction.padding b.pc) 0)] b
        { b.append (Opcode.lookupswitch :: List.replicate (3 - b.pc % 4) 0) with depth := b.depth - 1 } :=
      ⟨(Adds.append b _).bytes, (Adds.append b _).fixups⟩
    have whole := ((first.trans (adds_switchTarget b.pc default)).trans (.append _ _)).trans adds
    refine ⟨alive, enough, ⟨whole.bytes, whole.fixups⟩, depth, ?_, ?_, ?_, labels, rfl⟩
    · exact Nat.le_of_eq maxDepth.symm
    · intro peak
      rw [CodeBuffer.kill, depth, maxDepth]
      exact (Nat.max_eq_left (Nat.le_trans (Nat.sub_le _ _) peak)).symm
    · intro small
      rw [CodeBuffer.kill, maxDepth]
      exact small

end Emit

end ClassForge
