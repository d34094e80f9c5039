import ClassForge.Proofs.StmtGrowth

set_option autoImplicit false

namespace ClassForge

open CodeBuffer (arrival position)

structure Body where
  pool : ConstantPool
  buffer : CodeBuffer
  bytes : List UInt8
  code : List Instruction
  maxLocals : Nat
  finished : buffer.finish = .ok bytes
  decoded : Instruction.decode bytes = .ok code

namespace Body

def place (body : Body) (label : Label) : Nat :=
  CodeBuffer.placeOf body.buffer.labels label

structure Installed (body : Body) (pc : Nat) (item : Item) : Prop where
  fetched : item.instruction body.place pc ∈ body.code
  resolved : CodeBuffer.Resolved body.buffer.labels pc item
  room : pc + item.size pc ≤ 65535
  near : ∀ label ∈ item.targets, body.place label ≤ 65535

theorem installed_of_laid {body : Body} {items rest : List Item} {item : Item}
    (laid : body.buffer.Laid (items ++ item :: rest)) : body.Installed (Item.endFrom 0 items) item := by
  obtain ⟨decoded, -, small, resolved⟩ := CodeBuffer.finish_returns laid.toHolds body.finished
  have listed : (Item.endFrom 0 items, item) ∈ Item.listing 0 (items ++ item :: rest) := by
    rw [Item.listing, Item.layout_append]
    exact List.mem_append_right _ (by simp [Item.layout])
  have bound {pc : Nat} {other : Item} (found : (pc, other) ∈ Item.listing 0 (items ++ item :: rest)) :
      pc + other.size pc ≤ 65535 := by
    have := (Item.bounds_of_mem_listing found).2
    rw [laid.pc_eq] at small
    omega
  refine ⟨?_, resolved _ _ listed, bound listed, fun label target => ?_⟩
  · have same : body.code = Item.program body.place (items ++ item :: rest) := by
      have := body.decoded.symm.trans decoded
      exact Except.ok.inj this
    rw [same, Item.program, Item.layout_append]
    exact List.mem_append_right _ (by simp [Item.layout])
  · have placed : position body.buffer.labels label = some (body.place label) :=
      (resolved _ _ listed).1 label target
    have arrived := laid.targets item (by simp) label target
    rcases laid.landing label _ arrived placed with ⟨other, found⟩ | ⟨same, -⟩
    · have := bound found
      omega
    · omega

theorem eq_of_pc {body : Body} {items : List Item} (laid : body.buffer.Laid items) {i j : Instruction}
    (member : i ∈ body.code) (member' : j ∈ body.code) (same : i.pc = j.pc) : i = j := by
  obtain ⟨decoded, -⟩ := CodeBuffer.finish_returns laid.toHolds body.finished
  have code := Except.ok.inj (body.decoded.symm.trans decoded)
  rw [code] at member member'
  obtain ⟨pc, item, listed, rfl⟩ := Item.mem_program.1 member
  obtain ⟨pc', item', listed', rfl⟩ := Item.mem_program.1 member'
  obtain rfl : pc = pc' := same
  rw [Item.listing_unique listed listed']

end Body

variable {label : Label} {labels : Array LabelState}

namespace CodeBuffer

def IsLaid (b : CodeBuffer) : Prop :=
  ∃ items, b.Laid items

theorem index_lt_of_position {pc : Nat} (h : position labels label = some pc) : label.index < labels.size := by
  obtain ⟨state, found, -⟩ := Option.bind_eq_some_iff.1 h
  exact (Array.getElem?_eq_some_iff.1 found).1

theorem arrival_eq_none (h : labels.size ≤ label.index) : arrival labels label = none := by
  simp [arrival, Array.getElem?_eq_none h]

end CodeBuffer

structure Workspace.LeadsTo (w : Workspace) (body : Body) : Prop where
  pool : w.pool.Extends body.pool
  laid : ∀ items, w.code.Laid items → ∃ rest, body.buffer.Laid (items ++ rest)
  place : ∀ label pc, position w.code.labels label = some pc → body.place label = pc
  depth : w.code.maxDepth ≤ body.buffer.maxDepth
  locals : w.slots.maxSize ≤ body.maxLocals

-- The workspace is a stage on the way to the finished body, where one is at hand.
def Workspace.Leads (w : Workspace) (body : Option Body) : Prop :=
  ∀ b ∈ body, w.LeadsTo b

structure Passed (w later : Workspace) : Prop where
  laid : w.code.IsLaid → later.code.IsLaid
  pc : w.code.pc ≤ later.code.pc
  arrival : ∀ label depth, arrival w.code.labels label = some depth → arrival later.code.labels label = some depth
  grown : w.code.maxDepth ≤ later.code.maxDepth
  asleep : w.code.alive = false → later.code.alive = false ∧ later.code.pc = w.code.pc ∧
    ∀ label, CodeBuffer.arrival later.code.labels label = CodeBuffer.arrival w.code.labels label

theorem Passed.arrived {w later : Workspace} (passed : Passed w later)
    (arrived : (CodeBuffer.arrival w.code.labels label).isSome = true) :
    (CodeBuffer.arrival later.code.labels label).isSome = true := by
  obtain ⟨depth, known⟩ := Option.isSome_iff_exists.1 arrived
  rw [passed.arrival _ _ known]
  rfl

namespace Growth

variable {site : Site} {fresh : Nat} {targets : List Label} {w later : Workspace} {body : Option Body}

variable (growth : Growth site fresh targets w later)
include growth

theorem isLaid (laid : w.code.IsLaid) : later.code.IsLaid := by
  obtain ⟨items, laid⟩ := laid
  obtain ⟨more, advance, -⟩ := growth.code
  exact ⟨_, advance.laid items laid⟩

theorem position (old : label.index < fresh) :
    CodeBuffer.position later.code.labels label = CodeBuffer.position w.code.labels label := by
  obtain ⟨more, advance, -⟩ := growth.code
  exact advance.position label old

theorem untouched (old : label.index < fresh) (other : label ∉ targets) :
    CodeBuffer.arrival later.code.labels label = CodeBuffer.arrival w.code.labels label := by
  obtain ⟨more, advance, -⟩ := growth.code
  exact advance.untouched label old other

theorem leads (own : w.code.labels.size ≤ fresh)
    (room : w.slots.maxSize ≤ later.slots.maxSize) (leads : later.Leads body) : w.Leads body := by
  intro b among
  have leads := leads b among
  obtain ⟨more, advance, -⟩ := growth.code
  refine ⟨growth.pool.trans leads.pool, fun items laid => ?_, fun label pc stands => ?_,
    Nat.le_trans advance.grown leads.depth, Nat.le_trans room leads.locals⟩
  · obtain ⟨rest, laid'⟩ := leads.laid _ (advance.laid items laid)
    exact ⟨more ++ rest, by rwa [← List.append_assoc]⟩
  · refine leads.place label pc ?_
    rw [advance.position label (Nat.lt_of_lt_of_le (CodeBuffer.index_lt_of_position stands) own)]
    exact stands

theorem passed (own : w.code.labels.size ≤ fresh) :
    Passed w later := by
  have laid := growth.isLaid
  obtain ⟨more, advance, -⟩ := growth.code
  refine ⟨laid, advance.pc, advance.arrival, advance.grown, fun dead => advance.asleep dead fun label old => ?_⟩
  exact CodeBuffer.arrival_eq_none (Nat.le_trans own old)

end Growth

namespace Grown

variable {site : Site} {targets : List Label} {w later : Workspace} {body : Option Body}

theorem leadsBack (grown : Grown site w.code.labels.size targets w later) (leads : later.Leads body) : w.Leads body :=
  grown.toGrowth.leads (Nat.le_refl _) (by rw [grown.slots]) leads

end Grown

namespace Lowered

variable {site : Site} {targets : List Label} {w later : Workspace} {body : Option Body}

theorem leadsBack (lowered : Lowered site w.code.labels.size targets w later) (leads : later.Leads body) :
    w.Leads body :=
  lowered.toGrowth.leads (Nat.le_refl _) lowered.slots.grown leads

end Lowered

namespace Workspace.LeadsTo

variable {w later : Workspace} {body : Body} {item : Item} {pops pushes : Nat}

theorem installed (leads : later.LeadsTo body) (laid : w.code.IsLaid)
    (writes : CodeBuffer.Writes item pops pushes w.code later.code) (formed : item.WellFormed)
    (ready : ∀ label ∈ item.targets, w.code.Ready label) : body.Installed w.code.pc item := by
  obtain ⟨items, laid⟩ := laid
  obtain ⟨rest, laid'⟩ := leads.laid _ (writes.laid formed ready laid)
  rw [laid.pc_eq]
  rw [List.append_assoc] at laid'
  exact Body.installed_of_laid laid'

theorem of_place (leads : ({ w with code := w.code.place label } : Workspace).LeadsTo body)
    (nowhere : position w.code.labels label = none) (known : label.index < w.code.labels.size) :
    w.LeadsTo body ∧ body.place label = w.code.pc := by
  refine ⟨⟨leads.pool, fun items laid => leads.laid items (w.code.place_laid label laid),
    fun other pc stands => leads.place other pc ?_, ?_, leads.locals⟩, leads.place label _ ?_⟩
  · rw [CodeBuffer.position_place, if_neg]
    · exact stands
    · rintro ⟨rfl, -⟩
      rw [nowhere] at stands
      cases stands
  · have kept : (w.code.place label).maxDepth = w.code.maxDepth := by rw [CodeBuffer.place_eq]
    exact kept ▸ leads.depth
  · rw [CodeBuffer.position_place, if_pos ⟨rfl, known⟩]

end Workspace.LeadsTo

theorem Workspace.Leads.of_slots {w : Workspace} {slots : Slots} {body : Option Body}
    (leads : ({ w with slots } : Workspace).Leads body) (wide : w.slots.maxSize ≤ slots.maxSize) : w.Leads body :=
  fun b among => have h := leads b among
    ⟨h.pool, h.laid, h.place, h.depth, Nat.le_trans wide h.locals⟩

end ClassForge
