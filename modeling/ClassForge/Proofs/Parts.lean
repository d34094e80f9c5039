import ClassForge.Proofs.Stages

set_option autoImplicit false

namespace ClassForge

open CodeBuffer (arrival position)

structure Workspace.IsStage (w : Workspace) : Prop where
  valid : w.pool.Valid
  laid : w.code.IsLaid

variable {w : Workspace}

structure Workspace.IsOpen (w : Workspace) (label : Label) : Prop where
  known : label.index < w.code.labels.size
  nowhere : position w.code.labels label = none

variable {label : Label}

theorem Workspace.IsOpen.ready (isOpen : w.IsOpen label) : w.code.Ready label :=
  ⟨isOpen.known, .inl isOpen.nowhere⟩

variable {later : Workspace}

theorem Growth.isOpen {site : Site} {fresh : Nat} {targets : List Label}
    (growth : Growth site fresh targets w later) (old : label.index < fresh) (isOpen : w.IsOpen label) :
    later.IsOpen label :=
  ⟨Nat.lt_of_lt_of_le isOpen.known growth.size, (growth.position old).trans isOpen.nowhere⟩

structure Workspace.Alike (w later : Workspace) : Prop where
  pool : later.pool = w.pool
  slots : later.slots = w.slots
  pc : later.code.pc = w.code.pc
  alive : later.code.alive = w.code.alive
  depth : later.code.depth = w.code.depth
  maxDepth : later.code.maxDepth = w.code.maxDepth
  size : w.code.labels.size ≤ later.code.labels.size
  laid : ∀ items, w.code.Laid items → later.code.Laid items
  arrival : ∀ label, arrival later.code.labels label = arrival w.code.labels label
  position : ∀ label, position later.code.labels label = position w.code.labels label

namespace Workspace.Alike

variable {w mid later : Workspace}

theorem refl (w : Workspace) : w.Alike w :=
  ⟨rfl, rfl, rfl, rfl, rfl, rfl, Nat.le_refl _, fun _ => id, fun _ => rfl, fun _ => rfl⟩

theorem trans (first : w.Alike mid) (second : mid.Alike later) : w.Alike later where
  pool := second.pool.trans first.pool
  slots := second.slots.trans first.slots
  pc := second.pc.trans first.pc
  alive := second.alive.trans first.alive
  depth := second.depth.trans first.depth
  maxDepth := second.maxDepth.trans first.maxDepth
  size := Nat.le_trans first.size second.size
  laid items laid := second.laid items (first.laid items laid)
  arrival label := (second.arrival label).trans (first.arrival label)
  position label := (second.position label).trans (first.position label)

variable (alike : w.Alike later)
include alike

theorem isOpen (isOpen : w.IsOpen label) : later.IsOpen label :=
  ⟨Nat.lt_of_lt_of_le isOpen.known alike.size, (alike.position label).trans isOpen.nowhere⟩

theorem back {body : Option Body} (leads : later.Leads body) : w.Leads body :=
  fun b among =>
    { pool := alike.pool ▸ (leads b among).pool
      laid := fun items laid => (leads b among).laid items (alike.laid items laid)
      place := fun label pc stands => (leads b among).place label pc ((alike.position label).trans stands)
      depth := alike.maxDepth ▸ (leads b among).depth
      locals := alike.slots ▸ (leads b among).locals }

theorem isLaid (laid : w.code.IsLaid) : later.code.IsLaid :=
  laid.imp alike.laid

theorem passed : Passed w later where
  laid := alike.isLaid
  pc := Nat.le_of_eq alike.pc.symm
  arrival label _ arrived := (alike.arrival label).trans arrived
  grown := Nat.le_of_eq alike.maxDepth.symm
  asleep dead := ⟨alike.alive.trans dead, alike.pc, alike.arrival⟩

end Workspace.Alike

variable {labels : List Label}

theorem Gen.newLabel_alike (h : emit .newLabel w = .ok label later) :
    w.Alike later ∧ later.IsOpen label ∧ label.index = w.code.labels.size := by
  obtain ⟨rfl, rfl⟩ := newLabel_run h
  have size := w.code.size_withLabel
  have laid (items : List Item) (laid : w.code.Laid items) : w.code.withLabel.Laid items := by
    have := (w.code.withLabel_advance 0 []).laid items laid
    rwa [List.append_nil] at this
  refine ⟨⟨rfl, rfl, rfl, rfl, rfl, rfl, by dsimp only; omega, laid, w.code.arrival_withLabel,
    w.code.position_withLabel⟩, ⟨by dsimp only; omega, ?_⟩, rfl⟩
  exact (w.code.position_withLabel _).trans (by simp [position])

structure Part (site : Site) (targets : List Label) (w later : Workspace) : Prop where
  valid : w.pool.Valid
  ready : ∀ label ∈ targets, w.code.Ready label
  lowered : Lowered site w.code.labels.size targets w later

structure Piece (site : Site) (targets : List Label) (w later : Workspace) : Prop
    extends Part site targets w later where
  slots : later.slots = w.slots

namespace Part

variable {site : Site} {body : Option Body} {targets : List Label} {w mid later : Workspace}

theorem refl (valid : w.pool.Valid) (ready : ∀ label ∈ targets, w.code.Ready label) : Part site targets w w :=
  ⟨valid, ready, .of_grown (.refl valid)⟩

theorem trans (first : Part site targets w mid) (second : Part site [] mid later) : Part site targets w later :=
  ⟨first.valid, first.ready, first.lowered.trans (second.lowered.inside first.lowered.size)⟩

variable (part : Part site targets w later)
include part

theorem valid_after : later.pool.Valid :=
  part.lowered.valid

theorem back (leads : later.Leads body) : w.Leads body :=
  part.lowered.leadsBack leads

theorem passed : Passed w later :=
  part.lowered.toGrowth.passed (Nat.le_refl _)

theorem untouched (old : label.index < w.code.labels.size)
    (other : label ∉ targets) : arrival later.code.labels label = arrival w.code.labels label :=
  part.lowered.toGrowth.untouched old other

theorem isOpen (isOpen : w.IsOpen label) : later.IsOpen label :=
  part.lowered.toGrowth.isOpen isOpen.known isOpen

theorem readyStill (ready : w.code.Ready label) : later.code.Ready label :=
  part.lowered.ready ready.1 ready

end Part

theorem Gen.Grows.piece {α : Type} {site : Site} {x : Gen α} {targets : List Label} {a : α}
    (grows : Gen.Grows site targets x) (valid : w.pool.Valid) (ready : ∀ label ∈ targets, w.code.Ready label)
    (h : x w = .ok a later) : Piece site targets w later := by
  have grown := grows w a later h valid ready
  exact ⟨⟨valid, ready, .of_grown grown⟩, grown.slots⟩

structure Placed (label : Label) (w later : Workspace) : Prop where
  same : later = { w with code := w.code.place label }
  isOpen : w.IsOpen label

variable {other : Label}

namespace Placed

variable {body : Option Body} {label : Label} {w later : Workspace}

variable (placed : Placed label w later)
include placed

theorem isLaid (laid : w.code.IsLaid) : later.code.IsLaid := by
  obtain ⟨items, laid⟩ := laid
  rw [placed.same]
  exact ⟨items, w.code.place_laid label laid⟩

theorem back (leads : later.Leads body) : w.Leads body ∧ ∀ b ∈ body, b.place label = w.code.pc := by
  have back (b : Body) (among : b ∈ body) :=
    (placed.same ▸ leads b among).of_place placed.isOpen.nowhere placed.isOpen.known
  exact ⟨fun b among => (back b among).1, fun b among => (back b among).2⟩

theorem pc : later.code.pc = w.code.pc := by
  rw [placed.same, CodeBuffer.place_eq]
  rfl

theorem slots : later.slots = w.slots := by
  rw [placed.same]

theorem size : later.code.labels.size = w.code.labels.size := by
  rw [placed.same]
  exact w.code.size_place label

theorem alive : later.code.alive = (w.code.alive || (arrival w.code.labels label).isSome) := by
  rw [placed.same, CodeBuffer.place_eq]

theorem ready (alive : w.code.alive = true) : later.code.Ready label := by
  rw [placed.same]
  exact CodeBuffer.place_ready _ _ alive placed.isOpen.known

theorem arrival_of_ne (apart : other ≠ label) : arrival later.code.labels other = arrival w.code.labels other := by
  rw [placed.same]
  exact (CodeBuffer.arrival_place _ _ _).trans (if_neg fun h => apart h.2.1)

theorem isOpen_of_ne (apart : other ≠ label) (isOpen : w.IsOpen other) : later.IsOpen other := by
  refine ⟨placed.size ▸ isOpen.known, ?_⟩
  rw [placed.same]
  exact (w.code.position_place label other).trans ((if_neg fun h => apart h.1).trans isOpen.nowhere)

end Placed

variable {site : Site}

-- The generation has come from `start` to `w`. The labels of `made` were made on the way and stand nowhere yet;
-- those of `outer` are older.
structure Span (site : Site) (start : Workspace) (outer made : List Label) (w : Workspace) : Prop
    extends Part site outer start w where
  fresh : ∀ label ∈ made, w.IsOpen label ∧ start.code.labels.size ≤ label.index
  distinct : made.Nodup

namespace Span

variable {start w later : Workspace} {outer made targets labels : List Label} {label : Label} {u : Unit}

theorem refl (valid : w.pool.Valid) (ready : ∀ label ∈ outer, w.code.Ready label) : Span site w outer [] w :=
  ⟨.refl valid ready, by simp, .nil⟩

theorem perm {others : List Label} (span : Span site start outer made w) (same : made.Perm others) :
    Span site start outer others w :=
  ⟨span.toPart, fun label member => span.fresh label (same.mem_iff.2 member), same.nodup_iff.1 span.distinct⟩

theorem unreached (span : Span site start outer made w) (member : label ∈ made) :
    arrival start.code.labels label = none :=
  CodeBuffer.arrival_eq_none (span.fresh label member).2

theorem apart (span : Span site start outer made w) (old : other ∈ outer) (new : label ∈ made) : other ≠ label := by
  rintro rfl
  exact absurd (span.ready other old).1 (Nat.not_lt.2 (span.fresh other new).2)

theorem single (span : Span site start outer (label :: made) w) : label ∉ made ++ outer := by
  rw [List.mem_append, not_or]
  exact ⟨(List.nodup_cons.1 span.distinct).1, fun old => span.apart old (by simp) rfl⟩

theorem known (span : Span site start outer made w) : ∀ label ∈ made ++ outer, w.code.Ready label := by
  intro label member
  rcases List.mem_append.1 member with own | other
  · exact (span.fresh label own).1.ready
  · exact span.readyStill (span.ready label other)

theorem newLabel (span : Span site start outer made w) (h : Gen.emit .newLabel w = .ok label later) :
    Span site start outer (label :: made) later ∧ w.Alike later := by
  obtain ⟨alike, isOpen, index⟩ := Gen.newLabel_alike h
  obtain ⟨grown, -⟩ := Gen.newLabel_grown site span.valid_after h
  have size := span.lowered.size
  refine ⟨⟨⟨span.valid, span.ready, span.lowered.trans (.of_grown (grown _ _))⟩,
    List.forall_mem_cons.2 ⟨⟨isOpen, by omega⟩, fun other member => (span.fresh other member).imp_left alike.isOpen⟩,
    List.nodup_cons.2 ⟨fun member => ?_, span.distinct⟩⟩, alike⟩
  have := (span.fresh label member).1.known
  omega

theorem newLabels {n : Nat} (span : Span site start outer made w) (h : Gen.newLabels n w = .ok labels later) :
    Span site start outer (labels ++ made) later ∧ w.Alike later ∧ labels.length = n := by
  induction n generalizing w made labels with
  | zero =>
    simp only [Gen.newLabels, pure_returns] at h
    obtain ⟨rfl, rfl⟩ := h
    exact ⟨span, .refl w, rfl⟩
  | succ n ih =>
    simp only [Gen.newLabels, bind_returns, pure_returns] at h
    obtain ⟨label, mid, run, rest, _, run', rfl, rfl⟩ := h
    obtain ⟨span, alike⟩ := span.newLabel run
    obtain ⟨span, alike', length⟩ := ih span run'
    exact ⟨span.perm List.perm_middle, alike.trans alike', by rw [List.length_cons, length]⟩

theorem step (span : Span site start outer made w) (part : Part site targets w later)
    (known : ∀ label ∈ targets, label ∈ outer ∨ start.code.labels.size ≤ label.index) :
    Span site start outer made later := by
  refine ⟨⟨span.valid, span.ready, span.lowered.trans (part.lowered.mono span.lowered.size fun label member old => ?_)⟩,
    fun label member => (span.fresh label member).imp_left part.isOpen, span.distinct⟩
  exact (known label member).resolve_right (Nat.not_le.2 old)

theorem after (span : Span site w [] made later) (first : Part site outer start w) : Span site start outer made later :=
  ⟨first.trans span.toPart, fun label member => (span.fresh label member).imp_right (Nat.le_trans first.lowered.size),
    span.distinct⟩

theorem piece {α : Type} {x : Gen α} {a : α} (span : Span site start outer made w)
    (grows : Gen.Grows site targets x) (known : ∀ label ∈ targets, label ∈ made ++ outer)
    (h : x w = .ok a later) : Piece site targets w later ∧ Span site start outer made later := by
  have piece := grows.piece span.valid_after (fun label member => span.known label (known label member)) h
  refine ⟨piece, span.step piece.toPart fun label member => ?_⟩
  exact (List.mem_append.1 (known label member)).symm.imp id fun own => (span.fresh label own).2

theorem goto (span : Span site start outer made w) (known : label ∈ made ++ outer)
    (h : Gen.emit (.jump .goto label) w = .ok u later) :
    Piece site [label] w later ∧ Span site start outer made later :=
  span.piece (Gen.grows_jump rfl label) (by simpa using known) h

theorem place (span : Span site start outer (label :: made) w) (h : Gen.emit (.place label) w = .ok u later) :
    Placed label w later ∧ Span site start outer made later := by
  obtain ⟨⟨isOpen, new⟩, fresh⟩ := List.forall_mem_cons.1 span.fresh
  obtain ⟨single, distinct⟩ := List.nodup_cons.1 span.distinct
  have placed : Placed label w later := ⟨Gen.place_run h, isOpen⟩
  refine ⟨placed, ⟨span.valid, span.ready, span.lowered.trans (.of_grown (Gen.place_grown span.valid_after new h))⟩,
    fun other member => (fresh other member).imp_left (placed.isOpen_of_ne fun same => single (same ▸ member)),
    distinct⟩

end Span

theorem Branch.inside_targets {branches : List Branch} {labels tail : List Label} {default : Label}
    (inside : default ∈ tail) :
    ∀ label ∈ (Item.switch default (Branch.targets branches labels)).targets, label ∈ labels ++ tail := by
  intro label target
  rcases List.mem_cons.1 target with rfl | member
  · exact List.mem_append_right _ inside
  · obtain ⟨pair, among, rfl⟩ := List.mem_map.1 member
    exact List.mem_append_left _ (Branch.mem_of_targets among)

variable {w later : Workspace} {u : Unit}

namespace Gen

variable {kind : Kind} {target : Label}

theorem ret_dead (h : emit (.ret kind) w = .ok u later) : later.code.alive = false := by
  obtain ⟨code, run, rfl⟩ := emit_returns.1 h
  obtain ⟨_, _, -, written⟩ := Emit.op_returns run
  exact written.ends_dead (by cases kind <;> rfl)

theorem ret_of_dead (dead : w.code.alive = false) (h : emit (.ret kind) w = .ok u later) : later = w := by
  obtain ⟨code, run, rfl⟩ := emit_returns.1 h
  obtain ⟨_, _, -, written⟩ := Emit.op_returns run
  rw [written.of_dead dead]

theorem athrow_dead (h : op .athrow w = .ok u later) : later.code.alive = false := by
  obtain ⟨code, run, rfl⟩ := emit_returns.1 h
  obtain ⟨_, _, -, written⟩ := Emit.op_returns run
  exact written.ends_dead rfl

theorem goto_dead (h : emit (.jump .goto target) w = .ok u later) : later.code.alive = false := by
  obtain ⟨code, run, rfl⟩ := emit_returns.1 h
  obtain ⟨_, _, -, written⟩ := Emit.jump_returns run
  exact written.ends_dead rfl

theorem jump_of_dead {opcode : Opcode} (dead : w.code.alive = false)
    (h : emit (.jump opcode target) w = .ok u later) : later = w := by
  obtain ⟨code, run, rfl⟩ := emit_returns.1 h
  obtain ⟨_, _, -, written⟩ := Emit.jump_returns run
  rw [written.of_dead dead]

end Gen

theorem Expr.jump_of_isTrue (ctx : Context) (target : Label) :
    (condition : Expr) → condition.isTrue = true → (condition.code ctx).jump false target = pure ()
  | .operand (.atom (.literal token) none) _, isTrue => by
    have word : token.isWord "true" = true := by simpa [Expr.isTrue] using isTrue
    simp [Expr.code, Operand.code, Atom.code, ExprCode.literal, word]
  | .operand (.atom (.nested inner) none) _, isTrue => by
    have word : inner.isTrue = true := by simpa [Expr.isTrue] using isTrue
    simpa [Expr.code, Operand.code, Atom.code, ExprCode.parenthesized] using Expr.jump_of_isTrue ctx target inner word

theorem Gen.returnValue_dead {value : Option Expr}
    (h : Gen.returnValue site value w = .ok u later) : later.code.alive = false := by
  cases value with
  | none =>
    simp only [Gen.returnValue, guard_returns] at h
    exact ret_dead h.2
  | some value =>
    simp only [Gen.returnValue, guard_returns, bind_returns] at h
    obtain ⟨-, _, _, -, h⟩ := h
    exact ret_dead h

theorem Gen.raise_dead {value : Expr} (h : Gen.raise site value w = .ok u later) : later.code.alive = false := by
  simp only [Gen.raise, guard_returns, bind_returns] at h
  obtain ⟨_, _, -, -, h⟩ := h
  exact athrow_dead h

end ClassForge
