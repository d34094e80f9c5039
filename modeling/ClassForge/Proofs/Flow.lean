import ClassForge.Proofs.Frames
import ClassForge.Proofs.Parts

set_option autoImplicit false

namespace ClassForge

open CodeBuffer (arrival)

-- What is known at a place of the code: the stack, and slots that hold values of known kinds.
structure Note where
  stack : List Kind
  vars : List (Nat × Kind)

variable {n : Note}

namespace Note

def width (n : Note) : Nat :=
  Kind.widths n.stack

def Describes (n : Note) (frame : Frame) : Prop :=
  n.stack = frame.stack ∧ ∀ v ∈ n.vars, frame.locals.Has v.1 v.2

def Below (n more : Note) : Prop :=
  n.stack = more.stack ∧ n.vars ⊆ more.vars

theorem Below.refl (n : Note) : n.Below n :=
  ⟨rfl, List.Subset.refl _⟩

theorem Below.trans {m more : Note} (first : n.Below m) (second : m.Below more) : n.Below more :=
  ⟨first.1.trans second.1, List.Subset.trans first.2 second.2⟩

theorem Below.width {more : Note} (below : n.Below more) : n.width = more.width := by
  rw [Note.width, below.1, Note.width]

theorem Below.describes {more : Note} (below : n.Below more) {frame : Frame}
    (describes : more.Describes frame) : n.Describes frame :=
  ⟨below.1.trans describes.1, fun v member => describes.2 v (below.2 member)⟩

end Note

abbrev Notes := Nat → Option Note

def Notes.At (notes : Notes) (pc : Nat) (n : Note) : Prop :=
  ∃ m, notes pc = some m ∧ m.Below n

theorem Notes.At.mono {notes : Notes} {pc : Nat} {more : Note} (here : notes.At pc n)
    (below : n.Below more) : notes.At pc more := by
  obtain ⟨m, found, less⟩ := here
  exact ⟨m, found, less.trans below⟩

namespace Body

variable {body : Body}

def Accepts (body : Body) (notes : Notes) (pc : Nat) (n : Note) : Prop :=
  n.width ≤ body.buffer.maxDepth ∧ ∃ i ∈ body.code, i.pc = pc ∧ ∃ goals, i.successors? = some goals ∧
    ∀ frame, n.Describes frame → ∃ next, i.run? body.pool body.maxLocals frame = some next ∧
      ∀ goal ∈ goals, ∃ m, notes goal = some m ∧ m.Describes next

def Steps (body : Body) (item : Item) (pre post : Note) (exits : List (Label × Note)) : Prop :=
  ∀ pc, body.Installed pc item → ∃ goals, (item.instruction body.place pc).successors? = some goals ∧
    ∀ frame, pre.Describes frame →
      ∃ next, (item.instruction body.place pc).run? body.pool body.maxLocals frame = some next ∧
        ∀ goal ∈ goals,
          (item.endsPath = false ∧ goal = pc + item.size pc ∧ post.Describes next) ∨
            ∃ e ∈ exits, e.1 ∈ item.targets ∧ goal = body.place e.1 ∧ e.2.Describes next

end Body

structure Workspace.Meets (w : Workspace) (n : Note) : Prop where
  alive : w.code.alive = true
  depth : w.code.depth = n.width
  peak : n.width ≤ w.code.maxDepth
  laid : w.code.IsLaid

/-- A part of the code takes frames that `pre` describes to its end with `post`, or to a label with
the note of that label. -/
structure Flow (body : Option Body) (w later : Workspace) (pre post : Note) (exits : List (Label × Note)) : Prop where
  pc : w.code.pc ≤ later.code.pc
  laid : later.code.IsLaid
  meets : later.code.alive = true → later.Meets post
  arrivals : ∀ e ∈ exits, ∀ depth, arrival later.code.labels e.1 = some depth →
    arrival w.code.labels e.1 = some depth ∨ depth = e.2.width ∧ e.2.width ≤ later.code.maxDepth
  notes : ∀ b ∈ body, ∃ own : Notes, ∀ notes : Notes,
    (∀ pc, w.code.pc ≤ pc → pc < later.code.pc → notes pc = own pc) →
    (later.code.alive = true → notes.At later.code.pc post) →
    notes.At w.code.pc pre ∧
      ((∀ e ∈ exits, (arrival later.code.labels e.1).isSome = true → notes.At (b.place e.1) e.2) →
        ∀ pc n, w.code.pc ≤ pc → pc < later.code.pc → notes pc = some n → b.Accepts notes pc n)

variable {label : Label} {others : List (Label × Note)}

namespace Flow

variable {body : Option Body} {w mid later : Workspace} {pre n post : Note} {exits : List (Label × Note)}

theorem of_code_eq (same : later.code = w.code) (meets : w.Meets pre) : Flow body w later pre pre exits where
  pc := by rw [same]
  laid := same ▸ meets.laid
  meets _ := ⟨same ▸ meets.alive, same ▸ meets.depth, same ▸ meets.peak, same ▸ meets.laid⟩
  arrivals e _ depth arrived := .inl (same ▸ arrived)
  notes _ _ := by
    refine ⟨fun _ => none, fun notes _ last => ⟨?_, fun _ pc n low high => ?_⟩⟩
    · rw [same] at last
      exact last meets.alive
    · rw [same] at high
      omega

theorem of_alike (alike : w.Alike later) (meets : later.Meets pre) : Flow body w later pre pre exits where
  pc := Nat.le_of_eq alike.pc.symm
  laid := meets.laid
  meets _ := meets
  arrivals e _ depth arrived := .inl ((alike.arrival e.1).symm.trans arrived)
  notes _ _ := by
    refine ⟨fun _ => none, fun notes _ last => ⟨alike.pc ▸ last meets.alive, fun _ pc n low high => ?_⟩⟩
    rw [alike.pc] at high
    omega

theorem weaken (flow : Flow body w later pre n exits) (below : post.Below n) : Flow body w later pre post exits where
  pc := flow.pc
  laid := flow.laid
  meets alive := by
    obtain ⟨alive, depth, peak, laid⟩ := flow.meets alive
    exact ⟨alive, depth.trans below.width.symm, below.width ▸ peak, laid⟩
  arrivals := flow.arrivals
  notes b among := by
    obtain ⟨own, holds⟩ := flow.notes b among
    exact ⟨own, fun notes agree last => holds notes agree fun alive => (last alive).mono below⟩

theorem trans (first : Flow body w mid pre n exits)
    (second : mid.Meets n → Flow body mid later n post exits) (after : Passed mid later) :
    Flow body w later pre post exits := by
  have before := first.pc
  cases alive : mid.code.alive with
  | false =>
    obtain ⟨dead, pc, same⟩ := after.asleep alive
    refine ⟨pc ▸ before, after.laid first.laid, fun live => absurd (dead.symm.trans live) (by decide),
      fun e member depth arrived => ?_, fun b among => ?_⟩
    · rw [same] at arrived
      exact (first.arrivals e member depth arrived).imp id (And.imp id fun peak => Nat.le_trans peak after.grown)
    · obtain ⟨own, holds⟩ := first.notes b among
      refine ⟨own, fun notes agree _ => ?_⟩
      have none : ¬ mid.code.alive = true := by rw [alive]; decide
      have here := holds notes (by rwa [pc] at agree) fun live => absurd live none
      refine ⟨here.1, fun exits' => ?_⟩
      rw [pc]
      exact here.2 fun e member arrived => exits' e member (by rwa [same])
  | true =>
    have second := second (first.meets alive)
    refine ⟨Nat.le_trans before after.pc, second.laid, second.meets, fun e member depth arrived => ?_,
      fun b among => ?_⟩
    · rcases second.arrivals e member depth arrived with old | new
      · exact (first.arrivals e member depth old).imp id (And.imp id fun peak => Nat.le_trans peak after.grown)
      · exact .inr new
    · obtain ⟨own, holds⟩ := first.notes b among
      obtain ⟨own', holds'⟩ := second.notes b among
      refine ⟨fun pc => if pc < mid.code.pc then own pc else own' pc, fun notes agree last => ?_⟩
      dsimp only at agree
      have := after.pc
      obtain ⟨middle, inside'⟩ := holds' notes
        (fun pc low high => by rw [agree pc (by omega) high, if_neg (by omega)]) last
      obtain ⟨start, inside⟩ := holds notes
        (fun pc low high => by rw [agree pc low (by omega), if_pos high]) fun _ => middle
      refine ⟨start, fun out pc n low high found => ?_⟩
      by_cases early : pc < mid.code.pc
      · refine inside (fun e member arrived => out e member ?_) pc n low early found
        obtain ⟨depth, arrived⟩ := Option.isSome_iff_exists.1 arrived
        rw [after.arrival _ _ arrived]
        rfl
      · exact inside' out pc n (by omega) high found

theorem more (flow : Flow body w later pre post exits) (known : exits ⊆ others)
    (quiet : ∀ e ∈ others, e ∈ exits ∨ arrival later.code.labels e.1 = arrival w.code.labels e.1) :
    Flow body w later pre post others where
  pc := flow.pc
  laid := flow.laid
  meets := flow.meets
  arrivals e member depth arrived := by
    rcases quiet e member with inside | same
    · exact flow.arrivals e inside depth arrived
    · exact .inl (same ▸ arrived)
  notes b among := by
    obtain ⟨own, holds⟩ := flow.notes b among
    refine ⟨own, fun notes agree last => ?_⟩
    obtain ⟨start, inside⟩ := holds notes agree last
    exact ⟨start, fun out => inside fun e member => out e (known member)⟩

theorem loop (flow : Flow body w later pre post ((label, pre) :: exits))
    (here : ∀ b ∈ body, b.place label = w.code.pc) : Flow body w later pre post exits where
  pc := flow.pc
  laid := flow.laid
  meets := flow.meets
  arrivals e member := flow.arrivals e (List.mem_cons_of_mem _ member)
  notes b among := by
    obtain ⟨own, holds⟩ := flow.notes b among
    refine ⟨own, fun notes agree last => ?_⟩
    obtain ⟨start, inside⟩ := holds notes agree last
    refine ⟨start, fun out => inside (List.forall_mem_cons.2 ⟨fun _ => ?_, out⟩)⟩
    rw [here b among]
    exact start

theorem place (flow : Flow body w mid pre n ((label, post) :: exits))
    (below : mid.code.alive = true → post.Below n) (new : arrival w.code.labels label = none)
    (apart : ∀ e ∈ exits, e.1 ≠ label) (here : ∀ b ∈ body, b.place label = mid.code.pc)
    (same : later = { mid with code := mid.code.place label }) : Flow body w later pre post exits := by
  have pc : later.code.pc = mid.code.pc := by rw [same, CodeBuffer.place_eq]; rfl
  have alive : later.code.alive = (mid.code.alive || (arrival mid.code.labels label).isSome) := by
    rw [same, CodeBuffer.place_eq]
  have other (e : Label × Note) (member : e ∈ exits) : arrival later.code.labels e.1 = arrival mid.code.labels e.1 := by
    rw [same]
    exact (CodeBuffer.arrival_place _ _ _).trans (if_neg fun h => apart e member h.2.1)
  have grown : mid.code.maxDepth = later.code.maxDepth := by rw [same, CodeBuffer.place_eq]
  have laid : later.code.IsLaid := by
    rw [same]
    exact flow.laid.imp fun _ => mid.code.place_laid label
  refine ⟨pc ▸ flow.pc, laid, fun live => ?_, fun e member depth arrived => ?_, fun b among => ?_⟩
  · suffices counted : later.code.depth = post.width ∧ post.width ≤ later.code.maxDepth from
      ⟨live, counted.1, counted.2, laid⟩
    cases before : mid.code.alive with
    | true =>
      obtain ⟨-, depth, peak, -⟩ := flow.meets before
      have kept : later.code.depth = mid.code.depth := by rw [same, CodeBuffer.place_eq, before]; rfl
      have below := (below before).width
      exact ⟨by omega, by omega⟩
    | false =>
      -- The label wakes the buffer at the depth of the first path that arrived there.
      rw [alive, before, Bool.false_or] at live
      obtain ⟨depth, arrived⟩ := Option.isSome_iff_exists.1 live
      have kept : later.code.depth = depth := by
        rw [same, CodeBuffer.place_eq, before, arrived]
        rfl
      rcases flow.arrivals _ List.mem_cons_self depth arrived with old | ⟨known, peak⟩
      · rw [new] at old
        cases old
      · exact ⟨kept.trans known, grown ▸ peak⟩
  · rw [other e member] at arrived
    exact grown ▸ flow.arrivals e (List.mem_cons_of_mem _ member) depth arrived
  · obtain ⟨own, holds⟩ := flow.notes b among
    refine ⟨own, fun notes agree last => ?_⟩
    rw [pc] at agree last ⊢
    obtain ⟨start, inside⟩ := holds notes agree fun live =>
      (last (by rw [alive, live]; rfl)).mono (below live)
    refine ⟨start, fun out => inside (List.forall_mem_cons.2 ⟨fun arrived => ?_, fun e member arrived => ?_⟩)⟩
    · rw [here b among]
      exact last (by rw [alive, arrived, Bool.or_true])
    · exact out e member (by rwa [other e member])

theorem before {start : Workspace} (flow : Flow body w later pre post exits) (pc : w.code.pc = start.code.pc)
    (old : ∀ e ∈ exits, arrival w.code.labels e.1 = arrival start.code.labels e.1) :
    Flow body start later pre post exits where
  pc := pc ▸ flow.pc
  laid := flow.laid
  meets := flow.meets
  arrivals e member depth arrived := old e member ▸ flow.arrivals e member depth arrived
  notes := pc ▸ flow.notes

theorem of_writes {item : Item} {pops pushes : Nat} (leads : later.Leads body)
    (writes : CodeBuffer.Writes item pops pushes w.code later.code) (formed : item.WellFormed)
    (ready : ∀ label ∈ item.targets, w.code.Ready label) (meets : w.Meets pre)
    (steps : ∀ b ∈ body, b.Steps item pre post exits)
    (falls : item.endsPath = false → post.width + pops = pre.width + pushes)
    (enters : ∀ e ∈ exits, e.1 ∈ item.targets → e.2.width + pops = pre.width) :
    Flow body w later pre post exits := by
  have enough := writes.enough
  have depth := meets.depth
  have peak := meets.peak
  have pc := writes.pc
  have ends := writes.ends
  have laid : later.code.IsLaid := by
    obtain ⟨items, laid⟩ := meets.laid
    exact ⟨_, writes.laid formed ready laid⟩
  refine ⟨pc ▸ Nat.le_add_right _ _, laid, fun alive => ?_, fun e member depth' arrived => ?_, fun b among => ?_⟩
  · have falls := falls (by simpa [alive] using ends.symm)
    have kept := writes.depth
    have high := writes.peak (by omega)
    exact ⟨alive, by omega, by omega, laid⟩
  · rw [writes.labels, CodeBuffer.arrival_foldl_arriveAt] at arrived
    split_ifs at arrived with target
    · have enters := enters e member target.1
      cases before : arrival w.code.labels e.1 with
      | some first => exact .inl (by simpa [before] using arrived)
      | none =>
        rw [before] at arrived
        have : w.code.depth - pops = depth' := by simpa using arrived
        have grown := writes.grown
        exact .inr ⟨by omega, by omega⟩
    · exact .inl arrived
  · have installed := (leads b among).installed meets.laid writes formed ready
    refine ⟨fun at' => if at' = w.code.pc then some pre else none, fun notes agree last => ?_⟩
    dsimp only at agree
    have size := Item.size_pos w.code.pc item
    have here : notes w.code.pc = some pre := by
      rw [agree w.code.pc (Nat.le_refl _) (by omega), if_pos rfl]
    refine ⟨⟨pre, here, .refl pre⟩, fun out at' n low high found => ?_⟩
    rw [agree at' low high] at found
    split_ifs at found with same
    cases found
    obtain ⟨goals, goes, moves⟩ := steps b among w.code.pc installed
    refine ⟨Nat.le_trans peak (Nat.le_trans writes.grown (leads b among).depth), _, installed.fetched,
      same.symm, goals, goes, fun frame describes => ?_⟩
    obtain ⟨next, run, goals⟩ := moves frame describes
    refine ⟨next, run, fun goal among => ?_⟩
    rcases goals goal among with ⟨goesOn, rfl, described⟩ | ⟨e, member, target, rfl, described⟩
    · obtain ⟨m, found, below⟩ := last (by rw [ends, goesOn]; rfl)
      exact ⟨m, pc ▸ found, below.describes described⟩
    · have arrived : (arrival later.code.labels e.1).isSome = true := by
        rw [writes.labels, CodeBuffer.arrival_foldl_arriveAt, if_pos ⟨target, (ready _ target).1⟩]
        simp
      obtain ⟨m, found, below⟩ := out e member arrived
      exact ⟨m, found, below.describes described⟩

end Flow

theorem Workspace.Meets.alike {w later : Workspace} (meets : w.Meets n) (alike : w.Alike later) : later.Meets n :=
  ⟨alike.alive ▸ meets.alive, alike.depth ▸ meets.depth, alike.maxDepth ▸ meets.peak, alike.isLaid meets.laid⟩

theorem Flow.newLabel {body : Option Body} {start w later : Workspace} {pre : Note} {exits : List (Label × Note)}
    (flow : Flow body start w pre n exits) (note : Note) (old : start.code.labels.size ≤ w.code.labels.size)
    (h : Gen.emit .newLabel w = .ok label later) : Flow body start later pre n ((label, note) :: exits) := by
  obtain ⟨alike, -, index⟩ := Gen.newLabel_alike h
  have unreached : arrival w.code.labels label = arrival start.code.labels label := by
    rw [CodeBuffer.arrival_eq_none (Nat.le_of_eq index.symm), CodeBuffer.arrival_eq_none (by omega)]
  have wider := flow.more (List.subset_cons_self (label, note) _)
    (List.forall_mem_cons.2 ⟨.inr unreached, fun e member => .inl member⟩)
  exact wider.trans (fun meets => .of_alike alike (meets.alike alike)) alike.passed

theorem Workspace.Meets.placed {w later : Workspace} (meets : w.Meets n)
    (placed : Placed label w later) : later.Meets n := by
  have same : later.code.alive = w.code.alive ∧ later.code.depth = w.code.depth ∧
      later.code.maxDepth = w.code.maxDepth := by
    rw [placed.same, CodeBuffer.place_eq, meets.alive]
    exact ⟨rfl, rfl, rfl⟩
  exact ⟨same.1 ▸ meets.alive, same.2.1 ▸ meets.depth, same.2.2 ▸ meets.peak, placed.isLaid meets.laid⟩

def Flows (body : Option Body) (w later : Workspace) (pre post : Note) (exits : List (Label × Note)) : Prop :=
  later.Leads body → w.Meets pre → Flow body w later pre post exits

namespace Flows

variable {site : Site} {body : Option Body} {w mid later : Workspace} {pre n post : Note} {exits : List (Label × Note)}

theorem trans {targets : List Label} (first : Flows body w mid pre n exits)
    (second : Flows body mid later n post exits) (part : Part site targets mid later) :
    Flows body w later pre post exits :=
  fun leads meets => (first (part.back leads) meets).trans (second leads) part.passed

theorem more (flows : Flows body w later pre post exits)
    (part : Part site (exits.map (·.1)) w later) (known : exits ⊆ others)
    (old : ∀ e ∈ others, e.1.index < w.code.labels.size)
    (apart : ∀ e ∈ others, e.1 ∈ exits.map (·.1) → e ∈ exits) : Flows body w later pre post others := by
  refine fun leads meets => (flows leads meets).more known fun e member => ?_
  by_cases target : e.1 ∈ exits.map (·.1)
  · exact .inl (apart e member target)
  · exact .inr (part.untouched (old e member) target)

theorem placed (flows : Flows body w mid pre n ((label, post) :: exits))
    (placed : Placed label mid later) (below : mid.code.alive = true → post.Below n)
    (new : arrival w.code.labels label = none) (apart : ∀ e ∈ exits, e.1 ≠ label) :
    Flows body w later pre post exits := by
  intro leads meets
  obtain ⟨back, here⟩ := placed.back leads
  exact (flows back meets).place below new apart here placed.same

theorem loop (placed : Placed label w mid)
    (flows : Flows body mid later pre post ((label, pre) :: exits)) (back : later.Leads body → mid.Leads body)
    (apart : ∀ e ∈ exits, e.1 ≠ label) : Flows body w later pre post exits := by
  intro leads meets
  obtain ⟨-, here⟩ := placed.back (back leads)
  exact ((flows leads (meets.placed placed)).loop fun b among =>
    (here b among).trans placed.pc.symm).before placed.pc
    fun e member => placed.arrival_of_ne (apart e member)

theorem alike (flows : Flows body mid later pre post exits) (alike : w.Alike mid) :
    Flows body w later pre post exits :=
  fun leads meets => (flows leads (meets.alike alike)).before alike.pc fun e _ => alike.arrival e.1

end Flows

end ClassForge
