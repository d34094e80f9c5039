import ClassForge.Proofs.StmtTyping

set_option autoImplicit false

namespace ClassForge

open CodeBuffer (arrival)

-- What a statement does. No path leads to the code after one that never completes.
structure Follows (site : Site) (body : Option Body) (ends : Bool) (w later : Workspace) : Prop
    extends Part site [] w later where
  dead : ends = true → later.code.alive = false
  sees : Sees site body w.slots → Sees site body later.slots
  flows : Sees site body w.slots → Flows body w later (site.rest w.slots) (site.rest later.slots) []

-- What a part of a branching statement does: it leaves at its end or by one of the labels, with the names that
-- were in sight before it.
structure Returns (site : Site) (body : Option Body) (labels : List Label) (w later : Workspace) : Prop where
  wider : w.slots.Wider later.slots
  flows : Sees site body w.slots → Flows body w later (site.rest w.slots) (site.rest w.slots)
    (labels.map fun label => (label, site.rest w.slots))

namespace Returns

variable {site : Site} {body : Option Body} {labels few : List Label} {label : Label} {w mid later : Workspace}

theorem refl (labels : List Label) (w : Workspace) : Returns site body labels w w :=
  ⟨.refl _, fun _ _ meets => .of_code_eq rfl meets⟩

theorem trans (first : Returns site body labels w mid) (second : Returns site body few mid later)
    (part : Part site few mid later) (known : few ⊆ labels)
    (old : ∀ other ∈ labels, other.index < mid.code.labels.size) : Returns site body labels w later := by
  refine ⟨first.wider.trans second.wider, fun sees => (first.flows sees).trans ?_ part⟩
  have flows := second.flows (sees.wider first.wider)
  rw [first.wider.rest] at flows
  have names : (few.map fun label => (label, site.rest w.slots)).map (·.1) = few := by
    simp [Function.comp_def]
  have part : Part site ((few.map fun label => (label, site.rest w.slots)).map (·.1)) mid later :=
    names.symm ▸ part
  refine flows.more part (List.map_subset _ known) (fun e member => ?_) fun e member target => ?_
  · obtain ⟨other, among, rfl⟩ := List.mem_map.1 member
    exact old other among
  · obtain ⟨other, -, rfl⟩ := List.mem_map.1 member
    rw [names] at target
    exact List.mem_map_of_mem target

theorem placed (returns : Returns site body (label :: labels) w mid) (placed : Placed label mid later)
    (new : arrival w.code.labels label = none) (apart : label ∉ labels) : Returns site body labels w later := by
  refine ⟨returns.wider.trans (.of_eq placed.slots), fun sees => ?_⟩
  refine Flows.placed (returns.flows sees) placed (fun _ => .refl _) new fun e member same => ?_
  obtain ⟨other, among, rfl⟩ := List.mem_map.1 member
  exact apart (same ▸ among)

theorem loop (placed : Placed label w mid) (returns : Returns site body (label :: labels) mid later)
    (back : later.Leads body → mid.Leads body) (apart : label ∉ labels) : Returns site body labels w later := by
  have flows := returns.flows
  rw [placed.slots] at flows
  refine ⟨(Slots.Wider.of_eq placed.slots).trans returns.wider, fun sees => ?_⟩
  refine Flows.loop placed (flows sees) back fun e member same => ?_
  obtain ⟨other, among, rfl⟩ := List.mem_map.1 member
  exact apart (same ▸ among)

end Returns

variable {site : Site} {body : Option Body} {w later : Workspace} {ends : Bool} {default : Label}
  {pairs : List (Int × Label)}

-- Control does not come to this place, nor has it come to the label on the way.
structure Shut (label : Label) (start w : Workspace) : Prop where
  dead : w.code.alive = false
  same : arrival w.code.labels label = arrival start.code.labels label

structure Tour (site : Site) (body : Option Body) (start : Workspace) (outer made : List Label) (w : Workspace) : Prop
    extends Span site start outer made w, Returns site body (made ++ outer) start w

namespace Tour

variable {start mid : Workspace} {outer made few : List Label} {label : Label} {u : Unit}

theorem refl (valid : w.pool.Valid) (ready : ∀ label ∈ outer, w.code.Ready label) : Tour site body w outer [] w :=
  ⟨.refl valid ready, .refl outer w⟩

theorem of_piece (piece : Piece site few w later) (flows : Sees site body w.slots → Flows body w later
    (site.rest w.slots) (site.rest w.slots) (few.map fun label => (label, site.rest w.slots))) :
      Tour site body w few [] later :=
  ⟨⟨piece.toPart, by simp, .nil⟩, .of_eq piece.slots, flows⟩

theorem follows (tour : Tour site body w [] [] later)
    (dead : ends = true → later.code.alive = false) : Follows site body ends w later :=
  ⟨tour.toPart, dead, fun sees => sees.wider tour.wider, tour.wider.rest.symm ▸ tour.flows⟩

theorem newLabel (tour : Tour site body start outer made w) (h : Gen.emit .newLabel w = .ok label later) :
    Tour site body start outer (label :: made) later := by
  obtain ⟨span, alike⟩ := tour.toSpan.newLabel h
  exact ⟨span, tour.wider.trans (.of_eq alike.slots), fun sees leads meets =>
    (tour.flows sees (alike.back leads) meets).newLabel _ tour.lowered.size h⟩

theorem step (tour : Tour site body start outer made w) (inner : Tour site body w few [] later)
    (known : few ⊆ made ++ outer) : Tour site body start outer made later := by
  refine ⟨tour.toSpan.step inner.toPart fun label member => ?_, tour.toReturns.trans inner.toReturns inner.toPart known
    fun other member => (tour.known other member).1⟩
  exact (List.mem_append.1 (known member)).symm.imp id fun own => (tour.fresh label own).2

theorem goto (tour : Tour site body start outer made w) (known : label ∈ made ++ outer)
    (h : Gen.emit (.jump .goto label) w = .ok u later) : Tour site body start outer made later := by
  have types := @Gen.types_jump { toSite := site, slots := w.slots } body [] .goto label [] rfl rfl
  have piece := types.grows.piece tour.valid_after (by simpa using tour.known label known) h
  exact tour.step (.of_piece piece fun _ => types.flows piece rfl h) (by simpa using known)

theorem place (tour : Tour site body start outer (label :: made) w)
    (h : Gen.emit (.place label) w = .ok u later) : Tour site body start outer made later := by
  obtain ⟨placed, span⟩ := tour.toSpan.place h
  exact ⟨span, Returns.placed tour.toReturns placed (tour.unreached (by simp)) tour.single⟩

theorem shut (tour : Tour site body start outer (label :: made) w) (dead : w.code.alive = false)
    (unreached : arrival w.code.labels label = none) (h : Gen.emit (.place label) w = .ok u later) :
    later.code.alive = false := by
  rw [(tour.toSpan.place h).1.alive, dead, unreached]
  rfl

theorem loop (span : Span site start outer (label :: made) w) (alike : start.Alike w)
    (h : Gen.emit (.place label) w = .ok u mid) (round : Tour site body mid (label :: (made ++ outer)) [] later) :
    Tour site body start outer made later := by
  obtain ⟨placed, span'⟩ := span.place h
  have returns := Returns.loop placed round.toReturns round.back span.single
  refine ⟨span'.step round.toPart fun other member => ?_, (Slots.Wider.of_eq alike.slots).trans returns.wider,
    fun sees => ?_⟩
  · rcases List.mem_cons.1 member with rfl | member
    · exact .inr (span.fresh other (by simp)).2
    · exact (List.mem_append.1 member).symm.imp id fun own => (span'.fresh other own).2
  · rw [← alike.slots] at sees ⊢
    exact (returns.flows sees).alike alike

theorem skipped {other : Label} {v : Unit} (tour : Tour site body start outer (label :: made) w)
    (shut : Shut other start w) (left : Gen.emit (.jump .goto other) w = .ok v mid) (inside : other ∈ outer)
    (h : Gen.emit (.place label) mid = .ok u later) :
    arrival later.code.labels other = arrival start.code.labels other := by
  obtain rfl := Gen.jump_of_dead shut.dead left
  exact ((tour.toSpan.place h).1.arrival_of_ne (tour.apart inside (by simp))).trans shut.same

end Tour

theorem Slots.Extends.rest_below {s later : Slots} (grown : s.Extends later) :
    (site.rest s).Below (site.rest later) := by
  obtain ⟨new, bindings, -⟩ := grown.stack
  have vars : later.vars = new.filterMap (fun b => b.descriptor.map fun d => (b.offset, d.kind)) ++ s.vars := by
    rw [Slots.vars, bindings, List.filterMap_append]
    rfl
  refine ⟨rfl, fun v member => ?_⟩
  rw [Site.rest, Site.vars, List.mem_append] at member ⊢
  rw [vars, List.mem_append]
  exact member.imp id .inr

theorem Flow.congr {start stop : Workspace} {pre post : Note}
    {exits : List (Label × Note)} (flow : Flow body w later pre post exits) (first : start.code = w.code)
    (last : stop.code = later.code) : Flow body start stop pre post exits where
  pc := by
    rw [first, last]
    exact flow.pc
  laid := last ▸ flow.laid
  meets alive := by
    obtain ⟨alive, depth, peak, laid⟩ := flow.meets (last ▸ alive)
    exact ⟨last ▸ alive, last ▸ depth, last ▸ peak, last ▸ laid⟩
  arrivals := by
    rw [first, last]
    exact flow.arrivals
  notes := by
    rw [first, last]
    exact flow.notes

section Parts

variable {u : Unit} {labels : List Label}

theorem Stmt.block_tour {stmts : List Stmt} (each : ∀ {w later : Workspace} {u : Unit}, w.pool.Valid →
      Stmt.lowerAll site stmts w = .ok u later → Follows site body ends w later)
    (valid : w.pool.Valid) (h : Lower.block (Stmt.lowerAll site stmts) w = .ok u later) :
    Tour site body w [] [] later ∧ (ends = true → later.code.alive = false) := by
  obtain ⟨inner, run, rfl⟩ := Lower.block_run h
  have follows := each (w := { w with slots := w.slots.openScope }) valid run
  have lowered := follows.lowered
  have grown : w.slots.openScope.Extends inner.slots := lowered.slots
  have part : Part site [] w { inner with slots := inner.slots.closeScope } :=
    ⟨valid, by simp, ⟨lowered.valid, lowered.pool, lowered.code⟩, Slots.extends_closeScope grown⟩
  refine ⟨⟨⟨part, by simp, .nil⟩, .of_scope grown, fun sees leads meets => ?_⟩, follows.dead⟩
  have back : inner.Leads body := leads.of_slots (by rw [Slots.closeScope_of_extends grown])
  have flow := follows.flows { sees with typed := sees.typed.openScope } back
    ⟨meets.alive, meets.depth, meets.peak, meets.laid⟩
  exact (flow.weaken grown.rest_below).congr rfl rfl

theorem Gen.newLabel_unreached {label : Label} (h : emit .newLabel w = .ok label later) :
    arrival later.code.labels label = none := by
  obtain ⟨alike, -, index⟩ := newLabel_alike h
  exact (alike.arrival label).trans (CodeBuffer.arrival_eq_none index.ge)

theorem Gen.switch_flow {vars : List (Nat × Kind)} (ready : ∀ label ∈ labels, w.code.Ready label)
    (inside : ∀ label ∈ (Item.switch default pairs).targets, label ∈ labels)
    (h : emit (.lookupSwitch default pairs) w = .ok u later) (leads : later.Leads body)
    (meets : w.Meets ⟨[.int], vars⟩) :
    Flow body w later ⟨[.int], vars⟩ ⟨[], vars⟩ (labels.map fun label => (label, ⟨[], vars⟩)) := by
  obtain ⟨code, run, rfl⟩ := emit_returns.1 h
  have writes := (Emit.lookupSwitch_returns run).writes meets.alive
  refine .of_writes leads writes trivial (fun label target => ready label (inside label target)) meets
    (fun _ _ => Body.steps_switch fun label target => List.mem_map_of_mem (inside label target))
    (by simp [Item.endsPath])
    fun e member _ => ?_
  obtain ⟨label, -, rfl⟩ := List.mem_map.1 member
  rfl

theorem Gen.jumpUnless_tour {condition : Expr} {target : Label} (valid : w.pool.Valid) (ready : w.code.Ready target)
    (h : jumpUnless site condition target w = .ok u later) : Tour site body w [target] [] later :=
  .of_piece ((grows_jumpUnless condition target).piece valid (by simpa using ready) h)
    fun sees => jumpUnless_flows sees valid ready h

theorem Gen.switch_tour {value : Expr} {mid made : Workspace} (valid : w.pool.Valid)
    (valued : scrutinee site value w = .ok u mid) (alike : mid.Alike made) (span : Span site mid [] labels made)
    (inside : ∀ label ∈ (Item.switch default pairs).targets, label ∈ labels)
    (went : emit (.lookupSwitch default pairs) made = .ok u later) : Tour site body w [] labels later := by
  have first : Piece site [] w mid := (grows_scrutinee value).piece valid (by simp) valued
  obtain ⟨switch, last⟩ :=
    (span.after first.toPart).piece (grows_lookupSwitch default pairs) (by simpa using inside) went
  refine ⟨last, .of_eq (switch.slots.trans (alike.slots.trans first.slots)), fun sees leads meets => ?_⟩
  rw [List.append_nil]
  have flow := scrutinee_flows sees valid valued (alike.back (switch.back leads)) meets
  have flow := flow.trans (fun meets => .of_alike alike (meets.alike alike)) alike.passed
  -- No path can have got to the labels before they were made.
  have flow := flow.more (List.nil_subset (labels.map fun label => (label, site.rest w.slots))) fun e member => by
    obtain ⟨label, among, rfl⟩ := List.mem_map.1 member
    exact .inr ((alike.arrival label).trans ((span.unreached among).trans
      ((span.after first.toPart).unreached among).symm))
  exact flow.trans (switch_flow (fun label among => (span.fresh label among).1.ready) inside went leads) switch.passed

end Parts

mutual

theorem Stmt.lower_follows : (stmt : Stmt) → {w later : Workspace} → {u : Unit} → w.pool.Valid →
    stmt.lower site w = .ok u later → Follows site body stmt.terminates w later
  | .mk line action, w, later, u, valid, h => by
    simp only [Stmt.lower, bind_returns, Gen.located_returns, Gen.checkReachable_returns] at h
    obtain ⟨_, _, ⟨alive, rfl⟩, h⟩ := h
    rw [Stmt.terminates]
    exact Action.lower_follows action valid alive h

theorem Stmt.lowerAll_follows : (stmts : List Stmt) → {w later : Workspace} → {u : Unit} → w.pool.Valid →
    Stmt.lowerAll site stmts w = .ok u later → Follows site body (Stmt.lastTerminates stmts) w later
  | [], w, later, u, valid, h => by
    simp only [Stmt.lowerAll, pure_returns] at h
    have tour : Tour site body w [] [] w := .refl valid (by simp)
    exact h.2 ▸ tour.follows (by simp [Stmt.lastTerminates])
  | stmt :: rest, w, later, u, valid, h => by
    simp only [Stmt.lowerAll, bind_returns] at h
    obtain ⟨_, mid, first, h⟩ := h
    have follows := Stmt.lower_follows stmt valid first
    have follows' := Stmt.lowerAll_follows rest follows.valid_after h
    refine ⟨follows.trans follows'.toPart, fun terminates => ?_, fun sees => follows'.sees (follows.sees sees),
      fun sees => (follows.flows sees).trans (follows'.flows (follows.sees sees)) follows'.toPart⟩
    cases rest with
    | nil =>
      simp only [Stmt.lowerAll, pure_returns] at h
      exact h.2 ▸ follows.dead (by simpa [Stmt.lastTerminates] using terminates)
    | cons next rest => exact follows'.dead (by simpa [Stmt.lastTerminates] using terminates)

theorem Action.lower_follows {here : Location} : (action : Action) → {w later : Workspace} → {u : Unit} →
    w.pool.Valid → w.code.alive = true → action.lower site here w = .ok u later →
    Follows site body action.terminates w later
  | .ret value, w, later, u, valid, _, h => by
    simp only [Action.lower, Gen.located_returns] at h
    have piece := (Gen.grows_returnValue value).piece valid (by simp) h
    exact ⟨piece.toPart, fun _ => Gen.returnValue_dead h, fun sees => piece.slots ▸ sees,
      fun sees => Gen.returnValue_flows sees valid h⟩
  | .raise value, w, later, u, valid, _, h => by
    simp only [Action.lower, Gen.located_returns] at h
    have piece := (Gen.grows_raise value).piece valid (by simp) h
    exact ⟨piece.toPart, fun _ => Gen.raise_dead h, fun sees => piece.slots ▸ sees,
      fun sees => Gen.raise_flows sees valid h⟩
  | .eval value, w, later, u, valid, _, h => by
    simp only [Action.lower, Gen.located_returns] at h
    have tour : Tour site body w [] [] later := .of_piece ((Gen.grows_evaluate value).piece valid (by simp) h)
      fun sees => Gen.evaluate_flows sees valid h
    exact tour.follows (by simp [Action.terminates])
  | .declare isFinal type name value, w, later, u, valid, _, h => by
    simp only [Action.lower, Gen.located_returns] at h
    exact ⟨⟨valid, by simp, Gen.declare_lowered valid h⟩, by simp [Action.terminates],
      fun sees => { sees with typed := (Gen.declare_flows sees valid h).1 },
      fun sees => (Gen.declare_flows sees valid h).2⟩
  | .assign target value, w, later, u, valid, _, h => by
    simp only [Action.lower, Gen.located_returns] at h
    have tour : Tour site body w [] [] later := .of_piece ((Gen.grows_assign target value).piece valid (by simp) h)
      fun sees => Gen.assign_flows sees valid h
    exact tour.follows (by simp [Action.terminates])
  | .cond chain, w, later, u, valid, _, h => by
    simp only [Action.lower, bind_returns, Gen.located_returns] at h
    obtain ⟨done, w1, run1, _, w2, run2, run3⟩ := h
    have made : Tour site body w [] [done] w1 := (Tour.refl valid (by simp)).newLabel run1
    obtain ⟨inner, shut⟩ := IfChain.lower_tour chain made.valid_after (made.known done (by simp)) run2
    have chosen := made.step inner (by simp)
    refine (chosen.place run3).follows fun terminates => ?_
    obtain ⟨dead, same⟩ := shut (by simpa [Action.terminates] using terminates)
    exact chosen.shut dead (same.trans (Gen.newLabel_unreached run1)) run3
  | .loop condition stmts, w, later, u, valid, alive, h => by
    simp only [Action.lower, bind_returns, Gen.located_returns] at h
    obtain ⟨top, w1, run1, done, w2, run2, _, w3, run3, _, w4, run4, _, w5, run5, _, w6, run6, run7⟩ := h
    obtain ⟨span1, alike1⟩ := (Span.refl valid (by simp) : Span site w [] [] w).newLabel run1
    obtain ⟨span2, alike2⟩ := span1.newLabel run2
    have apart : done ≠ top := by simpa using span2.distinct
    have made := span2.perm (.swap ..)
    have alike := alike1.trans alike2
    obtain ⟨placed, span3⟩ := made.place run3
    -- The loop is entered alive, so its top is reached before any jump goes back to it.
    have ready := placed.ready (alike.alive ▸ alive)
    have start : Tour site body w3 [top, done] [] w3 :=
      .refl span3.valid_after (List.forall_mem_cons.2 ⟨ready, span3.known⟩)
    have tested := start.step (Gen.jumpUnless_tour span3.valid_after (span3.known done (by simp)) run4) (by simp)
    have inner := (Stmt.block_tour (Stmt.lowerAll_follows stmts) tested.valid_after run5).1
    have again := tested.step inner (by simp)
    have whole : Tour site body w [] [done] w6 := .loop made alike run3 (again.goto (by simp) run6)
    refine (whole.place run7).follows fun terminates => whole.shut (Gen.goto_dead run6) ?_ run7
    -- The condition is never false, so nothing but a jump could lead to the end of the loop.
    have never := Expr.jump_of_isTrue { toSite := site, slots := w3.slots } done condition
      (by simpa [Action.terminates] using terminates)
    simp only [Gen.jumpUnless, Site.within_returns, never, pure_returns] at run4
    obtain rfl := run4.2
    obtain ⟨jumped, -⟩ := again.toSpan.goto (by simp) run6
    rw [jumped.untouched (again.known done (by simp)).1 (by simpa using apart),
      inner.untouched (tested.known done (by simp)).1 (by simp), placed.arrival_of_ne apart]
    exact Gen.newLabel_unreached run2
  | .select value branches none, w, later, u, valid, _, h => by
    simp only [Action.lower, bind_returns, Gen.located_returns] at h
    obtain ⟨_, w1, run1, done, w2, run2, labels, w3, run3, _, w4, run4, _, w5, run5, run6⟩ := h
    have first : Piece site [] w w1 := (Gen.grows_scrutinee value).piece valid (by simp) run1
    obtain ⟨span2, alike2⟩ := (Span.refl first.valid_after (by simp) : Span site w1 [] [] w1).newLabel run2
    obtain ⟨span3, alike3, same⟩ := span2.newLabels run3
    have switch : Tour site body w [] _ w4 :=
      Gen.switch_tour valid run1 (alike2.trans alike3) span3 (Branch.inside_targets (by simp)) run4
    have branches := (Branch.lowerAll_tour branches switch (by simp) same run5).1
    exact (branches.place run6).follows (by simp [Action.terminates])
  | .select value branches (some stmts), w, later, u, valid, _, h => by
    simp only [Action.lower, bind_returns, Gen.located_returns] at h
    obtain ⟨_, w1, run1, done, w2, run2, labels, w3, run3, default, w4, run4, _, w5, run5, _, w6, run6,
      _, w7, run7, _, w8, run8, run9⟩ := h
    have first : Piece site [] w w1 := (Gen.grows_scrutinee value).piece valid (by simp) run1
    obtain ⟨span2, alike2⟩ := (Span.refl first.valid_after (by simp) : Span site w1 [] [] w1).newLabel run2
    obtain ⟨span3, alike3, same⟩ := span2.newLabels run3
    obtain ⟨span4, alike4⟩ := span3.newLabel run4
    have made := span4.perm List.perm_middle.symm
    have inside := @Branch.inside_targets branches labels [default, done] default (by simp)
    have switch : Tour site body w [] _ w5 :=
      Gen.switch_tour valid run1 ((alike2.trans alike3).trans alike4) made inside run5
    obtain ⟨taken, untaken⟩ := Branch.lowerAll_tour branches switch (by simp) same run6
    have others := taken.place run7
    obtain ⟨inner, dead⟩ := Stmt.block_tour (Stmt.lowerAll_follows stmts) others.valid_after run8
    have whole := others.step inner (by simp)
    refine (whole.place run9).follows fun terminates => ?_
    rw [Action.terminates, Bool.and_eq_true] at terminates
    obtain ⟨-, pair, apart⟩ := List.nodup_append.1 made.distinct
    have different : done ≠ default := fun same => by simp [same] at pair
    have outside : done ∉ labels := fun member => apart done member done (by simp) rfl
    have beside : done ∉ (Item.switch default (Branch.targets branches labels)).targets := by
      intro target
      simpa [outside, different] using Branch.inside_targets (List.mem_singleton_self default) done target
    refine whole.shut (dead terminates.1) ?_ run9
    obtain ⟨went, -⟩ := made.piece (Gen.grows_lookupSwitch _ _) (by simpa using inside) run5
    rw [inner.untouched (others.known done (by simp)).1 (by simp), (taken.toSpan.place run7).1.arrival_of_ne different,
      untaken terminates.2 outside, went.untouched (made.known done (by simp)).1 beside, alike4.arrival, alike3.arrival]
    exact Gen.newLabel_unreached run2

theorem IfChain.lower_tour {here : Location} {done : Label} : (chain : IfChain) → {w later : Workspace} →
    {u : Unit} → w.pool.Valid → w.code.Ready done → chain.lower site here done w = .ok u later →
    Tour site body w [done] [] later ∧ (chain.terminates = true → Shut done w later)
  | .mk condition stmts next, w, later, u, valid, ready, h => by
    simp only [IfChain.lower, bind_returns, Gen.located_returns] at h
    obtain ⟨otherwise, w1, run1, _, w2, run2, _, w3, run3, run4⟩ := h
    have start : Tour site body w [done] [] w := .refl valid (by simpa using ready)
    have made := start.newLabel run1
    have test : Tour site body w1 [otherwise] [] w2 :=
      Gen.jumpUnless_tour made.valid_after (made.known otherwise (by simp)) run2
    have tested := made.step test (by simp)
    obtain ⟨inner, dead⟩ := Stmt.block_tour (Stmt.lowerAll_follows stmts) tested.valid_after run3
    have apart : done ≠ otherwise := made.apart (by simp) (by simp)
    have same : arrival w3.code.labels done = arrival w.code.labels done := by
      rw [inner.untouched (tested.known done (by simp)).1 (by simp),
        test.untouched (made.known done (by simp)).1 (by simpa using apart)]
      exact (Gen.newLabel_alike run1).1.arrival done
    obtain ⟨tour, shut⟩ := Otherwise.lower_tour next (tested.step inner (by simp)) (fun ends => ⟨dead ends, same⟩) run4
    refine ⟨tour, fun terminates => ?_⟩
    rw [IfChain.terminates, Bool.and_eq_true] at terminates
    exact shut terminates.1 terminates.2

theorem Otherwise.lower_tour {here : Location} {done otherwise : Label} {ends : Bool} : (next : Otherwise) →
    {start w later : Workspace} → {u : Unit} → Tour site body start [done] [otherwise] w →
    (ends = true → Shut done start w) → next.lower site here done otherwise w = .ok u later →
    Tour site body start [done] [] later ∧ (ends = true → next.terminates = true → Shut done start later)
  | .skip, start, w, later, u, tour, _, h => by
    simp only [Otherwise.lower, Gen.located_returns] at h
    exact ⟨tour.place h, by simp [Otherwise.terminates]⟩
  | .elif chain, start, w, later, u, tour, shut, h => by
    simp only [Otherwise.lower, bind_returns, Gen.located_returns] at h
    obtain ⟨_, w1, run1, _, w2, run2, run3⟩ := h
    have before := (tour.goto (by simp) run1).place run2
    obtain ⟨inner, shut'⟩ := IfChain.lower_tour chain before.valid_after (before.known done (by simp)) run3
    refine ⟨before.step inner (by simp), fun ends terminates => ?_⟩
    obtain ⟨dead, same⟩ := shut' (by simpa [Otherwise.terminates] using terminates)
    exact ⟨dead, same.trans (tour.skipped (shut ends) run1 (by simp) run2)⟩
  | .block stmts, start, w, later, u, tour, shut, h => by
    simp only [Otherwise.lower, bind_returns, Gen.located_returns] at h
    obtain ⟨_, w1, run1, _, w2, run2, run3⟩ := h
    have before := (tour.goto (by simp) run1).place run2
    obtain ⟨inner, dead⟩ := Stmt.block_tour (Stmt.lowerAll_follows stmts) before.valid_after run3
    refine ⟨before.step inner (by simp), fun ends terminates => ?_⟩
    exact ⟨dead (by simpa [Otherwise.terminates] using terminates),
      (inner.untouched (before.known done (by simp)).1 (by simp)).trans (tour.skipped (shut ends) run1 (by simp) run2)⟩

theorem Branch.lowerAll_tour {here : Location} {done : Label} : (branches : List Branch) → {labels tail : List Label} →
    {start w later : Workspace} → {u : Unit} → Tour site body start [] (labels ++ tail) w → done ∈ tail →
    labels.length = branches.length → Branch.lowerAll site here done labels branches w = .ok u later →
    Tour site body start [] tail later ∧ (Branch.allTerminate branches = true → done ∉ labels →
      arrival later.code.labels done = arrival w.code.labels done)
  | [], labels, tail, start, w, later, u, tour, inside, same, h => by
    obtain rfl := List.length_eq_zero_iff.1 same
    simp only [Branch.lowerAll, pure_returns] at h
    exact h.2 ▸ ⟨tour, fun _ _ => rfl⟩
  | .mk keys stmts :: rest, label :: labels, tail, start, w, later, u, tour, inside, same, h => by
    simp only [Branch.lowerAll, bind_returns, Gen.located_returns] at h
    obtain ⟨_, w1, run1, _, w2, run2, _, w3, run3, run4⟩ := h
    have placed := tour.place run1
    obtain ⟨inner, dead⟩ := Stmt.block_tour (Stmt.lowerAll_follows stmts) placed.valid_after run2
    obtain ⟨tour', untaken⟩ := Branch.lowerAll_tour rest ((placed.step inner (by simp)).goto (by simp [inside]) run3)
      inside (Nat.succ.inj same) run4
    refine ⟨tour', fun terminate apart => ?_⟩
    rw [Branch.allTerminate, Bool.and_eq_true] at terminate
    obtain ⟨apart, others⟩ := List.ne_and_not_mem_of_not_mem_cons apart
    obtain rfl := Gen.jump_of_dead (dead terminate.1) run3
    rw [untaken terminate.2 others, inner.untouched (placed.known done (by simp [inside])).1 (by simp),
      (tour.toSpan.place run1).1.arrival_of_ne apart]

end

section

variable {u : Unit}

theorem Stmt.lowerAll_part (stmts : List Stmt) (valid : w.pool.Valid) (h : Stmt.lowerAll site stmts w = .ok u later) :
    Part site [] w later := by
  have follows : Follows site none _ w later := Stmt.lowerAll_follows stmts valid h
  exact follows.toPart

theorem Stmt.lowerAll_dead (stmts : List Stmt) (terminates : Stmt.lastTerminates stmts = true) (valid : w.pool.Valid)
    (h : Stmt.lowerAll site stmts w = .ok u later) : later.code.alive = false := by
  have follows : Follows site none _ w later := Stmt.lowerAll_follows stmts valid h
  exact follows.dead terminates

end

end ClassForge
