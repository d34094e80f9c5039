import ClassForge.Proofs.Flow
import ClassForge.Proofs.Typing

set_option autoImplicit false

namespace ClassForge

open CodeBuffer (arrival)

namespace Opcode

def goesOn (op : Opcode) : Bool :=
  !op.isBranch && !op.isReturn && op ∉ [athrow, lookupswitch]

theorem goesOn_of_isFree : ∀ op : Opcode, op.isFree = true ∧ op ≠ athrow ∨ op.isIn ldc ldc2W = true →
    op.goesOn = true := by
  decide +kernel

theorem not_of_goesOn : ∀ op : Opcode,
    (op.goesOn = true → op ≠ lookupswitch ∧ ¬ (op.isReturn = true ∨ op = athrow) ∧ op ≠ goto ∧ ¬ op.isBranch = true) ∧
    (op.isBranch = true → op ≠ lookupswitch ∧ ¬ (op.isReturn = true ∨ op = athrow)) := by
  decide +kernel

end Opcode

section Items

variable {i : Instruction} {target : Nat}

theorem Instruction.successors_of_goesOn (goesOn : i.opcode.goesOn = true) :
    i.successors? = some [i.pc + 1 + i.operands.length] := by
  obtain ⟨notSwitch, notEnd, notGoto, notBranch⟩ := (Opcode.not_of_goesOn _).1 goesOn
  simp only [successors?, if_neg notSwitch, if_neg notEnd, if_neg notGoto, if_neg notBranch]

theorem Instruction.successors_of_last (ends : i.opcode.isReturn = true ∨ i.opcode = .athrow) :
    i.successors? = some [] := by
  have notSwitch : i.opcode ≠ .lookupswitch := by
    intro isSwitch
    rw [isSwitch] at ends
    revert ends
    decide
  simp only [successors?, if_neg notSwitch, if_pos ends]

theorem Instruction.successors_of_goto (isGoto : i.opcode = .goto) (goal : i.branchTarget? = some target) :
    i.successors? = some [target] := by
  obtain ⟨notSwitch, notEnd⟩ := (Opcode.not_of_goesOn i.opcode).2 (by rw [isGoto]; rfl)
  simp only [successors?, if_neg notSwitch, if_neg notEnd, if_pos isGoto, goal, Option.map_some]

theorem Instruction.successors_of_branch (branch : i.opcode.isBranch = true) (notGoto : i.opcode ≠ .goto)
    (goal : i.branchTarget? = some target) : i.successors? = some [target, i.pc + 1 + i.operands.length] := by
  obtain ⟨notSwitch, notEnd⟩ := (Opcode.not_of_goesOn i.opcode).2 branch
  simp only [successors?, if_neg notSwitch, if_neg notEnd, if_neg notGoto, if_pos branch, goal, Option.map_some]

theorem Item.endsPath_of_goesOn {opcode : Opcode} {operands : List UInt8} (goesOn : opcode.goesOn = true) :
    (Item.plain opcode operands).endsPath = false := by
  obtain ⟨notSwitch, notEnd, notGoto, -⟩ := (Opcode.not_of_goesOn _).1 goesOn
  rw [not_or] at notEnd
  simp [endsPath, notEnd.1, notEnd.2, notGoto]

end Items

variable {post : Note} {takes : List Kind} {kind : Kind} {gives : List Kind}

namespace Body

variable {body : Body} {stack : List Kind} {vars : List (Nat × Kind)} {exits : List (Label × Note)}
variable {opcode : Opcode} {operands : List UInt8}

theorem steps_of_run {pre : Note} (goesOn : opcode.goesOn = true)
    (run : ∀ pc, ({ pc, opcode, operands } : Instruction) ∈ body.code → ∀ locals,
      (∀ v ∈ pre.vars, locals.Has v.1 v.2) → ∃ next, ({ pc, opcode, operands } : Instruction).run? body.pool
        body.maxLocals ⟨pre.stack, locals⟩ = some next ∧ post.Describes next) :
    body.Steps (.plain opcode operands) pre post exits := by
  intro pc installed
  refine ⟨_, Instruction.successors_of_goesOn goesOn, ?_⟩
  rintro ⟨_, locals⟩ ⟨rfl, has⟩
  obtain ⟨next, ran, describes'⟩ := run pc installed.fetched locals has
  refine ⟨next, ran, fun goal among => .inl ⟨Item.endsPath_of_goesOn goesOn, ?_, describes'⟩⟩
  rw [List.mem_singleton.1 among, Item.size, Nat.add_assoc]
  rfl

theorem steps_of_effect (goesOn : opcode.goesOn = true) (direct : opcode.isDirect = true)
    (effect : ∀ pc, ({ pc, opcode, operands } : Instruction) ∈ body.code →
      ({ pc, opcode, operands } : Instruction).effect? body.pool = some (takes, gives)) :
    body.Steps (.plain opcode operands) ⟨takes ++ stack, vars⟩ ⟨gives ++ stack, vars⟩ exits := by
  exact steps_of_run goesOn fun pc member locals has =>
    ⟨_, Instruction.run_of_effect direct (effect pc member), rfl, has⟩

theorem steps_op (goesOn : opcode.goesOn = true) (kinds : opcode.kindEffect? = some (takes, gives)) :
    body.Steps (.plain opcode operands) ⟨takes ++ stack, vars⟩ ⟨gives ++ stack, vars⟩ exits := by
  have direct := (Opcode.isDirect_of_kindEffect opcode (by rw [kinds]; rfl)).1
  exact steps_of_effect goesOn direct fun pc _ =>
    (@Instruction.effect_of_kindEffect body.pool { pc, opcode, operands } _ kinds).2

theorem steps_dup (narrow : kind.width = 1) :
    body.Steps (.plain .dup []) ⟨kind :: stack, vars⟩ ⟨kind :: kind :: stack, vars⟩ exits := by
  exact steps_of_run rfl fun pc _ locals has => ⟨_, Instruction.run_dup rfl rfl narrow, rfl, has⟩

theorem steps_pop (isPop : opcode = .pop ∧ kind.width = 1 ∨ opcode = .pop2 ∧ kind.width = 2) :
    body.Steps (.plain opcode []) ⟨kind :: stack, vars⟩ ⟨stack, vars⟩ exits := by
  refine steps_of_run ?_ fun pc _ locals has => ⟨_, Instruction.run_pop rfl isPop, rfl, has⟩
  rcases isPop with ⟨rfl, -⟩ | ⟨rfl, -⟩ <;> rfl

theorem steps_last {takes : List Kind} {post : Note} (ends : opcode.isReturn = true ∨ opcode = .athrow)
    (direct : opcode.isDirect = true) (effect : ∀ pc,
      ({ pc, opcode, operands } : Instruction).effect? body.pool = some (takes, [])) :
    body.Steps (.plain opcode operands) ⟨takes ++ stack, vars⟩ post exits := by
  intro pc installed
  refine ⟨[], Instruction.successors_of_last ends, fun frame describes => ?_⟩
  obtain ⟨found, locals⟩ := frame
  obtain ⟨rfl, has⟩ := describes
  exact ⟨_, Instruction.run_of_effect direct (effect pc), by simp⟩

theorem steps_return : body.Steps (.plain kind.returnOpcode []) ⟨kind.pushed ++ stack, vars⟩ post exits := by
  have isReturn : kind.returnOpcode.isReturn = true := by cases kind <;> rfl
  obtain ⟨direct, notConstant, notMember⟩ := (Opcode.isDirect_of_isIn _).2.2 isReturn
  obtain ⟨notField, notMethod⟩ := (Opcode.field_or_method kind.returnOpcode).2.2 notMember
  refine steps_last (.inl isReturn) direct fun pc => ?_
  simp only [Instruction.effect?, notConstant, notField, notMethod, isReturn, Kind.returned_returnOpcode]
  rfl

theorem steps_throw : body.Steps (.plain .athrow []) ⟨.reference :: stack, vars⟩ post exits :=
  @steps_last body stack vars exits .athrow [] [.reference] post (.inr rfl) rfl fun _ =>
    (Instruction.effect_of_kindEffect rfl).2

theorem steps_load {slot : Nat} (value : kind ≠ .void) (known : (slot, kind) ∈ vars)
    (room : slot + kind.width ≤ body.maxLocals) (small : slot < 65536) :
    body.Steps (.load kind slot) ⟨stack, vars⟩ ⟨kind :: stack, vars⟩ exits := by
  obtain ⟨opcode, operands, item, -, -⟩ := Emit.localAccess_load kind slot
  have loaded (pc : Nat) : ({ pc, opcode, operands } : Instruction).loaded? = some (kind, slot) := by
    have := Item.loaded_load (fun _ => 0) pc value small
    rwa [item] at this
  have goesOn : opcode.goesOn = true := by
    unfold Item.load Item.access at item
    split_ifs at item with short byte <;> cases item
    · have : slot = 0 ∨ slot = 1 ∨ slot = 2 ∨ slot = 3 := by omega
      cases kind <;> rcases this with rfl | rfl | rfl | rfl <;> rfl
    · cases kind <;> rfl
    · rfl
  rw [item]
  refine steps_of_run goesOn fun pc _ locals has => ?_
  refine ⟨{ stack := kind :: stack, locals }, ?_, rfl, has⟩
  simp only [Instruction.run?, loaded]
  exact if_pos ⟨room, has _ known⟩

theorem steps_store {slot : Nat} {kept : List (Nat × Kind)} (value : kind ≠ .void)
    (room : slot + kind.width ≤ body.maxLocals) (small : slot < 65536)
    (keeps : ∀ v ∈ kept, v = (slot, kind) ∨ v ∈ vars ∧ 0 < v.2.width ∧
      (v.1 + v.2.width ≤ slot ∨ slot + kind.width ≤ v.1)) :
    body.Steps (.store kind slot) ⟨kind :: stack, vars⟩ ⟨stack, kept⟩ exits := by
  obtain ⟨opcode, operands, item, -, -⟩ := Emit.localAccess_store kind slot
  have wide : 0 < kind.width := by cases kind <;> first | exact absurd rfl value | decide
  have stored (pc : Nat) : ({ pc, opcode, operands } : Instruction).stored? = some (kind, slot) := by
    have := Item.stored_store (fun _ => 0) pc value small
    rwa [item] at this
  obtain ⟨goesOn, notLoaded⟩ : opcode.goesOn = true ∧
      ∀ pc, ({ pc, opcode, operands } : Instruction).loaded? = none := by
    unfold Item.store Item.access at item
    split_ifs at item with short byte <;> cases item
    · have : slot = 0 ∨ slot = 1 ∨ slot = 2 ∨ slot = 3 := by omega
      cases kind <;> rcases this with rfl | rfl | rfl | rfl <;> exact ⟨rfl, fun _ => rfl⟩
    · cases kind <;> exact ⟨rfl, fun _ => rfl⟩
    · cases kind <;> exact ⟨rfl, fun _ => rfl⟩
  rw [item]
  refine steps_of_run goesOn fun pc _ locals has => ?_
  refine ⟨{ stack, locals := locals.write slot kind }, ?_, rfl, fun v member => ?_⟩
  · have dropped : (kind :: stack).dropPrefix? [kind] = some stack :=
      List.dropPrefix?_eq_some_iff.2 ⟨[kind], rfl, by simp⟩
    simp only [Instruction.run?, notLoaded, stored, dropped, if_pos room, Option.map_some]
  · rcases keeps v member with rfl | ⟨old, positive, apart⟩
    · exact locals.has_write slot kind
    · exact (has v old).write apart positive wide

theorem steps_jump {target : Label} (branch : opcode.isBranch = true)
    (kinds : opcode.kindEffect? = some (takes, [])) (exit : (target, ⟨stack, vars⟩) ∈ exits) :
    body.Steps (.jump opcode target) ⟨takes ++ stack, vars⟩ ⟨stack, vars⟩ exits := by
  intro pc installed
  obtain ⟨low, high⟩ := installed.resolved.2 opcode target rfl
  have goal := @Item.branchTarget_jump body.place pc opcode target branch low high
  have kinds' : ((Item.jump opcode target).instruction body.place pc).opcode.kindEffect? = some (takes, []) :=
    kinds
  obtain ⟨direct, effect⟩ := @Instruction.effect_of_kindEffect body.pool _ _ kinds'
  have moves (frame : Frame) (describes : Note.Describes ⟨takes ++ stack, vars⟩ frame) :
      ∃ next, ((Item.jump opcode target).instruction body.place pc).run? body.pool body.maxLocals frame =
        some next ∧ Note.Describes ⟨stack, vars⟩ next := by
    obtain ⟨found, locals⟩ := frame
    obtain ⟨rfl, has⟩ := describes
    exact ⟨_, Instruction.run_of_effect direct effect, rfl, has⟩
  have out (next : Frame) (describes : Note.Describes ⟨stack, vars⟩ next) :
      ∃ e ∈ exits, e.1 ∈ (Item.jump opcode target).targets ∧ body.place target = body.place e.1 ∧ e.2.Describes next :=
    ⟨_, exit, List.mem_singleton.2 rfl, rfl, describes⟩
  by_cases isGoto : opcode = .goto
  · refine ⟨[body.place target], Instruction.successors_of_goto isGoto goal, fun frame describes => ?_⟩
    obtain ⟨next, run, describes'⟩ := moves frame describes
    refine ⟨next, run, fun goal among => .inr ?_⟩
    rw [List.mem_singleton.1 among]
    exact out next describes'
  · refine ⟨_, Instruction.successors_of_branch branch isGoto goal, fun frame describes => ?_⟩
    obtain ⟨next, run, describes'⟩ := moves frame describes
    refine ⟨next, run, fun goal among => ?_⟩
    rw [List.mem_cons, List.mem_singleton] at among
    rcases among with rfl | rfl
    · exact .inr (out next describes')
    · obtain ⟨-, notEnd⟩ := (Opcode.not_of_goesOn _).2 branch
      rw [not_or] at notEnd
      exact .inl ⟨by simp [Item.endsPath, notEnd.1, notEnd.2, isGoto], rfl, describes'⟩

theorem steps_switch {default : Label} {pairs : List (Int × Label)}
    (exit : ∀ label ∈ (Item.switch default pairs).targets, (label, ⟨stack, vars⟩) ∈ exits) :
    body.Steps (.switch default pairs) ⟨.int :: stack, vars⟩ post exits := by
  intro pc installed
  have room : pc + (1 + Instruction.padding pc + 8 + 8 * pairs.length) ≤ 65535 := installed.room
  have goals := @Item.switchTargets_switch body.place pc default pairs (by omega) (by omega)
    fun label target => Nat.lt_succ_of_le (installed.near label target)
  refine ⟨(Item.switch default pairs).targets.map body.place, ?_, fun frame describes => ?_⟩
  · rw [Instruction.successors?, goals]
    simp [Item.instruction, Item.opcode, Item.targets, Function.comp_def]
  · obtain ⟨found, locals⟩ := frame
    obtain ⟨rfl, has⟩ := describes
    obtain ⟨direct, effect⟩ := @Instruction.effect_of_kindEffect body.pool
      ((Item.switch default pairs).instruction body.place pc) ([.int], []) rfl
    refine ⟨{ stack, locals }, Instruction.run_of_effect direct effect, fun goal among => .inr ?_⟩
    obtain ⟨label, target, rfl⟩ := List.mem_map.1 among
    exact ⟨_, exit label target, target, rfl, rfl, has⟩

end Body

def Slots.vars (s : Slots) : List (Nat × Kind) :=
  s.bindings.filterMap fun b => b.descriptor.map fun d => (b.offset, d.kind)

def Site.vars (site : Site) (slots : Slots) : List (Nat × Kind) :=
  (if site.isStatic then [] else [(0, .reference)]) ++ slots.vars

def Context.note (ctx : Context) (stack : List Kind) : Note :=
  { stack, vars := ctx.toSite.vars ctx.slots }

def Workspace.Lasts (w : Workspace) (exits : List (Label × Note)) : Prop :=
  w.code.alive = true ∨ ∃ e ∈ exits, (arrival w.code.labels e.1).isSome = true

variable {w : Workspace} {later : Workspace}

theorem Workspace.Lasts.passed {exits : List (Label × Note)} (dead : w.code.alive = false)
    (lasts : w.Lasts exits) (passed : Passed w later) : later.Lasts exits := by
  rcases lasts with alive | ⟨e, member, arrived⟩
  · rw [dead] at alive
    cases alive
  · exact .inr ⟨e, member, passed.arrived arrived⟩

namespace Gen

variable {α β : Type} {ctx : Context} {body : Option Body} {exits : List (Label × Note)}

structure Types (ctx : Context) (body : Option Body) (exits : List (Label × Note)) (x : Gen α) (pre : List Kind)
    (post : α → List Kind) : Prop where
  grows : Grows ctx.toSite (exits.map (·.1)) x
  flow : ∀ w a later, w.pool.Valid → (∀ e ∈ exits, w.code.Ready e.1) →
    w.slots = ctx.slots → x w = .ok a later → later.Leads body → w.Meets (ctx.note pre) →
    Flow body w later (ctx.note pre) (ctx.note (post a)) exits ∧ later.Lasts exits

variable {pre : List Kind} {post : β → List Kind} {x : Gen β} {f : α → Gen β}

theorem ready_targets (ready : ∀ e ∈ exits, w.code.Ready e.1) : ∀ label ∈ exits.map (·.1), w.code.Ready label := by
  intro label member
  obtain ⟨e, among, rfl⟩ := List.mem_map.1 member
  exact ready e among

theorem Types.flows {a : β} (types : Types ctx body exits x pre post)
    (piece : Piece ctx.toSite (exits.map (·.1)) w later) (slots : w.slots = ctx.slots) (h : x w = .ok a later) :
    Flows body w later (ctx.note pre) (ctx.note (post a)) exits :=
  fun leads meets => (types.flow w a later piece.valid
    (fun e member => piece.ready e.1 (List.mem_map_of_mem member)) slots h leads meets).1

theorem types_pure (b : β) (same : post b = pre) : Types ctx body exits (pure b) pre post := by
  refine ⟨moves_pure b, fun w a later _ _ _ h _ meets => ?_⟩
  obtain ⟨rfl, rfl⟩ := pure_returns.1 h
  rw [same]
  exact ⟨.of_code_eq rfl meets, .inl meets.alive⟩

theorem types_throw (cause : Cause) : Types ctx body exits (throw cause : Gen β) pre post := by
  refine ⟨moves_throw cause, fun w a later _ _ _ h _ _ => ?_⟩
  exact (throw_returns.1 h).elim

theorem types_bind {x : Gen α} {mid : α → List Kind} (first : Types ctx body exits x pre mid)
    (second : ∀ w a later, x w = .ok a later → Types ctx body exits (f a) (mid a) post) :
    Types ctx body exits (x >>= f) pre post := by
  refine ⟨moves_bind_of first.grows fun w a later run => (second w a later run).grows,
    fun w b later valid ready slots h leads meets => ?_⟩
  obtain ⟨a, w1, run, h⟩ := bind_returns.1 h
  have piece := first.grows.piece valid (ready_targets ready) run
  have ready' : ∀ e ∈ exits, w1.code.Ready e.1 := fun e member => piece.readyStill (ready e member)
  have rest := second _ _ _ run
  have piece' := rest.grows.piece piece.valid_after (ready_targets ready') h
  obtain ⟨flow, lasts⟩ := first.flow w a w1 valid ready slots run (piece'.back leads) meets
  have next := rest.flow w1 b later piece'.valid ready' (piece.slots.trans slots) h leads
  refine ⟨flow.trans (fun meets => (next meets).1) piece'.passed, ?_⟩
  cases alive : w1.code.alive with
  | true => exact (next (flow.meets alive)).2
  | false => exact lasts.passed alive piece'.passed

theorem types_seq {x : Gen Unit} {f : Unit → Gen β} {mid : List Kind} (first : Types ctx body exits x pre fun _ => mid)
    (second : Types ctx body exits (f ()) mid post) : Types ctx body exits (x >>= f) pre post :=
  types_bind first fun _ _ _ _ => second

theorem types_check {result : Except Cause α} (next : ∀ a, result = .ok a → Types ctx body exits (f a) pre post) :
    Types ctx body exits (check result >>= f) pre post := by
  refine ⟨moves_check fun a known => (next a known).grows, fun w b later valid ready slots h => ?_⟩
  simp only [bind_returns, check_returns] at h
  obtain ⟨a, _, ⟨known, rfl⟩, h⟩ := h
  exact (next a known).flow w b later valid ready slots h

theorem types_ite {p : Prop} [Decidable p] {y : Gen β} (yes : p → Types ctx body exits x pre post)
    (no : ¬ p → Types ctx body exits y pre post) : Types ctx body exits (if p then x else y) pre post := by
  by_cases h : p
  · rw [if_pos h]
    exact yes h
  · rw [if_neg h]
    exact no h

theorem types_guard {p : Prop} [Decidable p] {cause : Cause} {f : PUnit → Gen β}
    (passed : ¬ p → Types ctx body exits x pre post) :
    Types ctx body exits (if p then throw cause >>= f else x) pre post := by
  refine types_ite (fun _ => ?_) passed
  refine ⟨moves_throw cause, fun w a later _ _ _ h => ?_⟩
  obtain ⟨_, _, thrown, -⟩ := bind_returns.1 h
  exact (throw_returns.1 thrown).elim

theorem Types.more {others : List (Label × Note)} (types : Types ctx body [] x pre post) :
    Types ctx body others x pre post := by
  refine ⟨types.grows.more (List.nil_subset _), fun w a later valid ready slots h leads meets => ?_⟩
  obtain ⟨flow, lasts⟩ := types.flow w a later valid (by simp) slots h leads meets
  have grown := types.grows w a later h valid (by simp)
  exact ⟨flow.more (List.nil_subset _) fun e member =>
    .inr (grown.toGrowth.untouched (ready e member).1 (by simp)), .inl (lasts.resolve_right (by simp))⟩

theorem Types.congr {other : β → List Kind} (types : Types ctx body exits x pre post)
    (same : ∀ w a later, x w = .ok a later → post a = other a) : Types ctx body exits x pre other := by
  refine ⟨types.grows, fun w a later valid ready slots h leads meets => ?_⟩
  rw [← same w a later h]
  exact types.flow w a later valid ready slots h leads meets

theorem types_emit {step : Emit β} {item : Item} {pops pushes : Nat} {last : List Kind}
    (grows : Grows ctx.toSite (exits.map (·.1)) (emit step)) (formed : item.WellFormed)
    (inside : ∀ label ∈ item.targets, label ∈ exits.map (·.1))
    (writes : ∀ b a later, b.alive = true → step b = .ok a later → CodeBuffer.Writes item pops pushes b later)
    (steps : ∀ b ∈ body, ctx.slots.maxSize ≤ b.maxLocals → b.Steps item (ctx.note pre) (ctx.note last) exits)
    (falls : item.endsPath = false → Kind.widths last + pops = Kind.widths pre + pushes)
    (enters : ∀ e ∈ exits, e.1 ∈ item.targets → e.2.width + pops = Kind.widths pre)
    (lasts : item.endsPath = false ∨ ∃ e ∈ exits, e.1 ∈ item.targets) :
    Types ctx body exits (emit step) pre fun _ => last := by
  refine ⟨grows, fun w a later valid ready slots h leads meets => ?_⟩
  obtain ⟨code, run, rfl⟩ := emit_returns.1 h
  have writes := writes _ _ _ meets.alive run
  have ready' : ∀ label ∈ item.targets, w.code.Ready label :=
    fun label target => ready_targets ready label (inside label target)
  have steps (b : Body) (among : b ∈ body) := steps b among (slots ▸ (leads b among).locals)
  refine ⟨.of_writes leads writes formed ready' meets steps falls enters, ?_⟩
  rcases lasts with goesOn | ⟨e, member, target⟩
  · left
    change code.alive = true
    rw [writes.ends, goesOn]
    rfl
  · refine .inr ⟨e, member, ?_⟩
    change (arrival code.labels e.1).isSome = true
    rw [writes.labels, CodeBuffer.arrival_foldl_arriveAt, if_pos ⟨target, (ready' _ target).1⟩]
    simp

theorem types_plain {step : Emit β} {opcode : Opcode} {operands : List UInt8} {takes gives stack : List Kind}
    (grows : Grows ctx.toSite (exits.map (·.1)) (emit step))
    (formed : (Item.plain opcode operands).WellFormed) (goesOn : opcode.goesOn = true)
    (writes : ∀ b a later, b.alive = true → step b = .ok a later →
      CodeBuffer.Writes (.plain opcode operands) (Kind.widths takes) (Kind.widths gives) b later)
    (steps : ∀ b ∈ body, b.Steps (.plain opcode operands) (ctx.note (takes ++ stack)) (ctx.note (gives ++ stack))
      exits) :
    Types ctx body exits (emit step) (takes ++ stack) fun _ => gives ++ stack := by
  refine types_emit grows formed (by simp [Item.targets]) writes (fun b among _ => steps b among) (fun _ => ?_)
    (by simp [Item.targets]) (.inl (Item.endsPath_of_goesOn goesOn))
  rw [Kind.widths_append, Kind.widths_append]
  omega

theorem types_op {opcode : Opcode} {takes gives stack : List Kind} (bare : opcode.isBare = true)
    (notThrow : opcode ≠ .athrow) (kinds : opcode.kindEffect? = some (takes, gives)) :
    Types ctx body exits (op opcode) (takes ++ stack) fun _ => gives ++ stack := by
  have goesOn := Opcode.goesOn_of_isFree opcode (.inl ⟨(Bool.and_eq_true_iff.1 bare).1, notThrow⟩)
  refine types_plain (grows_op bare) (Opcode.wellFormed_of_isBare bare) goesOn
    (fun b a later alive h => ?_) (fun _ _ => Body.steps_op goesOn kinds)
  exact (Emit.op_written (Opcode.kindEffect_facts opcode _ kinds).1 h).writes alive

theorem types_fixed {opcode : Opcode} {operands : List UInt8} {takes gives stack : List Kind}
    (free : opcode.isFree = true) (notThrow : opcode ≠ .athrow)
    (length : Instruction.operandLength? 0 opcode [] = some operands.length)
    (kinds : opcode.kindEffect? = some (takes, gives)) :
    Types ctx body exits (emit (Emit.whenAlive (Emit.fixed opcode operands))) (takes ++ stack)
      fun _ => gives ++ stack := by
  have goesOn := Opcode.goesOn_of_isFree opcode (.inl ⟨free, notThrow⟩)
  have ends : (Item.plain opcode operands).endsPath = false := Item.endsPath_of_goesOn goesOn
  refine types_plain (grows_fixed free length ends) (Item.wellFormed_of_length length) goesOn
    (fun b a later alive h => ?_) (fun _ _ => Body.steps_op goesOn kinds)
  exact (Emit.fixed_written (Opcode.kindEffect_facts opcode _ kinds).1 ends h).writes alive

end Gen

end ClassForge
