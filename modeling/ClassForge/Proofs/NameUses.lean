import ClassForge.Proofs.Frames
import ClassForge.Proofs.StmtGrowth

set_option autoImplicit false

namespace ClassForge

variable {opcode : Opcode}

namespace Item

def loaded? (item : Item) : Option (Kind × Nat) :=
  (item.instruction (fun _ => 0) 0).loaded?

-- What is loaded does not depend on where the instruction stands.
theorem loaded_instruction (place : Label → Nat) (pc : Nat) (item : Item) :
    (item.instruction place pc).loaded? = item.loaded? := by
  cases item with
  | plain | jump => rfl
  | switch default pairs =>
    have nothing (place : Label → Nat) (pc : Nat) : ((switch default pairs).instruction place pc).loaded? = none :=
      Instruction.access_eq_none rfl rfl (show Opcode.lookupswitch ≠ .wide by decide)
    rw [nothing, loaded?, nothing]

theorem loads_program (place : Label → Nat) (items : List Item) :
    (program place items).filterMap (·.loaded?) = items.filterMap loaded? := by
  unfold program
  generalize 0 = pc
  induction items generalizing pc with
  | nil => rfl
  | cons item rest ih => simp [layout, loaded_instruction, ih, List.filterMap_cons]

theorem loaded_bare (other : opcode.isIn .iload0 (.iload0 + 19) = false) : (plain opcode []).loaded? = none := by
  change (if opcode.isIn .iload0 (.iload0 + 19) then _ else none) = none
  rw [if_neg (by simp [other])]

theorem loaded_smallInt (value : Int) : (smallInt value).loaded? = none := by
  unfold smallInt
  split_ifs with tiny
  · obtain ⟨low, high⟩ := tiny
    interval_cases value <;> rfl
  · rfl
  · rfl

theorem loaded_constant (index : UInt16) (width : Nat) : (constant index width).loaded? = none := by
  unfold constant
  split_ifs <;> rfl

theorem loaded_store (kind : Kind) (slot : Nat) : (store kind slot).loaded? = none := by
  unfold store access
  split_ifs
  · cases kind <;> interval_cases slot <;> rfl
  · cases kind <;> rfl
  · cases kind <;> rfl

end Item

namespace Emit

variable {α : Type} {step : Emit α} {item : Item} {a : α}

-- A step that adds no load.
def IsSilent (step : Emit α) : Prop :=
  ∀ b a later, step b = .ok a later → ∀ items, b.Holds items →
    ∃ more, later.Holds (items ++ more) ∧ more.filterMap Item.loaded? = []

theorem silent_puts (puts : step.Puts item a) (silent : item.loaded? = none) : step.IsSilent := by
  intro b r later h items holds
  obtain ⟨-, _, _, ⟨-, rfl⟩ | writes⟩ := puts.returns b r later h
  · exact ⟨[], by simpa using holds, rfl⟩
  · exact ⟨[item], writes.holds puts.formed holds, by simp [silent]⟩

theorem silent_op (length : Instruction.operandLength? 0 opcode [] = some 0)
    (other : opcode.isIn .iload0 (.iload0 + 19) = false) : (op opcode).IsSilent :=
  silent_puts (puts_op length) (Item.loaded_bare other)

theorem silent_ret (kind : Kind) : (ret kind).IsSilent :=
  silent_op (Gen.isReturn_returnOpcode kind) (by cases kind <;> rfl)

theorem silent_same (same : ∀ b a later, step b = .ok a later → later.bytes = b.bytes ∧ later.fixups = b.fixups) :
    step.IsSilent := by
  intro b a later h items holds
  obtain ⟨bytes, fixups⟩ := same b a later h
  exact ⟨[], by simpa using holds.congr bytes fixups, rfl⟩

theorem silent_newLabel : newLabel.IsSilent := by
  refine silent_same fun b label later h => ?_
  simp only [newLabel, modifyGet_returns] at h
  obtain ⟨-, rfl⟩ := h
  exact ⟨rfl, rfl⟩

theorem silent_place (label : Label) : (place label).IsSilent := by
  refine silent_same fun b _ later h => ?_
  simp only [place, modify_returns] at h
  rw [← h, CodeBuffer.place_eq]
  exact ⟨rfl, rfl⟩

end Emit

-- One instruction is added at most, which is no jump, and no load unless names are used.
def Workspace.Puts (names : List String) (w later : Workspace) : Prop :=
  later.slots = w.slots ∧ (later.code = w.code ∨ ∃ item pops pushes, item.WellFormed ∧ item.targets = [] ∧
    (names = [] → item.loaded? = none) ∧ CodeBuffer.Writes item pops pushes w.code later.code)

namespace Gen

variable {α : Type} {names : List String} {ctx : Context} {step : Pooled UInt16}

theorem puts_emit {step : Emit α} {item : Item} {a : α} (puts : step.Puts item a) (free : item.targets = [])
    (silent : names = [] → item.loaded? = none) : Moves (Workspace.Puts names) (emit step) := by
  intro w r later h
  obtain ⟨code, run, rfl⟩ := emit_returns.1 h
  obtain ⟨-, pops, pushes, ⟨-, same⟩ | writes⟩ := puts.returns _ _ _ run
  · exact ⟨rfl, .inl same⟩
  · exact ⟨rfl, .inr ⟨item, pops, pushes, puts.formed, free, silent, writes⟩⟩

theorem puts_use {use : UInt16 → Emit Unit} {item : UInt16 → Item}
    (puts : ∀ index, (use index).Puts (item index) ()) (free : ∀ index, (item index).targets = [])
    (silent : ∀ index, (item index).loaded? = none) : Moves (Workspace.Puts []) (do emit (use (← pooled step))) := by
  intro w u later h
  obtain ⟨index, _, run, h⟩ := bind_returns.1 h
  obtain ⟨pool, -, rfl⟩ := pooled_returns.1 run
  exact puts_emit (puts index) (free index) (fun _ => silent index) { w with pool } u later h

theorem puts_access {width : Nat} (isAccess : opcode ∈ [Opcode.getstatic, .putstatic, .getfield, .putfield]) :
    Moves (Workspace.Puts []) (do emit (.field opcode (← pooled step) width)) :=
  puts_use (fun _ => Emit.puts_field isAccess) (fun _ => rfl) fun _ => by fin_cases isAccess <;> rfl

theorem puts_invoked {args returns : Nat}
    (isCall : opcode ∈ [Opcode.invokevirtual, .invokespecial, .invokestatic, .invokeinterface]) :
    Moves (Workspace.Puts []) (do emit (.invoke opcode (← pooled step) args returns)) :=
  puts_use (fun _ => Emit.puts_invoke isCall) (fun _ => rfl) fun _ => by fin_cases isCall <;> rfl

theorem Leaf.puts {x : Gen α} (leaf : Leaf ctx names x) : Moves (Workspace.Puts names) x := by
  have load (kind : Kind) (slot : Nat) (name : String) : Moves (Workspace.Puts [name]) (emit (.load kind slot)) := by
    obtain ⟨_, _, same, -⟩ := Item.load_plain kind slot
    exact puts_emit (Emit.puts_load kind slot) (by rw [same]; rfl) (by simp)
  cases leaf with
  | op quiet =>
    have bare := Bool.and_eq_true_iff.1 (Opcode.bare_of_isQuiet quiet).1
    exact puts_emit (Emit.puts_op (of_decide_eq_true bare.2)) rfl fun _ =>
      Item.loaded_bare (Opcode.isIn_of_isQuiet quiet)
  | smallInt value =>
    intro w a later h
    obtain ⟨code, run, rfl⟩ := emit_returns.1 h
    obtain ⟨_, _, same, -, formed⟩ := Item.smallInt_plain value
    rcases Emit.smallInt_returns run with ⟨-, rfl, -⟩ | ⟨-, -, ⟨-, rfl⟩ | writes⟩
    · exact ⟨rfl, .inl rfl⟩
    · exact ⟨rfl, .inl rfl⟩
    · exact ⟨rfl, .inr ⟨_, _, _, same ▸ formed, by rw [same]; rfl, fun _ => Item.loaded_smallInt value, writes⟩⟩
  | newArray code => exact puts_emit (Emit.puts_fixed rfl rfl) rfl fun _ => rfl
  | own | bound => exact load _ _ _
  | constant request _ width =>
    refine puts_use (fun _ => Emit.puts_constant) (fun index => ?_) fun index => Item.loaded_constant index width
    obtain ⟨_, _, same, -⟩ := Item.constant_plain index width
    rw [same]
    rfl
  | ofClass family name =>
    fin_cases family <;> exact puts_use (fun _ => Emit.puts_fixed rfl rfl) (fun _ => rfl) fun _ => rfl
  | new => exact puts_use (fun _ => Emit.puts_fixed rfl rfl) (fun _ => rfl) fun _ => rfl
  | read _ reads => exact puts_access (by rw [reads]; split_ifs <;> simp)
  | call => exact puts_invoked (MethodTarget.isCall_invokeOpcode _)
  | _ => exact puts_invoked (by simp)

end Gen

-- The names that the uses in statements start with, in the order of their code.
mutual

def Stmt.roots : Stmt → List String
  | .mk _ action => action.roots

def Stmt.allRoots : List Stmt → List String
  | [] => []
  | stmt :: rest => stmt.roots ++ Stmt.allRoots rest

def Action.roots : Action → List String
  | .ret none => []
  | .ret (some value) | .raise value | .eval value | .declare _ _ _ value => value.roots
  | .assign target value => target.root :: value.roots
  | .cond chain => chain.roots
  | .loop condition body => condition.roots ++ Stmt.allRoots body
  | .select value branches none => value.roots ++ Branch.allRoots branches
  | .select value branches (some body) => value.roots ++ (Branch.allRoots branches ++ Stmt.allRoots body)

def IfChain.roots : IfChain → List String
  | .mk condition body next => condition.roots ++ (Stmt.allRoots body ++ next.roots)

def Otherwise.roots : Otherwise → List String
  | .skip => []
  | .elif chain => chain.roots
  | .block body => Stmt.allRoots body

def Branch.allRoots : List Branch → List String
  | [] => []
  | .mk _ body :: rest => Stmt.allRoots body ++ Branch.allRoots rest

end

def Field.initRoots (fields : List Field) : List String :=
  fields.flatMap fun field => (field.init.map fun value => "this" :: value.roots).getD []

-- The step binds names on top of the slots, which stay as they should be; `R` says for the names that it uses, in
-- their order, what becomes of the workspace.
def Workspace.Tracked (keeps : Slots → Prop) (R : List String → Workspace → Workspace → Prop) (names : List String)
    (w later : Workspace) : Prop :=
  keeps w.slots → keeps later.slots ∧ w.slots.Extends later.slots ∧ R names w later

abbrev Gen.Tracked {ε α : Type} (keeps : Slots → Prop) (R : List String → Workspace → Workspace → Prop)
    (names : List String) (x : EStateM ε Workspace α) : Prop :=
  Moves (Workspace.Tracked keeps R names) x

structure Site.Accounts (site : Site) (keeps : Slots → Prop) (R : List String → Workspace → Workspace → Prop) :
    Prop where
  same : ∀ {w later}, later.pool = w.pool → later.code = w.code → R [] w later
  trans : ∀ {names others w mid later}, R names w mid → R others mid later → R (names ++ others) w later
  among : ∀ {names others w later}, names.Sublist others → R names w later → R others w later
  emit : ∀ {α : Type} {step : Emit α}, step.IsSilent → Moves (R []) (Gen.emit step)
  leaf : ∀ {α : Type} {slots names} {x : Gen α}, keeps slots → Gen.Leaf ⟨site, slots⟩ names x → Moves (R names) x

structure Site.Tracks (site : Site) (keeps : Slots → Prop) (R : List String → Workspace → Workspace → Prop) :
    Prop extends site.Accounts keeps R where
  put : ∀ {slots field}, Context.MayUse ⟨site, slots⟩ field →
    Moves (R []) (Gen.place.access (if field.isStatic then .putstatic else .putfield) field)
  bind : ∀ {slots : Slots} {name type d} (isFinal), keeps slots → slots.lookup? name = none →
    site.scope.descriptor type = .ok d → d ≠ .void → slots.size + d.width ≤ 65535 →
    keeps (Gen.bound slots name d isFinal)
  free : ∀ {slots slots' : Slots}, keeps slots → slots'.bindings = slots.bindings → slots'.size = slots.size →
    keeps slots'

namespace Site

open Gen (Tracked)

variable {site : Site} {keeps : Slots → Prop} {R : List String → Workspace → Workspace → Prop}
variable {names others : List String} {α β ε : Type} {here : Location} {slots : Slots}

theorem tracked_within {step : Context → Gen α}
    (each : ∀ slots, keeps slots → Tracked keeps R names (step ⟨site, slots⟩)) :
    Tracked keeps R names (site.within step) :=
  fun w a later h kept => each w.slots kept w a later (Site.within_returns.1 h) kept

namespace Accounts

variable (tracks : site.Accounts keeps R)

include tracks in
theorem restrict (slots : Slots) : site.Accounts (fun s => keeps s ∧ s = slots) R :=
  { tracks with leaf := fun kept => tracks.leaf kept.1 }

section Steps

variable {x : EStateM ε Workspace α} {f : α → EStateM ε Workspace β}

theorem still (same : ∀ w a later, x w = .ok a later → later.slots = w.slots) (moves : Moves (R names) x) :
    Tracked keeps R names x := by
  intro w a later h kept
  rw [same w a later h]
  exact ⟨kept, .refl _, moves w a later h⟩

include tracks

theorem pure (a : α) : Tracked keeps R names (Pure.pure a : EStateM ε Workspace α) := by
  intro w b later h kept
  obtain ⟨-, rfl⟩ := pure_returns.1 h
  exact ⟨kept, .refl _, tracks.among (List.nil_sublist _) (tracks.same rfl rfl)⟩

theorem bind_of (first : Tracked keeps R names x)
    (second : ∀ w a later, x w = .ok a later → Tracked keeps R others (f a)) :
    Tracked keeps R (names ++ others) (x >>= f) := by
  intro w b later h kept
  obtain ⟨a, mid, run, run'⟩ := bind_returns.1 h
  obtain ⟨kept, grown, moved⟩ := first w a mid run kept
  obtain ⟨kept, grown', moved'⟩ := second w a mid run mid b later run' kept
  exact ⟨kept, grown.trans grown', tracks.trans moved moved'⟩

theorem after (first : Tracked keeps R names x) (second : ∀ a, Tracked keeps R others (f a)) :
    Tracked keeps R (names ++ others) (x >>= f) :=
  tracks.bind_of first fun _ a _ _ => second a

theorem next (first : Tracked keeps R [] x) (second : ∀ a, Tracked keeps R names (f a)) :
    Tracked keeps R names (x >>= f) :=
  tracks.after first second

theorem ends (first : Tracked keeps R names x) (second : ∀ a, Tracked keeps R [] (f a)) :
    Tracked keeps R names (x >>= f) :=
  names.append_nil ▸ tracks.after first second

theorem more (fewer : names.Sublist others) (moves : Tracked keeps R names x) : Tracked keeps R others x := by
  intro w a later h kept
  obtain ⟨kept, grown, moved⟩ := moves w a later h kept
  exact ⟨kept, grown, tracks.among fewer moved⟩

end Steps

include tracks

theorem silent {step : Emit α} (silent : step.IsSilent) : Tracked keeps R [] (Gen.emit step) := by
  refine still (fun w a later h => ?_) (tracks.emit silent)
  obtain ⟨code, run, rfl⟩ := Gen.emit_returns.1 h
  rfl

theorem ofLeaf {x : Gen α} (kept : keeps slots) (leaf : Gen.Leaf ⟨site, slots⟩ names x) :
    Tracked keeps R names x :=
  still (fun w a later h => (leaf.puts w a later h).1) (tracks.leaf kept leaf)

theorem own (isInstance : site.isStatic = false) : Tracked keeps R ["this"] (Gen.place .this) :=
  fun w a later h kept => tracks.ofLeaf kept (.own (.this isInstance (.inl rfl))) w a later h kept

theorem jump (branch : opcode.isBranch = true) (target : Label) : Tracked keeps R [] (Gen.emit (.jump opcode target)) :=
  tracks.silent (Emit.silent_puts (Emit.puts_jump branch target) rfl)

theorem code {targets : List (Label × Label)} {does : α → Prop} {x x' : Gen α} (kept : keeps slots)
    (composed : Gen.Composed ⟨site, slots⟩ targets names does x x') : Tracked keeps R names x := by
  have label := tracks.silent Emit.silent_newLabel
  have placed (label : Label) := tracks.silent (Emit.silent_place label)
  induction composed with
  | done => exact tracks.pure _
  | failed cause => exact moves_throw cause
  | after first _ moves second => exact tracks.bind_of moves fun _ a _ run => second a (first.returns run)
  | checked _ second => exact Gen.moves_check second
  | more _ _ fewer _ inner => exact tracks.more fewer inner
  | leaf leaf => exact tracks.ofLeaf kept leaf
  | jump branch label label' => exact tracks.jump branch label
  | condition _ each =>
    refine tracks.next label fun otherwise => tracks.next label fun done => ?_
    refine tracks.ends (each false otherwise otherwise) fun _ =>
      tracks.next (tracks.silent (Emit.silent_op rfl rfl)) fun _ => tracks.next (tracks.jump rfl done) fun _ => ?_
    refine tracks.next (placed otherwise) fun _ => tracks.next (tracks.silent (Emit.silent_op rfl rfl)) fun _ => ?_
    exact tracks.next (placed done) fun _ => tracks.pure _
  | skip _ each => exact tracks.next label fun label => tracks.ends (each label label) fun _ => placed label

end Accounts

namespace Tracks

variable (tracks : site.Tracks keeps R)
include tracks

theorem putField {field : FieldTarget} (use : Context.MayUse ⟨site, slots⟩ field) :
    Tracked keeps R [] (Gen.place.access (if field.isStatic then .putstatic else .putfield) field) :=
  Accounts.still (fun w a later h => (Gen.puts_access (by split_ifs <;> simp) w a later h).1) (tracks.put use)

theorem codeAs (value : Expr) (expected : Descriptor) :
    Tracked keeps R value.roots (site.within fun ctx => value.codeAs ctx expected) :=
  tracked_within fun _ kept => tracks.code kept (value.codeAs_made _ expected)

theorem value (value : Expr) : Tracked keeps R value.roots (site.within fun ctx => (value.code ctx).value none) :=
  tracked_within fun _ kept => tracks.code kept ((value.code_composed _).value none)

theorem jumpUnless (condition : Expr) (target : Label) :
    Tracked keeps R condition.roots (Gen.jumpUnless site condition target) :=
  tracked_within fun _ kept => tracks.code kept ((condition.code_composed _).jump false target target)

theorem returnValue (value : Option Expr) : Tracked keeps R (Action.ret value).roots (Gen.returnValue site value) := by
  cases value with
  | none =>
    rw [Action.roots]
    exact moves_guard fun _ => tracks.silent (Emit.silent_ret .void)
  | some value =>
    rw [Action.roots]
    exact moves_guard fun _ => tracks.ends (tracks.codeAs value _) fun _ => tracks.silent (Emit.silent_ret _)

theorem raise (value : Expr) : Tracked keeps R value.roots (Gen.raise site value) :=
  tracks.ends (tracks.value value) fun _ => moves_guard fun _ => tracks.silent (Emit.silent_op rfl rfl)

theorem evaluate (value : Expr) : Tracked keeps R value.roots (Gen.evaluate site value) := by
  refine tracks.ends (tracks.value value) fun d => ?_
  unfold Gen.popValue
  split
  · exact tracks.pure ()
  · exact tracks.silent (Emit.silent_op rfl rfl)
  · exact tracks.silent (Emit.silent_op rfl rfl)

theorem scrutinee (value : Expr) : Tracked keeps R value.roots (Gen.scrutinee site value) :=
  tracks.ends (tracks.value value) fun _ => moves_ite (fun _ => moves_throw _) fun _ => tracks.pure _

theorem assign (target : Head) (value : Expr) :
    Tracked keeps R (target.root :: value.roots) (Gen.assign site target value) := by
  refine tracked_within fun slots kept => Gen.moves_check fun base resolved => ?_
  have coded (d : Descriptor) : Tracked keeps R value.roots (value.codeAs ⟨site, slots⟩ d) :=
    tracks.code kept (value.codeAs_made _ d)
  split
  next =>
    refine moves_guard fun _ => tracks.more (List.sublist_cons_self _ _) <|
      tracks.ends (coded _) fun _ => tracks.silent ?_
    exact Emit.silent_puts (Emit.puts_store _ _) (Item.loaded_store _ _)
  next field =>
    cases Context.resolveHead_reached resolved with
    | staticField use =>
      refine moves_guard fun _ => tracks.more (List.sublist_cons_self _ _) (tracks.next (tracks.pure ()) fun _ => ?_)
      exact tracks.ends (coded _) fun _ => tracks.putField use
  next receiver field =>
    cases Context.resolveHead_reached resolved with
    | field reached _ use =>
      have made : Gen.Made ⟨site, slots⟩ [] [target.root] Gen.Any _ := Gen.made_place reached
      refine moves_guard fun _ => tracks.after (tracks.code kept made) fun _ => ?_
      exact tracks.ends (coded _) fun _ => tracks.putField use
  next => exact moves_throw _

theorem declare (isFinal : Bool) (type : TypeName) (name : String) (value : Expr) :
    Tracked keeps R value.roots (Gen.declare site isFinal type name value) := by
  intro w u later h kept
  obtain ⟨d, mid, _, slot, new, typed, isValue, run, named, stored⟩ := Gen.declare_run h
  obtain ⟨⟨-, slots⟩, -, moved⟩ :=
    (tracks.restrict w.slots).code ⟨kept, rfl⟩ (value.codeAs_made _ d) w () mid run ⟨kept, rfl⟩
  obtain ⟨-, fits, rfl⟩ := Gen.bind_run named
  rw [slots] at fits
  have kept : keeps (Gen.bound mid.slots name d isFinal) := slots ▸ tracks.bind isFinal kept new typed isValue fits
  have grown : w.slots.Extends (Gen.bound mid.slots name d isFinal) := by
    rw [slots]
    exact Gen.extends_bound new (Scope.width_pos typed isValue) fits
  have named : R [] mid { mid with slots := Gen.bound mid.slots name d isFinal } := tracks.same rfl rfl
  have silent := Emit.silent_puts (Emit.puts_store d.kind slot) (Item.loaded_store _ _)
  have last := tracks.trans (tracks.trans moved named) (tracks.emit silent _ _ _ stored)
  obtain ⟨code, -, rfl⟩ := Gen.emit_returns.1 stored
  rw [List.append_nil, List.append_nil] at last
  exact ⟨kept, grown, last⟩

theorem block {body : Lower Unit} (inner : Tracked keeps R names body) : Tracked keeps R names (Lower.block body) := by
  intro w u later h kept
  obtain ⟨inside, run, rfl⟩ := Lower.block_run h
  have opened : keeps w.slots.openScope := tracks.free kept rfl rfl
  obtain ⟨-, grown, moved⟩ := inner _ _ _ run opened
  have same := Slots.closeScope_of_extends grown
  have first : R [] w { w with slots := w.slots.openScope } := tracks.same rfl rfl
  have closed : R [] inside { inside with slots := inside.slots.closeScope } := tracks.same rfl rfl
  have last := tracks.trans (tracks.trans first moved) closed
  rw [List.append_nil] at last
  exact ⟨tracks.free kept (by rw [same]) (by rw [same]), Slots.extends_closeScope grown, last⟩

theorem newLabels (n : Nat) : Tracked keeps R [] (Gen.newLabels n) := by
  induction n with
  | zero => exact tracks.pure []
  | succ n ih => exact tracks.next (tracks.silent Emit.silent_newLabel) fun _ => tracks.next ih fun _ => tracks.pure _

omit tracks in
theorem located {x : Gen α} (moves : Tracked keeps R names x) : Tracked keeps R names (x.located here) :=
  Gen.moves_located moves here

theorem label {f : Label → Lower β} (next : ∀ label, Tracked keeps R names (f label)) :
    Tracked keeps R names ((Gen.emit .newLabel).located here >>= f) :=
  tracks.next (located (tracks.silent Emit.silent_newLabel)) next

theorem place (label : Label) : Tracked keeps R [] ((Gen.emit (.place label)).located here) :=
  located (tracks.silent (Emit.silent_place label))

theorem goto (target : Label) : Tracked keeps R [] ((Gen.emit (.jump .goto target)).located here) :=
  located (tracks.jump rfl target)

theorem switch (default : Label) (pairs : List (Int × Label)) :
    Tracked keeps R [] ((Gen.emit (.lookupSwitch default pairs)).located here) := by
  have puts : (Emit.lookupSwitch default pairs).Puts (.switch default pairs) () :=
    ⟨trivial, fun _ _ _ h => ⟨rfl, _, _, Emit.lookupSwitch_returns h⟩⟩
  exact located (tracks.silent (Emit.silent_puts puts rfl))

set_option linter.unusedSectionVars false in
mutual

theorem lower : (stmt : Stmt) → Tracked keeps R stmt.roots (stmt.lower site)
  | .mk line action => by
    rw [Stmt.lower, Stmt.roots]
    have reached : Tracked keeps R [] Gen.checkReachable := by
      intro w u later h kept
      obtain ⟨-, rfl⟩ := Gen.checkReachable_returns.1 h
      exact ⟨kept, .refl _, tracks.same rfl rfl⟩
    exact tracks.next (located reached) fun _ => lowerAction action

theorem lowerAll : (stmts : List Stmt) → Tracked keeps R (Stmt.allRoots stmts) (Stmt.lowerAll site stmts)
  | [] => by
    rw [Stmt.lowerAll, Stmt.allRoots]
    exact tracks.pure ()
  | stmt :: rest => by
    rw [Stmt.lowerAll, Stmt.allRoots]
    exact tracks.after (lower stmt) fun _ => lowerAll rest

theorem lowerAction {here : Location} : (action : Action) → Tracked keeps R action.roots (action.lower site here)
  | .ret value => by
    rw [Action.lower]
    exact located (tracks.returnValue value)
  | .raise value => by
    rw [Action.lower, Action.roots]
    exact located (tracks.raise value)
  | .eval value => by
    rw [Action.lower, Action.roots]
    exact located (tracks.evaluate value)
  | .declare isFinal type name value => by
    rw [Action.lower, Action.roots]
    exact located (tracks.declare isFinal type name value)
  | .assign target value => by
    rw [Action.lower, Action.roots]
    exact located (tracks.assign target value)
  | .cond chain => by
    rw [Action.lower, Action.roots]
    exact tracks.label fun done => tracks.ends (lowerChain chain) fun _ => tracks.place done
  | .loop condition body => by
    rw [Action.lower, Action.roots]
    refine tracks.label fun top => tracks.label fun done => tracks.next (tracks.place top) fun _ => ?_
    refine tracks.after (located (tracks.jumpUnless condition done)) fun _ => ?_
    refine tracks.ends (tracks.block (lowerAll body)) fun _ => ?_
    exact tracks.next (tracks.goto top) fun _ => tracks.place done
  | .select value branches none => by
    rw [Action.lower, Action.roots]
    refine tracks.after (located (tracks.scrutinee value)) fun _ => tracks.label fun done => ?_
    refine tracks.next (located (tracks.newLabels _)) fun labels => tracks.next (tracks.switch _ _) fun _ => ?_
    exact tracks.ends (lowerBranches labels branches) fun _ => tracks.place done
  | .select value branches (some body) => by
    rw [Action.lower, Action.roots]
    refine tracks.after (located (tracks.scrutinee value)) fun _ => tracks.label fun done => ?_
    refine tracks.next (located (tracks.newLabels _)) fun labels => tracks.label fun otherwise => ?_
    refine tracks.next (tracks.switch _ _) fun _ => tracks.after (lowerBranches labels branches) fun _ => ?_
    refine tracks.next (tracks.place otherwise) fun _ => ?_
    exact tracks.ends (tracks.block (lowerAll body)) fun _ => tracks.place done

theorem lowerChain {here : Location} {done : Label} : (chain : IfChain) →
    Tracked keeps R chain.roots (chain.lower site here done)
  | .mk condition body next => by
    rw [IfChain.lower, IfChain.roots]
    refine tracks.label fun otherwise => tracks.after (located (tracks.jumpUnless condition otherwise)) fun _ => ?_
    exact tracks.after (tracks.block (lowerAll body)) fun _ => lowerOtherwise next

theorem lowerOtherwise {here : Location} {done otherwise : Label} : (next : Otherwise) →
    Tracked keeps R next.roots (next.lower site here done otherwise)
  | .skip => by
    rw [Otherwise.lower, Otherwise.roots]
    exact tracks.place otherwise
  | .elif chain => by
    rw [Otherwise.lower, Otherwise.roots]
    exact tracks.next (tracks.goto done) fun _ => tracks.next (tracks.place otherwise) fun _ => lowerChain chain
  | .block body => by
    rw [Otherwise.lower, Otherwise.roots]
    refine tracks.next (tracks.goto done) fun _ => tracks.next (tracks.place otherwise) fun _ => ?_
    exact tracks.block (lowerAll body)

theorem lowerBranches {here : Location} {done : Label} : (labels : List Label) → (branches : List Branch) →
    Tracked keeps R (Branch.allRoots branches) (Branch.lowerAll site here done labels branches)
  | label :: labels, .mk _ body :: rest => by
    rw [Branch.lowerAll, Branch.allRoots]
    refine tracks.next (tracks.place label) fun _ => tracks.after (tracks.block (lowerAll body)) fun _ => ?_
    exact tracks.next (tracks.goto done) fun _ => lowerBranches labels rest
  | [], _ => by
    rw [Branch.lowerAll]
    · exact tracks.pure ()
    · simp
  | _ :: _, [] => by
    rw [Branch.lowerAll]
    · exact tracks.pure ()
    · simp

end

theorem superCall (isInstance : site.isStatic = false) (superclass : String) (arguments : List Expr) :
    Tracked keeps R ("this" :: Expr.allRoots arguments) (Gen.superCall site superclass arguments) := by
  refine tracks.after (tracks.own isInstance) fun _ => tracked_within fun slots kept => ?_
  refine tracks.code kept (show Gen.Made _ [] (Expr.allRoots arguments) Gen.Any _ from ?_)
  refine .checked fun types typed => .checked fun params found => ?_
  exact .ends (ExprCode.made_all (Expr.argCodes_composed _ arguments) params) fun _ _ => .leaf (.construct typed found)

theorem lowerInits {fields : List Field}
    (instances : ∀ field ∈ fields, field.modifier.has .static = false → site.isStatic = false)
    (stores : ∀ field ∈ fields, ∀ d, site.scope.descriptor field.type = .ok d →
      ∀ opcode ∈ [Opcode.putstatic, .putfield],
      Moves (R []) (do Gen.emit (.field opcode (← Gen.pooled (.fieldRef site.self field.name d.text)) d.width))) :
    Tracked keeps R (Field.initRoots fields) (Field.lowerInits site fields) := by
  induction fields with
  | nil => exact tracks.pure ()
  | cons field rest ih =>
    rw [Field.lowerInits, Field.initRoots, List.flatMap_cons]
    obtain ⟨isInstance, instances⟩ := List.forall_mem_cons.1 instances
    obtain ⟨store, stores⟩ := List.forall_mem_cons.1 stores
    refine tracks.after (located ?_) fun _ => ih instances stores
    unfold Field.lowerInits.lowerInit
    cases field.init with
    | none => exact tracks.pure ()
    | some value =>
      refine Gen.moves_check fun d typed => ?_
      have last (opcode : Opcode) (among : opcode ∈ [Opcode.putstatic, .putfield]) (u : Unit) :=
        tracks.ends (tracks.codeAs value d) fun _ => Accounts.still (fun w a later h =>
          (Gen.puts_access (by fin_cases among <;> simp) w a later h).1) (store d typed opcode among)
      cases isStatic : field.modifier.has .static with
      | true => exact tracks.more (List.sublist_cons_self _ _) (last .putstatic (by simp) ())
      | false => exact tracks.after (tracks.own (isInstance isStatic)) (last .putfield (by simp))

end Tracks

end Site

end ClassForge
