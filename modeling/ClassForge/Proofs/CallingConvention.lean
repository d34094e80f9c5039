import ClassForge.Proofs.EntryFrames
import ClassForge.Proofs.Linking
import ClassForge.Proofs.NameUses

set_option autoImplicit false

namespace ClassForge

section Loads

variable {fetch : Kind × Nat → String → Prop} {name : String}

-- What a use of a name loads is as `fetch` says. A name without a slot stands for a field of the receiver, and
-- may get a slot above all that there are.
structure Slots.Serves (slots : Slots) (isStatic : Bool) (fetch : Kind × Nat → String → Prop) : Prop where
  own : isStatic = false → ∀ name, name = "this" ∨ slots.lookup? name = none → fetch (.reference, 0) name
  bound : ∀ name b, name ≠ "this" → slots.lookup? name = some b → (b.descriptor.getD .object).kind ≠ .void ∧
    b.offset < 65536 ∧ fetch ((b.descriptor.getD .object).kind, b.offset) name
  later : ∀ name load, slots.lookup? name = none → slots.size ≤ load.2 → fetch load name

theorem Slots.Serves.bind {slots : Slots} {isStatic isFinal : Bool} {d : Descriptor}
    (serves : slots.Serves isStatic fetch) (new : slots.lookup? name = none) (value : 0 < d.width)
    (fits : slots.size + d.width ≤ 65535) : (Gen.bound slots name d isFinal).Serves isStatic fetch := by
  have looked (other : String) : other = name ∨
      (Gen.bound slots name d isFinal).lookup? other = slots.lookup? other := by
    refine (eq_or_ne other name).imp id fun apart => ?_
    rw [lookup?, Gen.bound, List.find?_cons_of_neg (by simpa using apart.symm)]
    rfl
  have unbound {other : String} (h : (Gen.bound slots name d isFinal).lookup? other = none) :
      slots.lookup? other = none := by
    rcases looked other with rfl | same
    · exact new
    · exact same ▸ h
  refine ⟨fun isInstance other own => serves.own isInstance other (own.imp id unbound),
    fun other b named found => ?_, fun other load h low => serves.later other load (unbound h) ?_⟩
  · rcases looked other with rfl | same
    · rw [lookup?, Gen.bound, List.find?_cons_of_pos (by simp), Option.some_inj] at found
      subst found
      refine ⟨fun (isVoid : d.kind = .void) => ?_, by dsimp only; omega, serves.later other _ new (Nat.le_refl _)⟩
      rw [Descriptor.width, isVoid] at value
      exact absurd value (by decide)
    · exact serves.bound other b named (same ▸ found)
  · exact (Nat.le_add_right _ _).trans low

-- Code that was added loads what the names stand for, in their order. A name may be left out: control may never get
-- to its use, or the use is not a load.
def CodeBuffer.Loads (fetch : Kind × Nat → String → Prop) (names : List String) (b later : CodeBuffer) : Prop :=
  ∀ items, b.Holds items → ∃ more, later.Holds (items ++ more) ∧
    List.SublistForall₂ fetch (more.filterMap Item.loaded?) names

theorem CodeBuffer.Loads.silent {names : List String} {b later : CodeBuffer}
    (silent : ∀ items, b.Holds items → ∃ more, later.Holds (items ++ more) ∧ more.filterMap Item.loaded? = []) :
    b.Loads fetch names later := by
  intro items holds
  obtain ⟨more, holds, none⟩ := silent items holds
  exact ⟨more, holds, none ▸ .nil⟩

theorem Workspace.Puts.loads {w later : Workspace} (puts : w.Puts [] later) : w.code.Loads fetch [] later.code := by
  refine .silent fun items holds => ?_
  obtain ⟨-, same | ⟨item, _, _, formed, -, silent, writes⟩⟩ := puts
  · exact ⟨[], by simpa [same] using holds, rfl⟩
  · exact ⟨[item], writes.holds formed holds, by simp [silent rfl]⟩

theorem Emit.load_loads {kind : Kind} {slot : Nat} (value : kind ≠ .void) (small : slot < 65536)
    (fetched : fetch (kind, slot) name) {w later : Workspace} {u : Unit}
    (h : Gen.emit (.load kind slot) w = .ok u later) : w.code.Loads fetch [name] later.code := by
  obtain ⟨code, run, rfl⟩ := Gen.emit_returns.1 h
  have puts := Emit.puts_load kind slot
  have loaded : (Item.load kind slot).loaded? = some (kind, slot) := Item.loaded_load _ _ value small
  obtain ⟨-, _, _, ⟨-, rfl⟩ | writes⟩ := puts.returns _ _ _ run
  · exact .silent fun items holds => ⟨[], by simpa using holds, rfl⟩
  · refine fun items holds => ⟨[_], writes.holds puts.formed holds, ?_⟩
    simpa [loaded] using .cons fetched .nil

theorem Site.loads_tracks (site : Site) (fetch : Kind × Nat → String → Prop) :
    site.Tracks (Slots.Serves · site.isStatic fetch) fun names w later => w.code.Loads fetch names later.code where
  same _ code := .silent fun items holds => ⟨[], by simpa [code] using holds, rfl⟩
  trans first second items holds := by
    obtain ⟨more, holds, loads⟩ := first items holds
    obtain ⟨more', holds', loads'⟩ := second _ holds
    obtain ⟨read, each, fewer⟩ := List.sublistForall₂_iff.1 loads
    obtain ⟨read', each', fewer'⟩ := List.sublistForall₂_iff.1 loads'
    refine ⟨more ++ more', by simpa using holds', ?_⟩
    rw [List.filterMap_append]
    exact List.sublistForall₂_iff.2 ⟨_, List.rel_append each each', fewer.append fewer'⟩
  among fewer loads items holds := by
    obtain ⟨more, holds, loads⟩ := loads items holds
    obtain ⟨read, each, within⟩ := List.sublistForall₂_iff.1 loads
    exact ⟨more, holds, List.sublistForall₂_iff.2 ⟨read, each, within.trans fewer⟩⟩
  emit silent w a later h := by
    obtain ⟨code, run, rfl⟩ := Gen.emit_returns.1 h
    exact .silent (silent _ _ _ run)
  leaf serves leaf w a later h := by
    have puts := leaf.puts _ _ _ h
    cases leaf with
    | own reached =>
      cases reached with
      | this isInstance own => exact Emit.load_loads (by decide) (by decide) (serves.own isInstance _ own) h
    | bound reached =>
      cases reached with
      | bound named found =>
        obtain ⟨value, small, fetched⟩ := serves.bound _ _ named found
        exact Emit.load_loads value small fetched h
    | _ => exact puts.loads
  put _ w u later h := (Gen.puts_access (by split_ifs <;> simp) w u later h).loads
  bind _ serves new typed value fits := serves.bind new (Scope.width_pos typed value) fits
  free serves bindings size := by
    obtain ⟨own, bound, later⟩ := serves
    simp only [Slots.lookup?, ← bindings, ← size] at own bound later
    exact ⟨own, bound, later⟩

end Loads

-- What a use of a name loads where parameters of these types are passed from slot `first` on: the value of the
-- parameter, the receiver, or a variable above them. A parameter that is called `this` is out of reach.
inductive Param.Passed (first : Nat) (params : List Param) (types : List Descriptor) : Kind × Nat → String → Prop
  | param {i : Nat} {p : Param} {d : Descriptor} (own : params[i]? = some p) (type : types[i]? = some d)
      (other : p.name ≠ "this") :
      Passed first params types (d.kind, first + Descriptor.totalWidth (types.take i)) p.name
  | receiver {name : String} (isInstance : first = 1) (own : name = "this" ∨ name ∉ params.map (·.name)) :
      Passed first params types (.reference, 0) name
  | variable {name : String} {load : Kind × Nat} (own : name ∉ params.map (·.name))
      (above : first + Descriptor.totalWidth types ≤ load.2) : Passed first params types load name

theorem Slots.rowSize_totalWidth {pairs : List (Param × Descriptor)}
    (each : ∀ pair ∈ pairs, pair.2.width = pair.1.type.slotWidth) :
    rowSize pairs = Descriptor.totalWidth (pairs.map (·.2)) := by
  induction pairs with
  | nil => rfl
  | cons pair rest ih =>
    obtain ⟨here, each⟩ := List.forall_mem_cons.1 each
    rw [rowSize, List.map_cons, List.sum_cons, ← rowSize, ih each, ← here]
    rfl

theorem Scope.kind_ne_void {scope : Scope} {type : TypeName} {d : Descriptor} (bounded : scope.IsBounded)
    (value : type.IsValued) (h : scope.descriptor type = .ok d) : d.kind ≠ .void := by
  intro isVoid
  have positive := Slots.slotWidth_pos type
  rw [← Scope.erase_width bounded value h, Descriptor.width, isVoid] at positive
  exact absurd positive (by decide)

section Parameters

variable {site : Site} {isStatic : Bool} {params : List Param} {types : List Descriptor} {slots : Slots}

theorem Scope.paramSlots_serves (bounded : site.scope.IsBounded) (value : ∀ p ∈ params, p.type.IsValued)
    (typed : params.mapM (fun p => site.scope.descriptor p.type) = .ok types)
    (taken : site.scope.paramSlots isStatic params = .ok slots) :
    slots.Serves isStatic (Param.Passed (Slots.firstParam isStatic) params types) := by
  obtain ⟨size, -, small⟩ := paramSlots_size taken
  obtain ⟨types', typed', bindings⟩ := paramSlots_bindings taken
  obtain rfl : types = types' := Except.ok.inj (typed.symm.trans typed')
  have each := mapM_eq_ok_iff.1 typed
  have length := each.length_eq
  have known {p : Param} {d : Descriptor} (member : (p, d) ∈ params.zip types) :=
    And.intro (value p (List.of_mem_zip member).1) (List.forall₂_zip each member)
  have rowSize (part : List (Param × Descriptor)) (within : part ⊆ params.zip types) :
      Slots.rowSize part = Descriptor.totalWidth (part.map (·.2)) :=
    Slots.rowSize_totalWidth fun pair member => (known (within member)).elim (Scope.erase_width bounded)
  have names : (params.zip types).map (·.1.name) = params.map (·.name) := by
    rw [← Function.comp_def (fun p : Param => p.name) Prod.fst, ← List.map_map, List.map_fst_zip length.le]
  have total : slots.size = Slots.firstParam isStatic + Descriptor.totalWidth types := by
    have all := rowSize _ (List.Subset.refl _)
    rw [List.map_snd_zip length.ge, Slots.rowSize, ← Function.comp_def (fun p : Param => p.type.slotWidth) Prod.fst,
      ← List.map_map, List.map_fst_zip length.le] at all
    rw [size, entrySize, all, Slots.firstParam]
  have unbound {name : String} (new : slots.lookup? name = none) : name ∉ params.map (·.name) := by
    intro present
    obtain ⟨b, member, named⟩ := Slots.names_typedRow.2 (names.symm ▸ present)
    rw [Slots.lookup?, bindings] at new
    exact List.find?_eq_none.1 new b (List.mem_append_left _ member) (decide_eq_true named)
  refine ⟨fun isInstance name own => .receiver (by simp [Slots.firstParam, isInstance]) (own.imp id unbound),
    fun name b other found => ?_, fun name load new above => .variable (unbound new) (total ▸ above)⟩
  obtain ⟨d, type⟩ := Option.isSome_iff_exists.1 (Slots.isSome_of_lookup bindings other found)
  obtain ⟨before, p, after, split, named, offset, -⟩ :=
    Slots.param_of_typed bindings (List.mem_of_find?_eq_some found) type
  obtain rfl : p.name = name := by
    have same : b.name = some name := by simpa using List.find?_some found
    exact Option.some_inj.1 (named.symm.trans same)
  have here : (params.zip types)[before.length]? = some (p, d) := by simp [split]
  obtain ⟨param, type'⟩ := List.getElem?_zip_eq_some.1 here
  have front : Slots.rowSize before = Descriptor.totalWidth (types.take before.length) := by
    rw [rowSize before (by simp [split]), ← List.map_snd_zip length.ge, ← List.map_take, split, List.take_left]
  rw [type, offset, front]
  obtain ⟨valued, known⟩ : p.type.IsValued ∧ site.scope.descriptor p.type = .ok d := known (by simp [split])
  refine ⟨Scope.kind_ne_void bounded valued known, ?_, .param param type' other⟩
  have low : Slots.rowSize before ≤ Slots.rowSize (params.zip types) := by simp [split, Slots.rowSize]
  rw [rowSize _ (List.Subset.refl _), List.map_snd_zip length.ge, front] at low
  omega

end Parameters

-- The loads of the decoded code, in their order.
def CodeAttribute.Loads (code : CodeAttribute) (loads : List (Kind × Nat)) : Prop :=
  ∃ instructions, Instruction.decode code.code = .ok instructions ∧ instructions.filterMap (·.loaded?) = loads

variable {code : CodeAttribute} {later : ConstantPool} {item : Item}

theorem CodeAttribute.loads_of_holds {b : CodeBuffer} {items : List Item} (holds : b.Holds items)
    (finish : b.finish = .ok code.code) : code.Loads (items.filterMap Item.loaded?) :=
  ⟨_, (CodeBuffer.finish_returns holds finish).1, Item.loads_program _ _⟩

theorem Generated.loads {site : Site} {pool : ConstantPool} (generated : Generated site pool code) :
    ∃ loads, code.Loads loads := by
  obtain ⟨b, items, finished⟩ := generated
  exact ⟨_, CodeAttribute.loads_of_holds finished.laid.toHolds finished.bytes⟩

theorem Ending.reads {fetch : Kind × Nat → String → Prop} {names : List String} {w : Workspace}
    (loads : CodeBuffer.Loads fetch names {} w.code) (ending : Ending w code later) :
    ∃ read, code.Loads read ∧ List.SublistForall₂ fetch read names := by
  obtain ⟨w₁, w₂, ret, finish, -⟩ := ending.run
  obtain ⟨b, run, rfl⟩ := Gen.emit_returns.1 ret
  obtain ⟨items, holds, read⟩ := loads [] CodeBuffer.laid_empty.toHolds
  obtain ⟨more, holds, none⟩ := Emit.silent_ret .void _ _ _ run _ holds
  refine ⟨_, CodeAttribute.loads_of_holds holds (Gen.finish_run finish).1, ?_⟩
  simpa [List.filterMap_append, none] using read

namespace Gen

variable {α : Type} {loads : List (Kind × Nat)} {step : Emit α} {f : α → Gen CodeAttribute}

-- Straight code to its end: it loads exactly these, after what the code before it loads.
def Makes (loads : List (Kind × Nat)) (x : Gen CodeAttribute) : Prop :=
  ∀ w code later, x w = .ok code later → w.code.alive = true → ∀ items, w.code.Holds items →
    code.Loads (items.filterMap Item.loaded? ++ loads)

theorem makes_emit {a : α} (puts : step.Puts item a) (goesOn : item.endsPath = false) (next : ∀ a, Makes loads (f a)) :
    Makes (item.loaded?.toList ++ loads) (emit step >>= f) := by
  intro w code later h alive items holds
  obtain ⟨r, _, emitted, h⟩ := bind_returns.1 h
  obtain ⟨b, run, rfl⟩ := emit_returns.1 emitted
  obtain ⟨-, _, _, ⟨dead, -⟩ | writes⟩ := puts.returns _ _ _ run
  · cases alive.symm.trans dead
  · have alive : b.alive = true := by rw [writes.ends, goesOn]; rfl
    have made := next r _ _ _ h alive _ (writes.holds puts.formed holds)
    cases loaded : item.loaded? <;> simpa [List.filterMap_append, loaded] using made

theorem makes_load {kind : Kind} {slot : Nat} {f : Unit → Gen CodeAttribute} (value : kind ≠ .void)
    (small : slot < 65536) (next : ∀ u, Makes loads (f u)) :
    Makes ((kind, slot) :: loads) (emit (.load kind slot) >>= f) := by
  obtain ⟨opcode, operands, same, -, goesOn⟩ := Emit.localAccess_load kind slot
  have made := makes_emit (Emit.puts_load kind slot) (same ▸ goesOn) next
  rwa [show (Item.load kind slot).loaded? = some (kind, slot) from Item.loaded_load _ _ value small] at made

theorem makes_silent {a : α} (puts : step.Puts item a)
    (goesOn : item.endsPath = false) (silent : item.loaded? = none) (next : ∀ a, Makes loads (f a)) :
    Makes loads (emit step >>= f) := by
  have made := makes_emit puts goesOn next
  rwa [silent] at made

theorem makes_pooled {step : Pooled α} (next : ∀ a, Makes loads (f a)) : Makes loads (pooled step >>= f) := by
  intro w code later h
  obtain ⟨a, _, run, h⟩ := bind_returns.1 h
  obtain ⟨pool, -, rfl⟩ := pooled_returns.1 run
  exact next a { w with pool } code later h

theorem makes_ret (kind : Kind) (maxLocals : Nat) : Makes [] (do emit (.ret kind); finish maxLocals) := by
  intro w code later h alive items holds
  obtain ⟨u, _, emitted, finish⟩ := bind_returns.1 h
  obtain ⟨b, run, rfl⟩ := emit_returns.1 emitted
  obtain ⟨more, holds, none⟩ := Emit.silent_ret kind _ _ _ run items holds
  simpa [List.filterMap_append, none] using CodeAttribute.loads_of_holds holds (finish_run finish).1

theorem Makes.run {x : Gen CodeAttribute} {pool : ConstantPool} (makes : Makes loads x)
    (h : Gen.run x pool = .ok code later) : code.Loads loads := by
  simp only [Gen.run, Lower.run_returns, unlocated_returns] at h
  obtain ⟨w, run, -⟩ := h
  exact makes _ _ _ run rfl [] CodeBuffer.laid_empty.toHolds

end Gen

namespace Assembly

-- The loads of all parameters of these types, the first of them in slot `first`.
def loadsFrom (first : Nat) : List Descriptor → List (Kind × Nat)
  | [] => []
  | d :: rest => (d.kind, first) :: loadsFrom (first + d.width) rest

open Gen (makes_load makes_silent makes_pooled makes_ret)

theorem Enumeration.valueOfCode_loads {t : Target} {pool : ConstantPool}
    (h : valueOfCode t pool = .ok code later) : code.Loads (loadsFrom 0 [.string]) := by
  have kind : Descriptor.string.kind = .reference := by decide
  simp only [valueOfCode, Gen.method, bind_assoc] at h
  refine Gen.Makes.run (makes_pooled fun self => ?_) h
  refine makes_silent Emit.puts_constant (by unfold Item.constant; split_ifs <;> rfl) (Item.loaded_constant _ _)
    fun _ => ?_
  rw [loadsFrom, kind]
  refine makes_load (by decide) (by decide) fun _ => makes_pooled fun _ => ?_
  refine makes_silent (Emit.puts_invoke (by simp)) rfl rfl fun _ => ?_
  exact makes_silent (Emit.puts_fixed rfl rfl) rfl rfl fun _ => makes_ret _ _

theorem Enumeration.constructorCode_loads {pool : ConstantPool} (h : constructorCode pool = .ok code later) :
    code.Loads ((.reference, 0) :: loadsFrom 1 [.string, .int]) := by
  have kind : Descriptor.string.kind = .reference ∧ Descriptor.int.kind = .int ∧ Descriptor.string.width = 1 := by
    decide
  simp only [constructorCode, Gen.method, bind_assoc] at h
  simp only [loadsFrom, kind]
  refine Gen.Makes.run (makes_load (by decide) (by decide) fun _ => ?_) h
  refine makes_load (by decide) (by decide) fun _ => makes_load (by decide) (by decide) fun _ => ?_
  exact makes_pooled fun _ => makes_silent (Emit.puts_invoke (by simp)) rfl rfl fun _ => makes_ret _ _

namespace Record

variable {t : Target} {parts : List Component} {loads : List (Kind × Nat)}

def loadsStoring (first : Nat) (types : List Descriptor) : List (Kind × Nat) :=
  (loadsFrom first types).flatMap fun load => [(.reference, 0), load]

theorem makes_store {slot : Nat} {f : Nat → Gen CodeAttribute} (valued : ∀ c ∈ parts, c.type.kind ≠ .void)
    (small : slot + Descriptor.totalWidth (parts.map (·.type)) ≤ 65535) (next : ∀ n, Gen.Makes loads (f n)) :
    Gen.Makes (loadsStoring slot (parts.map (·.type)) ++ loads) (store t slot parts >>= f) := by
  induction parts generalizing slot with
  | nil => exact next slot
  | cons c rest ih =>
    obtain ⟨value, valued⟩ := List.forall_mem_cons.1 valued
    simp only [List.map_cons, Descriptor.totalWidth, List.foldr_cons] at small ih
    simp only [store, bind_assoc]
    refine makes_load (by decide) (by decide) fun _ => makes_load value (by omega) fun _ => makes_pooled fun _ => ?_
    exact makes_silent (Emit.puts_field (by simp)) rfl rfl fun _ => ih valued (by simpa [Nat.add_assoc] using small)

theorem constructorCode_loads {pool : ConstantPool} (valued : ∀ c ∈ parts, c.type.kind ≠ .void)
    (small : 1 + Descriptor.totalWidth (parts.map (·.type)) ≤ 65535)
    (h : constructorCode t parts pool = .ok code later) :
    code.Loads ((.reference, 0) :: loadsStoring 1 (parts.map (·.type))) := by
  refine Gen.Makes.run (makes_load (by decide) (by decide) fun _ => makes_pooled fun _ => ?_) h
  refine makes_silent (Emit.puts_invoke (by simp)) rfl rfl fun _ => ?_
  have made := makes_store (t := t) valued small fun n => makes_ret .void n
  rwa [List.append_nil] at made

end Record

def firstSlot (flags : UInt16) (name : String) : Nat :=
  if AccessFlags.has flags AccessFlags.isStatic ∧ name ≠ constructorName then 0 else 1

-- What the code of a method loads where its parameters are passed from slot `first` on: in a body of the source,
-- every load belongs to a use of a name and reads what that name stands for.
inductive Target.Reads (t : Target) (name : String) (first : Nat) (types : List Descriptor)
    (loads : List (Kind × Nat)) : Prop
  | nothing (none : types = [])
  | method {m : Method} {lines : List TokenLine} {statements : List Stmt} (own : m ∈ t.decl.methods)
      (named : m.name = name) (body : m.body = some lines)
      (parsed : Stmt.parseBody t.decl.path lines = .ok statements)
      (typed : m.params.mapM (fun p => (t.methodScope m).descriptor p.type) = .ok types)
      (reads : List.SublistForall₂ (Param.Passed first m.params types) loads (Stmt.allRoots statements))
  | constructor {body : ClassBody} {c : Constructor} {statements : List Stmt} (named : constructorName = name)
      (shape : t.decl.shape = .plainClass body) (own : c ∈ body.constructors)
      (parsed : Stmt.parseBody t.decl.path c.body = .ok statements)
      (typed : c.params.mapM (fun p => t.scope.descriptor p.type) = .ok types)
      (reads : List.SublistForall₂ (Param.Passed first c.params types) loads
        ("this" :: Expr.allRoots ((c.superCall.map (·.arguments)).getD []) ++
          Field.initRoots (body.fields.filter fun f => ¬ f.modifier.has .static) ++ Stmt.allRoots statements))
  | record {components : List Field} (named : constructorName = name) (shape : t.decl.shape = .record components)
      (typed : components.mapM (fun f => t.scope.descriptor f.type) = .ok types)
      (reads : loads = (.reference, 0) :: Record.loadsStoring first types)
  | enumeration {values : List String} (named : constructorName = name) (shape : t.decl.shape = .enumeration values)
      (typed : types = [.string, .int]) (reads : loads = (.reference, 0) :: loadsFrom first types)
  | valueOf {values : List String} (named : "valueOf" = name) (shape : t.decl.shape = .enumeration values)
      (typed : types = [.string]) (reads : loads = loadsFrom first types)

variable {t : Target} {pool : ConstantPool} {info : MethodInfo}

def Target.ReadsAsPassed (t : Target) (pool : ConstantPool) (info : MethodInfo) (code : CodeAttribute) : Prop :=
  ∃ name types returns loads, pool.utf8? info.name = some name ∧
    pool.utf8? info.descriptor = some (MethodDescriptor.of types returns).text ∧ code.Loads loads ∧
    t.Reads name (firstSlot info.flags name) types loads

theorem MethodOf.reads {m : Method} (checked : Review.Checked t.program t.decl) (sound : t.decl.Sound)
    (own : m ∈ t.decl.methods) (entry : MethodOf t (AccessFlags.ofMethod m.modifier) m pool info)
    (coded : info.code = some code) : t.ReadsAsPassed pool info code := by
  obtain ⟨d, code?, typed, codeOf, made⟩ := entry
  cases codeOf with
  | bodiless => cases coded.symm.trans made.code
  | body _ built _ _ =>
    cases coded.symm.trans made.code
    obtain ⟨start, later, -, run, -⟩ := built.made
    obtain ⟨lines, statements, slots, returns, w, body, parsed, taken, -, lowered, -, ending⟩ :=
      Program.methodCode_run run
    obtain ⟨bounds, value⟩ := checked.methods m own
    simp only [Scope.methodDescriptor, bind_eq_ok, pure_eq_ok] at typed
    obtain ⟨types, known, result, -, rfl⟩ := typed
    have serves := Scope.paramSlots_serves (checked.isBounded bounds) value known taken
    obtain ⟨-, -, all⟩ := (Site.loads_tracks _ _).lowerAll statements _ _ _ lowered serves
    obtain ⟨loads, decoded, reads⟩ := ending.reads all
    refine ⟨m.name, types, result, loads, made.named, made.typed, decoded, ?_⟩
    have first : firstSlot info.flags m.name = Slots.firstParam (m.modifier.has .static) := by
      have other : m.name ≠ constructorName := by
        rintro same
        exact (sound.methods m own).1.not_mem (c := '<') (by decide) (by simp [same, constructorName])
      simp [firstSlot, made.flags, AccessFlags.isStatic_ofMethod, Slots.firstParam, other]
    rw [first]
    exact .method own rfl body parsed known reads

theorem ConstructorOf.reads {body : ClassBody} {c : Constructor} (checked : Review.Checked t.program t.decl)
    (shape : t.decl.shape = .plainClass body) (own : c ∈ body.constructors)
    (entry : ConstructorOf t c pool info) (coded : info.code = some code) : t.ReadsAsPassed pool info code := by
  obtain ⟨d, _, typed, built, -, made⟩ := entry
  cases coded.symm.trans made.code
  obtain ⟨start, later, -, run, -⟩ := built.made
  obtain ⟨_, slots, statements, superclass, w1, w2, w3, shape', taken, parsed, run1, run2, run3, ending⟩ :=
    Program.constructorCode_run run
  cases shape.symm.trans shape'
  simp only [Scope.methodDescriptor, bind_eq_ok, pure_eq_ok] at typed
  obtain ⟨types, known, result, -, rfl⟩ := typed
  have bounded : (t.program.constructorSite t.decl).scope.IsBounded := checked.isBounded (by simp)
  have serves := Scope.paramSlots_serves bounded (checked.constructors body shape c own) known taken
  have tracks := (t.program.constructorSite t.decl).loads_tracks (Param.Passed (Slots.firstParam false) c.params types)
  obtain ⟨serves, -, called⟩ := tracks.superCall rfl superclass _ _ _ _ run1 serves
  obtain ⟨serves, -, set⟩ := tracks.lowerInits (fun _ _ _ => rfl) (fun _ _ _ _ opcode among w u later h =>
    (Gen.puts_access (by fin_cases among <;> simp) w u later h).loads) _ _ _ run2 serves
  obtain ⟨-, -, last⟩ := tracks.lowerAll statements _ _ _ run3 serves
  obtain ⟨loads, decoded, reads⟩ := ending.reads (tracks.trans (tracks.trans called set) last)
  refine ⟨constructorName, types, result, loads, made.named, made.typed, decoded, ?_⟩
  have first : firstSlot info.flags constructorName = Slots.firstParam false := by simp [firstSlot, Slots.firstParam]
  rw [first]
  exact .constructor rfl shape own parsed known reads

section Values

variable {isInitializer : Bool} {flags : UInt16} {name : String} {types : List Descriptor} {returns : Descriptor}
  {step : Build CodeAttribute} {first : Nat}

theorem ValueMethodOf.reads (entry : ValueMethodOf t isInitializer flags name types returns step pool info)
    (slot : firstSlot flags name = first)
    (reads : ∀ start later, step start = .ok code later →
      (if AccessFlags.has flags AccessFlags.isStatic then 0 else 1) + Descriptor.totalWidth types ≤ 65535 →
      ∃ loads, code.Loads loads ∧ t.Reads name first types loads)
    (coded : info.code = some code) : t.ReadsAsPassed pool info code := by
  obtain ⟨_, built, -, made⟩ := entry
  cases coded.symm.trans made.code
  obtain ⟨start, later, -, run, -⟩ := built.made
  have small := built.room.trans (Nat.le_of_lt_succ code.maxLocals.toNat_lt)
  obtain ⟨loads, decoded, reads⟩ := reads start later run small
  refine ⟨name, types, returns, loads, made.named, made.typed, decoded, ?_⟩
  rwa [made.flags, slot]

theorem ValueMethodOf.reads_nothing (entry : ValueMethodOf t isInitializer flags name [] returns step pool info)
    (coded : info.code = some code) : t.ReadsAsPassed pool info code := by
  obtain ⟨_, -, generated, made⟩ := entry
  cases coded.symm.trans made.code
  obtain ⟨loads, decoded⟩ := generated.loads
  exact ⟨name, [], returns, loads, made.named, made.typed, decoded, .nothing rfl⟩

end Values

theorem Holds.reads {fields : List FieldInfo} {methods : List MethodInfo}
    (checked : Review.Checked t.program t.decl) (sound : t.decl.Sound) (holds : Holds t pool fields methods)
    (member : info ∈ methods) (coded : info.code = some code) : t.ReadsAsPassed pool info code := by
  cases holds with
  | plainClass shape _ constructed methods' initial =>
    rcases List.mem_append.1 member with member | member
    · rcases List.mem_append.1 member with member | member
      · obtain ⟨c, own, entry⟩ := exists_left_of_forall₂ constructed member
        exact entry.reads checked shape own coded
      · obtain ⟨m, own, entry⟩ := exists_left_of_forall₂ methods' member
        exact entry.reads checked sound (by simpa [Decl.methods, shape] using own) coded
    · obtain ⟨_, generated, made⟩ := initial info member
      cases coded.symm.trans made.code
      obtain ⟨loads, decoded⟩ := generated.loads
      exact ⟨_, [], .void, loads, made.named, made.typed, decoded, .nothing rfl⟩
  | interface shape methods' =>
    obtain ⟨m, -, d, _, -, codeOf, made⟩ := exists_left_of_forall₂ methods' member
    cases codeOf with
    | bodiless => cases coded.symm.trans made.code
    | body bodied => simp [Target.isBodiless, Decl.isInterface, shape] at bodied
  | enumeration shape _ _ listed found made initial =>
    simp only [List.mem_cons, List.not_mem_nil, or_false] at member
    rcases member with rfl | rfl | rfl | rfl
    · exact listed.reads_nothing coded
    · refine found.reads (by decide : _ = 0) (fun start later run _ => ?_) coded
      exact ⟨_, Enumeration.valueOfCode_loads run, .valueOf rfl shape rfl rfl⟩
    · refine made.reads (by decide : _ = 1) (fun start later run _ => ?_) coded
      exact ⟨_, Enumeration.constructorCode_loads run, .enumeration rfl shape rfl rfl⟩
    · exact initial.reads_nothing coded
  | record shape _ typed made read =>
    rcases List.mem_cons.1 member with rfl | member
    · refine made.reads (by decide : _ = 1) (fun start later run small => ?_) coded
      have types := mapM_eq_ok_iff.2 (List.forall₂_map_right_iff.2 (typed.imp fun f c both => both.2))
      refine ⟨_, Record.constructorCode_loads (fun c among => ?_) small run, .record rfl shape types rfl⟩
      obtain ⟨f, own, -, known⟩ := exists_left_of_forall₂ typed among
      exact Scope.kind_ne_void (checked.isBounded (by simp)) (checked.components _ shape f own) known
    · obtain ⟨f, -, d, -, entry⟩ := exists_left_of_forall₂ read member
      exact entry.reads_nothing coded

end Assembly

end ClassForge
