import ClassForge.Proofs.LeafTyping

set_option autoImplicit false

namespace ClassForge

variable {d e : Descriptor} {named : String → Prop}

namespace Descriptor

def IsNullOr (good : Descriptor → Prop) (d : Descriptor) : Prop :=
  d = null ∨ good d

def voidArray : Descriptor :=
  void.arrayOf

theorem arrayOf_inj (h : d.arrayOf = e.arrayOf) : d = e := by
  obtain ⟨d⟩ := d
  obtain ⟨e⟩ := e
  have texts : ("[" ++ d).toList = ("[" ++ e).toList := congrArg (String.toList ·.text) h
  rw [String.toList_append, String.toList_append] at texts
  exact congrArg _ (String.toList_inj.1 (List.append_cancel_left texts))

theorem element_arrayOf (d : Descriptor) : d.arrayOf.element? = some d := by
  simp [element?, arrayOf]

theorem Proper.element (proper : d.Proper named) (h : d.element? = some e) : d = e.arrayOf ∧ e.Proper named := by
  cases proper with
  | ofPrimitive p => cases p <;> cases h
  | ofClass => simp [element?, Descriptor.ofClass] at h
  | arrayOf element =>
    rw [element_arrayOf] at h
    cases h
    exact ⟨rfl, element⟩

theorem kind_of_isIntegral (h : d.isIntegral = true) : d = long ∨ d.kind = .int := by
  rw [isIntegral, Bool.or_eq_true, decide_eq_true_eq] at h
  rcases h with small | isLong
  · have among : d ∈ [byte, short, char, int] := of_decide_eq_true small
    fin_cases among <;> exact .inr rfl
  · exact .inl isLong

theorem arrayStore_kinds (proper : d.Proper named) (value : d ≠ void) :
    d.kind ≠ .void ∧ d.arrayStore.kindEffect? = some ([d.kind, .int, .reference], []) := by
  have ofReference {d : Descriptor} (kind : d.kind = .reference) :
      d.kind ≠ .void ∧ d.arrayStore.kindEffect? = some ([d.kind, .int, .reference], []) := by
    have apart (e : Descriptor) (other : e.kind ≠ .reference) : d ≠ e := by
      rintro rfl
      exact other kind
    have store : d.arrayStore = .aastore := by
      simp only [arrayStore, apart int (by decide), apart long (by decide), apart float (by decide),
        apart double (by decide), apart boolean (by decide), apart byte (by decide), apart char (by decide),
        apart short (by decide), or_self, if_false]
    rw [store, kind]
    exact ⟨by decide, rfl⟩
  cases proper with
  | ofPrimitive p => cases p <;> first | exact absurd rfl value | exact ⟨by decide, rfl⟩
  | ofClass => exact ofReference (kind_ofClass _)
  | arrayOf => exact ofReference (kind_arrayOf _)

theorem Valued.element (valued : d.Valued named) (h : d.element? = some e) : d = e.arrayOf ∧ e.Valued named := by
  cases valued with
  | @ofPrimitive p => cases p <;> cases h
  | ofClass => simp [element?, Descriptor.ofClass] at h
  | arrayOf element =>
    rw [element_arrayOf] at h
    cases h
    exact ⟨rfl, element⟩

theorem Valued.ne_void (valued : d.Valued named) : d ≠ void ∧ d ≠ voidArray := by
  have value {d : Descriptor} (valued : d.Valued named) : d ≠ void := by
    cases valued with
    | @ofPrimitive p value => cases p <;> first | exact absurd rfl value | decide
    | ofClass | arrayOf => exact fun same => by simpa using congrArg kind same
  refine ⟨value valued, ?_⟩
  rintro rfl
  exact value (valued.element (element_arrayOf void)).2 rfl

end Descriptor

open Descriptor (voidArray)

variable {w : Workspace} {x : Gen Descriptor} {exits : List (Label × Note)} {name : String} {argument : Descriptor}
  {value : Option Descriptor → Gen Descriptor} {jump : Bool → Label → Gen Unit}

namespace Gen

variable {α β : Type} {ctx : Context} {body : Option Body} {post : β → List Kind} {type : Except Cause Descriptor}

abbrev Gives (ctx : Context) (body : Option Body) (x : Gen Descriptor) (stack : List Kind) : Prop :=
  Types ctx body [] x stack fun d => d.kind.pushed ++ stack

abbrev Tests (ctx : Context) (body : Option Body) (target : Label) (x : Gen Unit) (stack : List Kind) : Prop :=
  Types ctx body [(target, ctx.note stack)] x stack fun _ => stack

abbrev Appends (ctx : Context) (body : Option Body) (x : Gen Unit) (stack : List Kind) : Prop :=
  Types ctx body [] x (.reference :: stack) fun _ => .reference :: stack

theorem Types.goesOn {x : Gen β} {pre : List Kind} (types : Types ctx body [] x pre post)
    {later : Workspace} {a : β} (valid : w.pool.Valid) (slots : w.slots = ctx.slots)
    (h : x w = .ok a later) (leads : later.Leads body) (meets : w.Meets (ctx.note pre)) :
    Flow body w later (ctx.note pre) (ctx.note (post a)) [] ∧ later.Meets (ctx.note (post a)) := by
  obtain ⟨flow, lasts⟩ := types.flow w a later valid (by simp) slots h leads meets
  exact ⟨flow, flow.meets (lasts.resolve_right (by simp))⟩

def IsShort (ctx : Context) (body : Option Body) (x : Gen Descriptor) (type : Except Cause Descriptor) : Prop :=
  ∀ stack w d later, w.pool.Valid → w.slots = ctx.slots → x w = .ok d later →
    later.Leads body → w.Meets (ctx.note stack) →
    (Flow body w later (ctx.note stack) (ctx.note (d.kind.pushed ++ stack)) [] ∧
        later.Meets (ctx.note (d.kind.pushed ++ stack))) ∨
      type ≠ .ok voidArray ∧ d = voidArray ∧ later.code.alive = true ∧ later.code.depth ≤ w.code.depth

theorem isShort_of_types (types : ∀ stack, Gives ctx body x stack) :
    IsShort ctx body x type := by
  intro stack w d later valid slots h leads meets
  exact .inl ((types stack).goesOn valid slots h leads meets)

theorem types_after {f : Descriptor → Gen β}
    {stack : List Kind} (grows : Grows ctx.toSite [] x) (short : IsShort ctx body x type)
    (next : ∀ w d mid, x w = .ok d mid → Types ctx body [] (f d) (d.kind.pushed ++ stack) post)
    (never : type ≠ .ok voidArray → ∀ w mid b later, x w = .ok voidArray mid → mid.code.alive = true →
      mid.code.depth ≤ Kind.widths stack → f voidArray mid = .ok b later → False) :
    Types ctx body [] (x >>= f) stack post := by
  refine ⟨moves_bind_of grows fun w d mid run => (next w d mid run).grows,
    fun w b later valid _ slots h leads meets => ?_⟩
  obtain ⟨d, mid, run, h⟩ := bind_returns.1 h
  have piece := grows.piece valid (by simp) run
  have next := next w d mid run
  have piece' := next.grows.piece piece.valid_after (by simp) h
  rcases short stack w d mid valid slots run (piece'.back leads) meets with
    ⟨flow, meets'⟩ | ⟨other, rfl, alive, depth⟩
  · obtain ⟨flow', lasts⟩ := next.flow mid b later piece'.valid (by simp) (piece.slots.trans slots) h leads meets'
    exact ⟨flow.trans (fun _ => flow') piece'.passed, lasts⟩
  · have counted : w.code.depth = Kind.widths stack := meets.depth
    exact (never other w mid b later run alive (by omega) h).elim

theorem types_absurd {exits : List (Label × Note)} {x : Gen α} {f : α → Gen β} {pre : List Kind}
    {post : β → List Kind} (first : Grows ctx.toSite (exits.map (·.1)) x)
    (second : ∀ a, Grows ctx.toSite (exits.map (·.1)) (f a))
    (never : ∀ w a later, w.pool.Valid → x w = .ok a later → later.Leads body →
      w.Meets (ctx.note pre) → False) : Types ctx body exits (x >>= f) pre post := by
  refine ⟨moves_bind first second, fun w b later valid ready slots h leads meets => ?_⟩
  obtain ⟨a, mid, run, h⟩ := bind_returns.1 h
  have grown := first w a mid run valid (ready_targets ready)
  have ready' : ∀ e ∈ exits, mid.code.Ready e.1 :=
    fun e member => grown.ready (ready e member).1 (ready e member)
  have grown' := second a mid b later h grown.valid (ready_targets ready')
  exact (never w a mid valid run (grown'.leadsBack leads) meets).elim

theorem types_unformed {rest : Unit → Gen β} {pre : List Kind}
    (formed : Body.Formed body) (done : body.isSome = true)
    (isArray : name.toList.head? = some '[') (unformed : ¬ (Descriptor.mk name).IsFormed)
    (grows : ∀ u, Grows ctx.toSite (exits.map (·.1)) (rest u)) :
    Types ctx body exits (pooled (.classRef name) >>= fun index => emit (.opWord .anewarray index) >>= rest)
      pre post := by
  have whole := @types_absurd Unit β ctx body exits (do emit (.opWord .anewarray (← pooled (.classRef name))))
    rest pre post (grows_class rfl rfl fun _ => rfl) grows ?_
  · rwa [bind_assoc] at whole
  intro w a later valid h leads meets
  simp only [bind_returns, pooled_returns, emit_returns] at h
  obtain ⟨index, _, ⟨pool, run, rfl⟩, code, run', rfl⟩ := h
  obtain ⟨-, -, named⟩ := Pooled.classRef_returns valid run
  have written : CodeBuffer.Written (.plain .anewarray (Bytes.u2 index)) 1 1 w.code code :=
    Emit.fixed_written rfl rfl run'
  obtain ⟨b, among⟩ := Option.isSome_iff_exists.1 done
  have leads := leads b among
  have installed := leads.installed meets.laid (written.writes meets.alive) (Item.wellFormed_of_length rfl)
    (by simp [Item.targets])
  have read := @Instruction.wordOperand_u2 w.code.pc .anewarray index []
  refine unformed ((formed b among _ installed.fetched).array (List.mem_cons_of_mem _ List.mem_cons_self)
    name ?_ isArray)
  rw [List.append_nil] at read
  exact Option.mem_def.2 (Option.bind_eq_some_iff.2 ⟨index, read, leads.pool.className? named⟩)

variable {stack : List Kind}

theorem types_test {value : Option Descriptor → Gen Descriptor}
    (types : Gives ctx body (value none) stack) (expected : Bool) (target : Label) :
    Tests ctx body target (test value expected target) stack := by
  refine types_bind types.more fun _ d _ _ => types_guard fun isBoolean => ?_
  rw [not_ne_iff.1 isBoolean]
  cases expected
  · exact @types_jump _ _ _ .ifeq target [.int] rfl rfl
  · exact @types_jump _ _ _ .ifne target [.int] rfl rfl

theorem appendType_valued (string : named "java/lang/String")
    (object : named "java/lang/Object") (h : appendType d = .ok argument) : argument.Valued named := by
  have primitive {p : Primitive} (value : p ≠ .void) : (Descriptor.ofPrimitive p).Valued named := .ofPrimitive value
  unfold appendType at h
  split_ifs at h with isVoid known isInt
  · cases h
    fin_cases known
    · exact @primitive .boolean (by decide)
    · exact @primitive .char (by decide)
    · exact @primitive .long (by decide)
    · exact @primitive .float (by decide)
    · exact @primitive .double (by decide)
    · exact .ofClass string
  · cases h
    exact @primitive .int (by decide)
  · cases h
    exact .ofClass object

theorem appendType_kind (sane : d = .null ∨ d.Proper named) (h : appendType d = .ok argument) :
    argument.kind = d.kind := by
  unfold appendType at h
  split_ifs at h with isVoid known isInt
  · cases h
    rfl
  · cases h
    have among : d ∈ [Descriptor.byte, .short, .char, .int] := of_decide_eq_true isInt
    fin_cases among <;> rfl
  · cases h
    rcases sane with rfl | proper
    · exact Descriptor.kind_ofClass _
    · cases proper with
      | ofPrimitive p =>
        cases p <;> first | exact absurd rfl isVoid | exact absurd (by decide) known | exact absurd rfl isInt
      | ofClass => rw [Descriptor.kind_ofClass, Descriptor.object, Descriptor.kind_ofClass]
      | arrayOf => rw [Descriptor.kind_arrayOf, Descriptor.object, Descriptor.kind_ofClass]

theorem types_append (formed : Body.Formed body)
    (sane : ∀ w d later, value none w = .ok d later → d = .null ∨ d.Proper named)
    (types : ∀ stack, Gives ctx body (value none) stack) : Appends ctx body (appendValue value) stack := by
  refine types_bind (types _) fun w d later run => types_check fun argument known => ?_
  have call := @types_member ctx body [] stack formed .invokevirtual builder "append" [argument]
    (.ofClass builder) (by simp) (grows_buildCall (by decide)) fun _ _ =>
      by simpa using appendType_valued (by decide) (by decide) known
  rw [Descriptor.kind_ofClass] at call
  simpa [Descriptor.kinds, Kind.pushed, appendType_kind (sane w d later run) known] using call

theorem types_concatenate (formed : Body.Formed body) {parts : Gen Unit}
    (types : ∀ stack, Appends ctx body parts stack) : Gives ctx body (concatenate parts) stack := by
  have start : Types ctx body [] (invokeMethod .invokespecial builder constructorName [] .void)
      (.reference :: .reference :: stack) fun _ => .reference :: stack :=
    types_member formed (by simp) (grows_invoke _ (by simp)
      (fun _ _ _ valid h => Pooled.methodRef_returns valid h)
      (fun _ _ ref => .foreign (by simp) (.inl (by simp)) (fun _ => rfl) ref)) (by simp)
  have last : Appends ctx body (invokeMethod .invokevirtual builder "toString" [] .string) stack :=
    types_member formed (by simp) (grows_buildCall (by decide)) (by simp)
  refine types_then (types_new (.inl rfl)) (types_seq (types_dup rfl) ?_)
  refine types_seq start <| types_seq (types stack) ?_
  exact types_seq last <| types_pure _ rfl

-- The generation has come from `start` to `w`. Control gets to `w` with the note `n`, or to a label with the
-- note of that label; the labels of `made` were made on the way and stand nowhere yet.
structure Route (ctx : Context) (body : Option Body) (start : Workspace) (outer made : List (Label × Note))
    (pre n : Note) (w : Workspace) : Prop
    extends Span ctx.toSite start (outer.map (·.1)) (made.map (·.1)) w where
  slots : w.slots = ctx.slots
  single : ((made ++ outer).map (·.1)).Nodup
  goes : w.Leads body → start.Meets pre → Flow body start w pre n (made ++ outer) ∧ w.Lasts (made ++ outer)

namespace Route

variable {start later : Workspace} {outer made : List (Label × Note)} {pre n : Note} {label : Label}

theorem refl (valid : w.pool.Valid) (ready : ∀ e ∈ outer, w.code.Ready e.1) (slots : w.slots = ctx.slots)
    (single : (outer.map (·.1)).Nodup) : Route ctx body w outer [] pre pre w :=
  ⟨.refl valid (ready_targets ready), slots, single, fun _ meets => ⟨.of_code_eq rfl meets, .inl meets.alive⟩⟩

theorem newLabel (route : Route ctx body start outer made pre n w) (note : Note)
    (h : emit .newLabel w = .ok label later) : Route ctx body start outer ((label, note) :: made) pre n later := by
  obtain ⟨span, alike⟩ := route.toSpan.newLabel h
  have new : label ∉ (made ++ outer).map (·.1) := by
    intro member
    have known := route.known label (by simpa using member)
    exact absurd known.1 (Nat.not_lt.2 (Nat.le_of_eq (newLabel_alike h).2.2.symm))
  refine ⟨span, alike.slots.trans route.slots, List.nodup_cons.2 ⟨new, route.single⟩, fun leads meets => ?_⟩
  obtain ⟨flow, lasts⟩ := route.goes (alike.back leads) meets
  refine ⟨flow.newLabel note route.lowered.size h, ?_⟩
  rcases lasts with alive | ⟨e, member, arrived⟩
  · exact .inl (alike.alive ▸ alive)
  · exact .inr ⟨e, List.mem_cons_of_mem _ member, alike.passed.arrived arrived⟩

theorem step {x : Gen α} {a : α} {post : α → List Kind}
    (route : Route ctx body start outer made pre (ctx.note stack) w) (types : Types ctx body exits x stack post)
    (known : exits ⊆ made ++ outer) (h : x w = .ok a later) :
    Route ctx body start outer made pre (ctx.note (post a)) later := by
  have targets : ∀ label ∈ exits.map (·.1), label ∈ made.map (·.1) ++ outer.map (·.1) := by
    rw [← List.map_append]
    exact fun _ member => List.map_subset _ known member
  obtain ⟨piece, span⟩ := route.toSpan.piece types.grows targets h
  refine ⟨span, piece.slots.trans route.slots, route.single, fun leads meets => ?_⟩
  obtain ⟨flow, lasts⟩ := route.goes (piece.back leads) meets
  have next (meets : w.Meets (ctx.note stack)) := types.flow w a later piece.valid
    (fun e member => piece.ready e.1 (List.mem_map_of_mem member)) route.slots h leads meets
  refine ⟨flow.trans (fun meets => (next meets).1.more known fun e member => ?_) piece.passed, ?_⟩
  · by_cases target : e.1 ∈ exits.map (·.1)
    · obtain ⟨e', among, same⟩ := List.mem_map.1 target
      exact .inl (List.inj_on_of_nodup_map route.single (known among) member same ▸ among)
    · refine .inr (piece.untouched (route.known e.1 ?_).1 target)
      rw [← List.map_append]
      exact List.mem_map_of_mem member
  · cases alive : w.code.alive with
    | true => exact (next (flow.meets alive)).2.imp id fun ⟨e, member, arrived⟩ => ⟨e, known member, arrived⟩
    | false => exact lasts.passed alive piece.passed

theorem perm {others : List (Label × Note)} (route : Route ctx body start outer made pre n w)
    (same : made.Perm others) : Route ctx body start outer others pre n w := by
  have all : (made ++ outer).Perm (others ++ outer) := same.append_right outer
  refine ⟨route.toSpan.perm (same.map _), route.slots, (all.map _).nodup_iff.1 route.single, fun leads meets => ?_⟩
  obtain ⟨flow, lasts⟩ := route.goes leads meets
  exact ⟨flow.more all.subset fun e member => .inl (all.symm.subset member),
    lasts.imp id fun ⟨e, member, arrived⟩ => ⟨e, all.subset member, arrived⟩⟩

theorem place {note : Note} {u : Unit} (route : Route ctx body start outer ((label, note) :: made) pre n w)
    (below : w.code.alive = true → note.Below n) (h : emit (.place label) w = .ok u later) :
    Route ctx body start outer made pre note later := by
  obtain ⟨placed, span⟩ := route.toSpan.place h
  obtain ⟨only, single⟩ := List.nodup_cons.1 route.single
  have apart : ∀ e ∈ made ++ outer, e.1 ≠ label := by
    rintro e member rfl
    exact only (List.mem_map.2 ⟨e, member, rfl⟩)
  refine ⟨span, placed.slots.trans route.slots, single, fun leads meets => ?_⟩
  obtain ⟨back, here⟩ := placed.back leads
  obtain ⟨flow, lasts⟩ := route.goes back meets
  refine ⟨flow.place below (route.unreached (by simp)) apart here placed.same, ?_⟩
  rcases lasts with alive | ⟨e, member, arrived⟩
  · exact .inl (by rw [placed.alive, alive]; rfl)
  · rcases List.mem_cons.1 member with rfl | member
    · exact .inl (by rw [placed.alive, arrived, Bool.or_true])
    · exact .inr ⟨e, member, by rwa [placed.arrival_of_ne (apart e member)]⟩

end Route

theorem types_condition
    (types : ∀ expected target, Tests ctx body target (jump expected target) stack) :
    Gives ctx body (condition jump) stack := by
  refine ⟨grows_condition fun expected target => (types expected target).grows,
    fun w a later valid _ slots h leads meets => ?_⟩
  simp only [condition, bind_returns, pure_returns] at h
  obtain ⟨otherwise, w1, run1, done, w2, run2, _, w3, run3, _, w4, run4, _, w5, run5, _, w6, run6, _,
    w7, run7, _, _, run8, rfl, rfl⟩ := h
  have one : Types ctx body [] (op .iconst1) stack fun _ => .int :: stack := types_push rfl rfl
  have zero : Types ctx body [] (op .iconst0) stack fun _ => .int :: stack := types_push rfl rfl
  have goes : Types ctx body [(done, ctx.note (.int :: stack))] (emit (.jump .goto done)) (.int :: stack)
      fun _ => .int :: stack :=
    @types_jump ctx body (.int :: stack) .goto done [] rfl rfl
  have start : Route ctx body w [] [] (ctx.note stack) (ctx.note stack) w := .refl valid (by simp) slots .nil
  have labels := (start.newLabel (ctx.note stack) run1).newLabel (ctx.note (.int :: stack)) run2
  have tested := (labels.perm (.swap ..)).step (types false otherwise) (by simp) run3
  have left := (tested.step one (by simp) run4).step goes (by simp) run5
  have dead := goto_dead run5
  have second := left.place (fun alive => absurd (dead.symm.trans alive) (by decide)) run6
  have last := (second.step zero (by simp) run7).place (fun _ => .refl _) run8
  exact last.goes leads meets

end Gen

open Gen (types_pure types_throw types_bind types_seq types_check types_ite types_guard types_then types_jump)

variable {op : BinaryOp} {codes : List ArgCode} {names : List String}

-- What the code of expressions rests on: types in sight are good ones, and more is known of the names where the
-- finished code is at hand.
structure Context.Supports (ctx : Context) (body : Option Body) (good : Descriptor → Prop) : Prop where
  formed : Body.Formed body
  typed : body.isSome = true → ctx.IsTyped
  plain : body.isSome = true → ∀ d, good d → d.Proper IsPlain
  proper : ∃ named, ∀ d, good d → d.Proper named
  closes : ctx.Closes (Descriptor.IsNullOr good)
  element : ∀ d e : Descriptor, good d → d.element? = some e → d = e.arrayOf ∧ good e
  method : ∀ m, ctx.program.HasMethod m → ∀ p ∈ m.params, good p ∧ p ≠ voidArray
  constructor : ∀ owner types instantiates params,
    ctx.program.constructorFor owner types instantiates = .ok params →
    (∀ p ∈ params, good p ∧ p ≠ voidArray) ∨ params = types.map fun a => if a = .null then .object else a
  voidArray : good voidArray → body.isSome = true

theorem Context.Supports.of {ctx : Context} {body : Option Body} {good : Descriptor → Prop}
    (basis : ctx.Supports body good) : good .void ∧ good .object :=
  ⟨(basis.closes.ofPrimitive .void).resolve_left (by decide),
    (basis.closes.ofClass _ (by simp)).resolve_left (by decide)⟩

namespace ExprCode

variable {ctx : Context} {body : Option Body} {good : Descriptor → Prop} {stack : List Kind}

theorem types_skip {before : Label → Gen Unit} {after : Gen Unit} {target : Label}
    (first : ∀ skip, Gen.Tests ctx body skip (before skip) stack) (second : Gen.Tests ctx body target after stack) :
    Gen.Tests ctx body target (do
      let skip ← Gen.emit .newLabel
      before skip
      after
      Gen.emit (.place skip)) stack := by
  have grows (skip : Label) : Gen.Grows ctx.toSite [skip, target] (do before skip; after) :=
    moves_bind ((first skip).grows.more (by simp)) fun _ => second.grows.more (by simp)
  have whole := Gen.grows_skip grows
  simp only [bind_assoc] at whole
  refine ⟨whole, fun w a later valid ready slots h leads meets => ?_⟩
  simp only [bind_returns] at h
  obtain ⟨skip, w1, run1, _, w2, run2, _, w3, run3, run4⟩ := h
  have start : Gen.Route ctx body w [(target, ctx.note stack)] [] (ctx.note stack) (ctx.note stack) w :=
    .refl valid ready slots (by simp)
  have tested := (start.newLabel (ctx.note stack) run1).step (first skip) (by simp) run2
  have last := (tested.step second (by simp) run3).place (fun _ => .refl _) run4
  exact last.goes leads meets

structure Known (ctx : Context) (good : Descriptor → Prop) (code : ExprCode)
    (type : Option Descriptor → Except Cause Descriptor) : Prop where
  composed : ∃ names, code.Composed ctx names type
  sane : ∀ d, type none = .ok d → d.IsNullOr good

theorem Known.grows {code : ExprCode} {type : Option Descriptor → Except Cause Descriptor}
    (known : Known ctx good code type) : code.Grows ctx.toSite :=
  have ⟨_, composed⟩ := known.composed
  composed.grows

structure Types (ctx : Context) (body : Option Body) (good : Descriptor → Prop) (code : ExprCode)
    (type : Option Descriptor → Except Cause Descriptor) : Prop extends Known ctx good code type where
  value : ∀ expected stack, (∀ e ∈ expected, good e) → expected ≠ some voidArray →
    Gen.Gives ctx body (code.value expected) stack
  short : Gen.IsShort ctx body (code.value (some voidArray)) (type none)
  jump : ∀ expected target stack, Gen.Tests ctx body target (code.jump expected target) stack
  append : ∀ stack, Gen.Appends ctx body code.append stack

variable {type : Option Descriptor → Except Cause Descriptor} {left right inner : ExprCode}

theorem Types.free (types : inner.Types ctx body good type) : Gen.Gives ctx body (inner.value none) stack :=
  types.value none stack (by simp) (by simp)

theorem Types.at {exits : List (Label × Note)} (types : inner.Types ctx body good type) {d : Descriptor}
    (typed : type none = .ok d) :
    Gen.Types ctx body exits (inner.value none) stack fun _ => d.kind.pushed ++ stack := by
  refine types.free.more.congr fun w a later run => ?_
  have ⟨_, composed⟩ := types.composed
  have same : type none = .ok a := (composed.value none).returns run
  rw [typed] at same
  cases same
  rfl

section

variable (basis : ctx.Supports body good)
include basis

theorem Known.append (known : Known ctx good inner type)
    (types : ∀ stack, Gen.Gives ctx body (inner.value none) stack) :
    Gen.Appends ctx body (Gen.appendValue inner.value) stack :=
  have ⟨_, proper⟩ := basis.proper
  have ⟨_, composed⟩ := known.composed
  Gen.types_append basis.formed (fun _ d _ run =>
    (known.sane d ((composed.value none).returns run)).imp id (proper d)) types

theorem types_ofValue (known : Known ctx good (ofValue value) type)
    (types : ∀ expected stack, (∀ e ∈ expected, good e) → expected ≠ some voidArray →
      Gen.Gives ctx body (value expected) stack)
    (short : Gen.IsShort ctx body (value (some voidArray)) (type none)) : (ofValue value).Types ctx body good type where
  toKnown := known
  value := types
  short := short
  jump expected target stack := Gen.types_test (types none stack (by simp) (by simp)) expected target
  append _ := known.append basis fun stack => types none stack (by simp) (by simp)

theorem types_constantly {value : Gen Descriptor} (known : Known ctx good (ofValue fun _ => value) type)
    (types : ∀ stack, Gen.Gives ctx body value stack) : (ofValue fun _ => value).Types ctx body good type :=
  types_ofValue basis known (fun _ stack _ _ => types stack) (Gen.isShort_of_types types)

theorem types_parenthesized (types : inner.Types ctx body good type) :
    inner.parenthesized.Types ctx body good type where
  composed := types.composed.imp fun _ => composed_parenthesized
  sane := types.sane
  value := types.value
  short := types.short
  jump := types.jump
  append _ := types.toKnown.append basis fun _ => types.free

theorem types_ofJump (known : Known ctx good (binary.ofJump jump) type)
    (types : ∀ expected target stack, Gen.Tests ctx body target (jump expected target) stack) :
    (binary.ofJump jump).Types ctx body good type := by
  have value (stack : List Kind) : Gen.Gives ctx body (Gen.condition jump) stack :=
    Gen.types_condition fun expected target => types expected target stack
  exact { known with
    value := fun _ stack _ _ => value stack
    short := Gen.isShort_of_types value
    jump := types
    append := fun _ => known.append basis value }

end

theorem types_conjunction {type' : Option Descriptor → Except Cause Descriptor}
    (first : left.Types ctx body good type) (second : right.Types ctx body good type') (expected : Bool)
    (target : Label) : Gen.Tests ctx body target (conjunction left right expected target) stack := by
  refine types_ite (fun _ => ?_) fun _ => ?_
  · exact types_skip (fun skip => first.jump false skip stack) (second.jump true target stack)
  · exact types_seq (first.jump false target stack) <| second.jump false target stack

theorem types_disjunction {type' : Option Descriptor → Except Cause Descriptor}
    (first : left.Types ctx body good type) (second : right.Types ctx body good type') (expected : Bool)
    (target : Label) : Gen.Tests ctx body target (disjunction left right expected target) stack := by
  refine types_ite (fun _ => ?_) fun _ => ?_
  · exact types_seq (first.jump true target stack) <| second.jump true target stack
  · exact types_skip (fun skip => first.jump true skip stack) (second.jump false target stack)

theorem binaryResult_compared {l r : Descriptor} (compares : op.isComparison = true)
    (known : Descriptor.binaryResult op l r = .ok d) (notNumbers : l.promote? r = none) :
    l = .boolean ∧ r = .boolean ∨ l.kind = .reference ∧ r.kind = .reference := by
  have other : ¬ (l.isNumeric && r.isNumeric) = true := by
    intro numeric
    unfold Descriptor.promote? at notNumbers
    split_ifs at notNumbers
  have comparable : l.isComparable r = true := by
    unfold Descriptor.binaryResult at known
    split at known
    next found =>
      cases op <;> simp only [BinaryOp.isComparison, Bool.false_eq_true] at compares <;>
        simp only [Descriptor.binaryResult?] at found <;> split_ifs at found <;>
        assumption
    next => cases known
  simp only [Descriptor.isComparable, Bool.or_eq_true, Bool.and_eq_true, decide_eq_true_eq] at comparable
  rcases comparable with (numeric | booleans) | references
  · exact absurd (Bool.and_eq_true_iff.2 numeric) other
  · exact .inl booleans
  · exact .inr ⟨Descriptor.kind_of_isReferenceOrNull references.1, Descriptor.kind_of_isReferenceOrNull references.2⟩

theorem types_branch (condition : BinaryOp) (target : Label) :
    Gen.Types ctx body [(target, ctx.note stack)] (Gen.emit (.jump (.ifeq + condition.conditionOffset) target))
      (.int :: stack) fun _ => stack := by
  refine @types_jump ctx body stack _ target [.int] condition.isBranch_zero ?_
  cases condition <;> rfl

theorem types_branchPair (condition : BinaryOp) (target : Label) :
    Gen.Types ctx body [(target, ctx.note stack)]
      (Gen.emit (.jump (.ifIcmpeq + condition.conditionOffset) target)) (.int :: .int :: stack)
      fun _ => stack := by
  refine @types_jump ctx body stack _ target [.int, .int] condition.isBranch_pair ?_
  cases condition <;> rfl

section

variable {type' : Option Descriptor → Except Cause Descriptor} (first : left.Types ctx body good type)
  (second : right.Types ctx body good type') {l r : Descriptor} (typed : type none = .ok l)
  (typed' : type' none = .ok r)
include first second typed typed'

theorem types_compareNumbers (op condition : BinaryOp) (promoted : l.promote? r = some d) (target : Label) :
    Gen.Tests ctx body target (compareNumbers op condition left right l r d target) stack := by
  refine types_bind (first.at typed) fun _ _ _ _ => types_seq (Gen.types_widen l d) ?_
  refine types_bind (second.at typed') fun _ _ _ _ => types_seq (Gen.types_widen r d) ?_
  have wide {kind : Kind} (kinds : (op.compareOpcode kind).kindEffect? = some ([kind, kind], [.int])) :
      Gen.Types ctx body [(target, ctx.note stack)] (do
        Gen.op (op.compareOpcode kind)
        Gen.emit (.jump (.ifeq + condition.conditionOffset) target)) (kind :: kind :: stack) fun _ => stack :=
    types_seq (Gen.types_join (Opcode.bare_of_isQuiet (op.isQuiet_compareOpcode kind)).1 kinds) <|
      types_branch condition target
  rcases Descriptor.promote_cases promoted with rfl | rfl | rfl | rfl
  · exact wide (by cases op <;> rfl)
  · exact wide (by cases op <;> rfl)
  · exact wide (by cases op <;> rfl)
  · exact types_branchPair condition target

theorem types_compareReferences (isEqual : Bool) (kind : l.kind = .reference) (kind' : r.kind = .reference)
    (target : Label) : Gen.Tests ctx body target (compareReferences isEqual left right l r target) stack := by
  have value {exits : List (Label × Note)} {stack : List Kind} :
      Gen.Types ctx body exits (left.value none) stack fun _ => .reference :: stack := by
    have value := @Types.at _ _ _ stack _ _ exits first _ typed
    rw [kind] at value
    exact value
  have value' {exits : List (Label × Note)} {stack : List Kind} :
      Gen.Types ctx body exits (right.value none) stack fun _ => .reference :: stack := by
    have value := @Types.at _ _ _ stack _ _ exits second _ typed'
    rw [kind'] at value
    exact value
  refine types_ite (fun _ => ?_) fun _ => ?_
  · have either {exits : List (Label × Note)} :
        Gen.Types ctx body exits ((if r = .null then left else right).value none) stack
          fun _ => .reference :: stack := by
      split_ifs
      · exact value
      · exact value'
    refine types_bind either fun _ _ _ _ => ?_
    cases isEqual
    · exact @types_jump ctx body stack .ifnonnull target [.reference] rfl rfl
    · exact @types_jump ctx body stack .ifnull target [.reference] rfl rfl
  · refine types_bind value fun _ _ _ _ => types_bind value' fun _ _ _ _ => ?_
    cases isEqual
    · exact @types_jump ctx body stack .ifAcmpne target [.reference, .reference] rfl rfl
    · exact @types_jump ctx body stack .ifAcmpeq target [.reference, .reference] rfl rfl

end

section

variable {leftTree rightTree : Expr} (first : left.Types ctx body good fun expected => leftTree.typeIn ctx expected)
  (second : right.Types ctx body good fun expected => rightTree.typeIn ctx expected)
include first second

theorem types_compare (compares : op.isComparison = true) (expected : Bool) (target : Label) :
    Gen.Tests ctx body target (compare ctx op leftTree rightTree left right expected target) stack := by
  refine types_check fun l typed => types_check fun r typed' => types_check fun d known => ?_
  dsimp only
  split
  next type promoted =>
    refine types_ite (fun isZero => ?_) fun _ => types_compareNumbers first second typed typed' _ _ promoted target
    have kinds := Descriptor.kind_of_promote_int (isZero.1 ▸ promoted)
    refine types_bind (first.at typed) fun _ _ _ _ => ?_
    rw [kinds.1]
    exact types_branch _ target
  next notNumbers =>
    have compared := binaryResult_compared compares known notNumbers
    refine types_ite (fun isBoolean => ?_) fun notBoolean => ?_
    · have isBoolean' : r.kind = .int := by
        rcases compared with ⟨-, rfl⟩ | ⟨kind, -⟩
        · rfl
        · rw [isBoolean] at kind
          cases kind
      refine types_bind (first.at typed) fun _ _ _ _ => types_bind (second.at typed') fun _ _ _ _ => ?_
      rw [isBoolean, isBoolean']
      exact types_branchPair _ target
    · obtain ⟨kind, kind'⟩ := compared.resolve_left fun booleans => notBoolean booleans.1
      exact types_compareReferences first second typed typed' _ kind kind' target

theorem types_arithmetic (basis : ctx.Supports body good)
    (computes : ¬ op.isComparison = true) (notAnd : op ≠ .and) (notOr : op ≠ .or) :
    Gen.Gives ctx body (arithmetic ctx op leftTree rightTree left right) stack := by
  refine types_check fun l typed => types_check fun r typed' => types_check fun type known => ?_
  refine types_ite (fun _ => ?_) fun notString => ?_
  · exact Gen.types_concatenate basis.formed fun stack =>
      types_seq (first.append stack) <| second.append stack
  have computes := Descriptor.binaryResult_computes computes notAnd notOr known
  have bare := (Opcode.bare_of_isQuiet (BinaryOp.isQuiet_opcode computes notString)).1
  have join {left right : Kind}
      (kinds : (op.opcode.ofFamily type.kind).kindEffect? = some ([right, left], type.kind.pushed))
      (value : type.kind ≠ .void) :
      Gen.Types ctx body [] (do Gen.op (op.opcode.ofFamily type.kind); return type) (right :: left :: stack)
        fun d => d.kind.pushed ++ stack := by
    rw [Kind.pushed_of_ne value] at kinds
    refine types_seq (Gen.types_join bare kinds) <| types_pure _ ?_
    rw [Kind.pushed_of_ne value]
    rfl
  refine types_bind (first.at typed) fun _ _ _ _ => types_seq (Gen.types_widen l type) ?_
  refine types_bind (second.at typed') fun _ _ _ _ => types_ite (fun isShift => ?_) fun notShift => ?_
  · cases computes with
    | shift family integral integral' promoted =>
      have last :
          Gen.Types ctx body [] (do Gen.op (op.opcode.ofFamily type.kind); return type)
            (.int :: (type.kind.pushed ++ stack)) fun d => d.kind.pushed ++ stack := by
        fin_cases family <;>
          rcases Descriptor.promote_integral integral integral promoted with rfl | rfl <;>
          exact join rfl (by decide)
      refine types_ite (fun isLong => ?_) fun notLong => ?_
      · rw [isLong]
        exact types_seq (Gen.types_turn rfl rfl) last
      · rw [(Descriptor.kind_of_isIntegral integral').resolve_left notLong]
        exact last
    | concatenation => exact absurd rfl notString
    | arithmetic family | logic family | bits family => fin_cases family <;> cases isShift
  · refine types_seq (Gen.types_widen r type) ?_
    cases computes with
    | concatenation => exact absurd rfl notString
    | arithmetic family promoted =>
      fin_cases family <;> rcases Descriptor.promote_cases promoted with rfl | rfl | rfl | rfl <;>
        exact join rfl (by decide)
    | logic family => fin_cases family <;> exact join rfl (by decide)
    | bits family integral integral' promoted =>
      fin_cases family <;>
        rcases Descriptor.promote_integral integral integral' promoted with rfl | rfl <;>
        exact join rfl (by decide)
    | shift family => fin_cases family <;> exact absurd rfl notShift

theorem types_binary (basis : ctx.Supports body good)
    (known : Known ctx good (binary ctx op leftTree rightTree left right) type) :
    (binary ctx op leftTree rightTree left right).Types ctx body good type := by
  unfold binary at known ⊢
  split_ifs at known ⊢ with isAnd isOr compares
  · exact types_ofJump basis known fun expected target stack => types_conjunction first second expected target
  · exact types_ofJump basis known fun expected target stack => types_disjunction first second expected target
  · exact types_ofJump basis known fun expected target stack => types_compare first second compares expected target
  · have value (stack : List Kind) : Gen.Gives ctx body (arithmetic ctx op leftTree rightTree left right) stack :=
      types_arithmetic first second basis compares isAnd isOr
    refine { known with
      value := fun _ stack _ _ => value stack
      short := Gen.isShort_of_types value
      jump := fun expected target stack =>
        @Gen.types_test ctx body stack (fun _ => arithmetic ctx op leftTree rightTree left right) (value stack)
          expected target
      append := fun stack => ?_ }
    refine types_check fun l _ => types_check fun r _ => types_check fun d _ => types_ite (fun _ => ?_) fun _ => ?_
    · exact types_seq (first.append stack) <| second.append stack
    · exact known.append basis value

end

theorem types_literal (basis : ctx.Supports body good) {t : Token}
    (known : Known ctx good (literal t) type) : (literal t).Types ctx body good type := by
  have value (stack : List Kind) : Gen.Gives ctx body (Gen.literal false t) stack :=
    Gen.types_literal false t
  unfold literal at known ⊢
  split_ifs at known ⊢ with isTruth
  · refine { known with
      value := fun _ stack _ _ => value stack
      short := Gen.isShort_of_types value
      jump := fun expected target stack => types_ite (fun _ => ?_) fun _ => types_pure () rfl
      append := fun _ => known.append basis value }
    exact @types_jump ctx body stack .goto target [] rfl rfl
  · exact types_constantly basis known value

theorem types_underUnary (basis : ctx.Supports body good) {atom : Atom} {operator : UnaryOp}
    {type' : Option Descriptor → Except Cause Descriptor} (types : inner.Types ctx body good type')
    (known : Known ctx good (underUnary atom operator inner) type) :
    (underUnary atom operator inner).Types ctx body good type := by
  have value (expected : Option Descriptor) (stack : List Kind)
      (proper : expected ≠ some voidArray → ∀ e ∈ expected, good e) :
      Gen.Gives ctx body ((underUnary atom operator inner).value expected) stack := by
    rcases isNegated_or atom operator with ⟨t, rfl, rfl⟩ | other
    · exact Gen.types_literal true t
    rw [underUnary_value other]
    by_cases isVoid : expected = some voidArray
    · -- No operator is applied to an array.
      rw [isVoid]
      refine Gen.types_after (types.grows.value _) types.short (fun _ d _ _ => Gen.types_unary operator d)
        fun _ w mid r later _ _ _ run => ?_
      have none : (voidArray.unaryResult operator).toOption = none := by cases operator <;> decide
      rw [(@Gen.made_unary ctx [] operator voidArray).returns run] at none
      cases none
    · exact types_bind (types.value expected stack (proper isVoid) isVoid) fun _ d _ _ => Gen.types_unary operator d
  cases operator
  case not =>
    exact { known with
      value := fun expected stack proper _ => value expected stack fun _ => proper
      short := Gen.isShort_of_types fun stack => value _ stack fun other => absurd rfl other
      jump := fun expected target stack => types.jump (!expected) target stack
      append := fun _ => known.append basis fun stack => value none stack (by simp) }
  all_goals
    exact types_ofValue basis known (fun expected stack proper _ => value expected stack fun _ => proper)
      (Gen.isShort_of_types fun stack => value _ stack fun other => absurd rfl other)

theorem types_cast (basis : ctx.Supports body good) {target : TypeName}
    {type' : Option Descriptor → Except Cause Descriptor} (types : inner.Types ctx body good type')
    (known : Known ctx good (cast ctx target inner) type) : (cast ctx target inner).Types ctx body good type := by
  refine types_constantly basis known fun stack => types_check fun d _ => types_bind types.free fun _ found _ _ => ?_
  have last : Gen.Types ctx body [] (pure d) (d.kind.pushed ++ stack) fun d => d.kind.pushed ++ stack :=
    types_pure d rfl
  refine types_ite (fun _ => ?_) fun isReference => ?_
  · split
    next opcodes casts => exact types_seq (Gen.types_ops (Descriptor.converts_cast casts)) last
    next => exact types_seq (types_throw _) last
  have kind : d.kind = .reference := Descriptor.kind_of_isReference (not_not.1 isReference)
  refine types_ite (fun isReference' => ?_) fun _ => types_guard fun isNull => ?_
  · rw [Descriptor.kind_of_isReference isReference']
    split
    next => exact types_pure d (by rw [kind])
    next =>
      refine types_then (Gen.types_class rfl (by decide) rfl rfl) ?_
      exact types_pure d (by rw [kind]; rfl)
  · rw [not_ne_iff.1 isNull]
    exact types_pure d (by rw [kind]; rfl)

theorem types_elements (proper : e.Proper named) (value : e ≠ .void)
    (each : ∀ code ∈ codes, ∀ stack, Gen.Types ctx body [] (code e) stack fun _ => e.kind.pushed ++ stack)
    (position : Nat) : Gen.Appends ctx body (elements e position codes) stack := by
  obtain ⟨hasKind, kinds⟩ := Descriptor.arrayStore_kinds proper value
  have store : Gen.Types ctx body [] (Gen.op e.arrayStore) (e.kind.pushed ++ .int :: .reference :: .reference :: stack)
      fun _ => .reference :: stack := by
    obtain ⟨bare, notThrow⟩ := Opcode.bare_of_isQuiet e.isQuiet_arrayStore
    rw [Kind.pushed_of_ne hasKind]
    exact @Gen.types_op ctx body [] _ _ _ (.reference :: stack) bare notThrow kinds
  induction codes generalizing position with
  | nil => exact types_pure () rfl
  | cons code rest ih =>
    obtain ⟨first, each⟩ := List.forall_mem_cons.1 each
    refine types_seq (Gen.types_dup rfl) <| types_seq (Gen.types_pushInt _) ?_
    exact types_seq (first _) <| types_seq store <| ih each (position + 1)

theorem meets_slots (alive : w.code.alive = true) (peak : w.code.depth ≤ w.code.maxDepth) (laid : w.code.IsLaid) :
    w.Meets (ctx.note (.replicate w.code.depth .int)) := by
  have width : (ctx.note (.replicate w.code.depth .int)).width = w.code.depth := by
    simp [Note.width, Context.note, Kind.widths, Kind.width]
  exact ⟨alive, width.symm, by rwa [width], laid⟩

theorem op_counts {opcode : Opcode} {pops pushes : Nat} (known : opcode.stackEffect? = some (pops, pushes))
    (goesOn : opcode.goesOn = true) {w later : Workspace} {u : Unit} (h : Gen.op opcode w = .ok u later)
    (alive : w.code.alive = true) (peak : w.code.depth ≤ w.code.maxDepth) :
    later.code.alive = true ∧ later.code.depth ≤ later.code.maxDepth ∧ pops ≤ w.code.depth ∧
      later.code.depth = w.code.depth - pops + pushes := by
  obtain ⟨code, run, rfl⟩ := Gen.emit_returns.1 h
  have writes := (Emit.op_written known run).writes alive
  exact ⟨by rw [writes.ends, Item.endsPath_of_goesOn goesOn]; rfl, writes.peak peak, writes.enough, writes.depth⟩

theorem elements_void (composed : ArgsComposed ctx names codes)
    (each : ∀ code ∈ codes, ∀ stack, Gen.Types ctx body [] (code .void) stack fun _ => stack) {position : Nat}
    {later : Workspace} (valid : w.pool.Valid) (laid : w.code.IsLaid) (slots : w.slots = ctx.slots)
    (alive : w.code.alive = true) (peak : w.code.depth ≤ w.code.maxDepth)
    (h : elements .void position codes w = .ok () later) (leads : later.Leads body) :
    later.code.alive = true ∧ later.code.depth + codes.length = w.code.depth := by
  induction codes generalizing w position names with
  | nil =>
    obtain ⟨-, rfl⟩ := pure_returns.1 h
    exact ⟨alive, rfl⟩
  | cons code rest ih =>
    obtain ⟨first, each⟩ := List.forall_mem_cons.1 each
    simp only [elements, bind_returns] at h
    obtain ⟨_, w1, run1, _, w2, run2, _, w3, run3, _, w4, run4, h⟩ := h
    have copy : Piece ctx.toSite [] w w1 := (Gen.grows_op rfl).piece valid (by simp) run1
    have index : Piece ctx.toSite [] w1 w2 := (Gen.grows_pushInt _).piece copy.valid_after (by simp) run2
    have inner : Piece ctx.toSite [] w2 w3 := (first []).grows.piece index.valid_after (by simp) run3
    have store : Piece ctx.toSite [] w3 w4 := (Gen.grows_op rfl).piece inner.valid_after (by simp) run4
    obtain _ | ⟨-, composed⟩ := composed
    have others : Piece ctx.toSite [] w4 later := (made_elements composed _ _).grows.piece store.valid_after (by simp) h
    have leads3 := store.back (others.back leads)
    have slots1 := copy.slots.trans slots
    have slots2 := index.slots.trans slots1
    obtain ⟨alive1, peak1, enough, depth1⟩ := @op_counts .dup 1 2 rfl rfl _ _ _ run1 alive peak
    have meets2 := ((Gen.types_pushInt position).goesOn index.valid slots1 run2 (inner.back leads3)
      (meets_slots alive1 peak1 (copy.passed.laid laid))).2
    have peak2 : w2.code.depth ≤ w2.code.maxDepth := meets2.depth ▸ meets2.peak
    have meets3 := ((first _).goesOn inner.valid slots2 run3 leads3 (meets_slots meets2.alive peak2 meets2.laid)).2
    have peak3 : w3.code.depth ≤ w3.code.maxDepth := meets3.depth ▸ meets3.peak
    obtain ⟨alive4, peak4, enough', depth4⟩ := @op_counts .aastore 3 0 rfl rfl _ _ _ run4 meets3.alive peak3
    obtain ⟨last, count⟩ := ih composed each others.valid (store.passed.laid meets3.laid)
      (store.slots.trans (inner.slots.trans slots2)) alive4
      peak4 h
    have depth2 : w2.code.depth = w1.code.depth + 1 := by
      rw [meets2.depth]
      simp [Note.width, Context.note, Kind.widths, Kind.width, Nat.add_comm]
    have depth3 : w3.code.depth = w2.code.depth := by
      rw [meets3.depth]
      simp [Note.width, Context.note, Kind.widths, Kind.width]
    rw [List.length_cons]
    exact ⟨last, by omega⟩

theorem types_filled {e : Descriptor} {codes : List ArgCode}
    (filled : Gen.Appends ctx body (elements e 0 codes) stack) :
    Gen.Gives ctx body (do
      Gen.pushInt codes.length
      match e.newArrayCode? with
      | some code => Gen.emit (.opByte .newarray code)
      | none =>
        let index ← Gen.pooled (.classRef (e.className?.getD e.text))
        Gen.emit (.opWord .anewarray index)
      elements e 0 codes
      return e.arrayOf) stack := by
  have last : Gen.Types ctx body [] (do elements e 0 codes; return e.arrayOf) (.reference :: stack)
      fun d => d.kind.pushed ++ stack :=
    types_seq filled <| types_pure _ (by rw [Descriptor.kind_arrayOf]; rfl)
  refine types_seq (Gen.types_pushInt _) ?_
  split
  next code _ =>
    refine types_seq ?_ last
    exact @Gen.types_fixed ctx body [] .newarray [code] [.int] [.reference] stack rfl (by decide) rfl rfl
  next =>
    exact types_then (@Gen.types_class ctx body [] stack .anewarray _ [.int] [.reference] rfl (by decide) rfl rfl) last

theorem isShort_array (composed : ArgsComposed ctx names codes)
    (each : ∀ code ∈ codes, ∀ stack, Gen.Types ctx body [] (code .void) stack fun _ => stack)
    (asked : type (some voidArray) = .ok voidArray) (other : type none ≠ .ok voidArray) :
    Gen.IsShort ctx body ((array type codes).value (some voidArray)) (type none) := by
  intro stack w d later valid slots h leads meets
  cases codes with
  | nil =>
    have types : Gen.Gives ctx body ((array type []).value (some voidArray)) stack := by
      refine types_check fun d typed => ?_
      cases asked.symm.trans typed
      exact @types_filled ctx body stack .void [] (types_pure () rfl)
    exact .inl (types.goesOn valid slots h leads meets)
  | cons code rest =>
    have element : voidArray.element?.getD voidArray = .void := rfl
    have code? : Descriptor.newArrayCode? .void = none := rfl
    simp only [array, ofValue, bind_returns, Gen.check_returns, asked] at h
    obtain ⟨_, _, ⟨⟨⟩, rfl⟩, h⟩ := h
    simp only [element, code?, bind_returns, pure_returns] at h
    obtain ⟨_, w1, run1, index, w2, run2, _, w3, run3, _, _, run4, rfl, rfl⟩ := h
    have class_run : (do Gen.emit (.opWord .anewarray (← Gen.pooled (.classRef _)))) w1 = .ok () w3 :=
      bind_returns.2 ⟨index, w2, run2, run3⟩
    have made : Gen.Types ctx body [] (do
        Gen.emit (.opWord .anewarray (← Gen.pooled (.classRef (Descriptor.void.className?.getD Descriptor.void.text)))))
        (.int :: stack) fun _ => .reference :: stack :=
      @Gen.types_class ctx body [] stack .anewarray _ [.int] [.reference] rfl (by decide) rfl rfl
    have count : Piece ctx.toSite [] w w1 := (Gen.grows_pushInt _).piece valid (by simp) run1
    have array : Piece ctx.toSite [] w1 w3 := made.grows.piece count.valid_after (by simp) class_run
    have others : Piece ctx.toSite [] w3 _ := (made_elements composed _ _).grows.piece array.valid_after (by simp) run4
    have leads3 := others.back leads
    have meets1 := ((Gen.types_pushInt _).goesOn valid slots run1 (array.back leads3) meets).2
    have meets3 := (made.goesOn array.valid (count.slots.trans slots) class_run leads3 meets1).2
    obtain ⟨alive, depth⟩ := elements_void composed each others.valid meets3.laid
      (array.slots.trans (count.slots.trans slots)) meets3.alive (meets3.depth ▸ meets3.peak) run4 leads
    have depth3 : w3.code.depth = w.code.depth + 1 := by
      rw [meets3.depth, meets.depth]
      simp [Note.width, Context.note, Kind.widths, Kind.width, Nat.add_comm]
    rw [List.length_cons] at depth
    exact .inr ⟨other, rfl, alive, by omega⟩

theorem types_array (basis : ctx.Supports body good)
    (known : Known ctx good (array type codes) type) (composed : ArgsComposed ctx names codes)
    (arrays : ∀ (expected : Option Descriptor) (d : Descriptor), (∀ e ∈ expected, good e) →
      type expected = .ok d →
      ∃ e : Descriptor, d = e.arrayOf ∧ good e ∧ (e = .void → expected = some voidArray))
    (asked : type (some voidArray) = .ok voidArray)
    (each : ∀ code ∈ codes, ∀ (e : Descriptor) stack, good e → e ≠ voidArray →
      Gen.Types ctx body [] (code e) stack fun _ => e.kind.pushed ++ stack) :
    (array type codes).Types ctx body good type := by
  refine types_ofValue basis known (fun expected stack proper other => types_check fun d typed => ?_) ?_
  · obtain ⟨e, rfl, proper', isVoid⟩ := arrays expected d proper typed
    have value : e ≠ .void := fun same => other (isVoid same)
    simp only [Descriptor.element_arrayOf, Option.getD_some]
    by_cases isVoid : e = voidArray
    · subst isVoid
      refine types_seq (Gen.types_pushInt _) ?_
      exact Gen.types_unformed basis.formed (basis.voidArray proper') (by decide) (by decide) fun _ =>
        moves_bind (made_elements composed _ _).grows fun _ => moves_pure _
    · obtain ⟨named, proper⟩ := basis.proper
      exact types_filled (types_elements (proper e proper') value
        (fun code member stack => each code member e stack proper' isVoid) 0)
  · refine isShort_array composed (fun code member stack => ?_) asked fun typed => ?_
    · exact each code member .void stack basis.of.1 (by decide)
    · obtain ⟨e, same, -, isVoid⟩ := arrays none voidArray (by simp) typed
      cases isVoid (Descriptor.arrayOf_inj same).symm

end ExprCode

def ArgCode.Types (ctx : Context) (body : Option Body) (good : Descriptor → Prop) (code : ArgCode)
    (tree : Expr) : Prop :=
  ∀ (expected : Descriptor) stack, good expected →
    (expected = voidArray → tree.typeIn ctx none = .ok voidArray) →
    Gen.Types ctx body [] (code expected) stack fun _ => expected.kind.pushed ++ stack

def Expr.Suits (ctx : Context) (good : Descriptor → Prop) (tree : Expr) (param : Descriptor) : Prop :=
  good param ∧ (param = voidArray → tree.typeIn ctx none = .ok voidArray)

variable {trees : List Expr} {types : List Descriptor} {params : List Descriptor} {base : Option Referent}
  {links : List Call}

section

variable {ctx : Context} {body : Option Body} {good : Descriptor → Prop} {stack : List Kind}

theorem Descriptor.holds_int {value : Int} (h : d.holds value = true) : d.kind = .int := by
  unfold holds at h
  split_ifs at h with isByte isShort isChar
  · rw [isByte]
    rfl
  · rw [isShort]
    rfl
  · rw [isChar]
    rfl

theorem ExprCode.types_valueAs {tree : Expr} {inner : ExprCode} (program : Program)
    (types : inner.Types ctx body good fun expected => tree.typeIn ctx expected) :
    ArgCode.Types ctx body good (valueAs program tree inner) tree := by
  intro expected stack proper own
  unfold valueAs
  split
  next value held =>
    rw [Descriptor.holds_int (Option.filter_eq_some_iff.1 held).2]
    exact Gen.types_pushInt value
  next =>
    by_cases isVoid : expected = voidArray
    · subst isVoid
      exact Gen.types_after (types.grows.value _) types.short
        (fun _ found _ _ => Gen.types_coerce program found voidArray) fun other => absurd (own rfl) other
    · exact types_bind (types.value (some expected) stack (by simpa using proper) (by simpa using isVoid))
        fun _ found _ _ => Gen.types_coerce program found expected

theorem ArgCode.types_all {codes : List ArgCode} {trees : List Expr} {params : List Descriptor}
    (each : List.Forall₂ (ArgCode.Types ctx body good) codes trees)
    (suit : List.Forall₂ (Expr.Suits ctx good) trees params) :
    Gen.Types ctx body [] (ArgCode.all codes params) stack fun _ => Descriptor.kinds params.reverse ++ stack := by
  induction suit generalizing codes stack with
  | nil =>
    cases each
    exact types_pure () rfl
  | @cons tree param trees params suits _ ih =>
    cases each with
    | cons first rest =>
      refine types_seq (first param stack suits.1 suits.2) ?_
      have kinds : Descriptor.kinds (param :: params).reverse ++ stack =
          Descriptor.kinds params.reverse ++ (param.kind.pushed ++ stack) := by
        simp [Descriptor.kinds]
      rw [kinds]
      exact ih rest

theorem Expr.suits_of_good (known : ∀ p ∈ params, good p ∧ p ≠ voidArray)
    (same : params.length = trees.length) : List.Forall₂ (Expr.Suits ctx good) trees params := by
  refine List.forall₂_iff_get.2 ⟨same.symm, fun i _ within => ?_⟩
  have known := known _ (List.get_mem params ⟨i, within⟩)
  exact ⟨known.1, fun isVoid => absurd isVoid known.2⟩

theorem Expr.typesIn_each (h : Expr.typesIn ctx trees = .ok types) :
    List.Forall₂ (fun tree d => tree.typeIn ctx none = .ok d) trees types := by
  induction trees generalizing types with
  | nil =>
    rw [Expr.typesIn] at h
    cases h
    exact .nil
  | cons tree rest ih =>
    rw [Expr.typesIn] at h
    simp only [bind_eq_ok, pure_eq_ok] at h
    obtain ⟨d, typed, ds, more, rfl⟩ := h
    exact .cons typed (ih more)

theorem Expr.suits_self (basis : ctx.Supports body good) (sane : ∀ d ∈ types, d.IsNullOr good)
    (h : Expr.typesIn ctx trees = .ok types) :
    List.Forall₂ (Expr.Suits ctx good) trees (types.map fun a => if a = .null then .object else a) := by
  have each := Expr.typesIn_each h
  clear h
  induction each with
  | nil => exact .nil
  | @cons tree d trees types known _ ih =>
    obtain ⟨own, sane⟩ := List.forall_mem_cons.1 sane
    refine .cons ?_ (ih sane)
    dsimp only
    split_ifs with isNull
    · exact ⟨basis.of.2, fun isVoid => absurd isVoid (by decide)⟩
    · exact ⟨own.resolve_left isNull, fun isVoid => isVoid ▸ known⟩

theorem Expr.suits_constructor (basis : ctx.Supports body good)
    {owner : String} {instantiates : Bool} (casts : ctx.Casts (Descriptor.IsNullOr good) (Expr.allCasts trees))
    (told : Expr.typesIn ctx trees = .ok types)
    (found : ctx.program.constructorFor owner types instantiates = .ok params) :
    List.Forall₂ (Expr.Suits ctx good) trees params ∧ ∀ p ∈ params, good p := by
  have suit : List.Forall₂ (Expr.Suits ctx good) trees params := by
    rcases basis.constructor _ _ _ _ found with known | rfl
    · obtain ⟨-, length, -⟩ := Program.constructorFor_found found
      exact Expr.suits_of_good known (length.trans (Expr.typesIn_each told).length_eq.symm)
    · exact Expr.suits_self basis (Expr.typesIn_closed basis.closes casts told) told
  refine ⟨suit, fun p member => ?_⟩
  obtain ⟨i, within, rfl⟩ := List.getElem_of_mem member
  exact (suit.get (by rw [suit.length_eq]; exact within) within).1

namespace ExprCode

variable {type : Option Descriptor → Except Cause Descriptor}

theorem types_create (basis : ctx.Supports body good) {className : String} {arguments : List Expr}
    (casts : ctx.Casts (Descriptor.IsNullOr good) (Expr.allCasts arguments))
    (each : List.Forall₂ (ArgCode.Types ctx body good) codes arguments)
    (known : Known ctx good (create ctx className arguments codes) type) :
    (create ctx className arguments codes).Types ctx body good type := by
  refine types_constantly basis known fun stack => types_check fun d _ => ?_
  split
  next => exact types_throw _
  next owner _ =>
    refine types_check fun types told => types_check fun params found => ?_
    obtain ⟨has, -, can⟩ := Program.constructorFor_found found
    obtain ⟨suit, proper⟩ := Expr.suits_constructor basis casts told found
    refine types_then (Gen.types_new (.inr (can rfl))) (types_seq (Gen.types_dup rfl) ?_)
    refine types_seq (ArgCode.types_all each suit) ?_
    refine types_seq (Gen.types_construct basis.formed has fun done p among =>
      basis.plain done p (proper p among)) <| types_pure _ ?_
    rw [Descriptor.kind_ofClass]
    rfl

theorem returns_last (m : MethodTarget) (others : List MethodTarget) (d : Descriptor) :
    ((m :: others).getLast?.map (·.returns)).getD d = (others.getLast?.map (·.returns)).getD m.returns := by
  rw [List.getLast?_cons]
  cases others.getLast? <;> rfl

def LinkTypes (ctx : Context) (body : Option Body) (good : Descriptor → Prop) (codes : List ArgCode) : Call → Prop
  | .call _ arguments => List.Forall₂ (ArgCode.Types ctx body good) codes arguments

theorem types_callArguments (basis : ctx.Supports body good) {base : Option Referent} {previous : Option Descriptor}
    {name : String} {arguments : List Expr} {types : List Descriptor} {m : MethodTarget} {codes : List ArgCode}
    (each : List.Forall₂ (ArgCode.Types ctx body good) codes arguments)
    (told : Expr.typesIn ctx arguments = .ok types) (found : ctx.linkMethod base previous name types = .ok m) :
    Gen.Types ctx body [] (ArgCode.all codes m.params) stack fun _ => Descriptor.kinds m.params.reverse ++ stack := by
  obtain ⟨may, length⟩ := Context.linkMethod_mayCall found
  refine ArgCode.types_all each (Expr.suits_of_good (basis.method m may.has) ?_)
  exact length.trans (Expr.typesIn_each told).length_eq.symm

theorem types_laterCalls (basis : ctx.Supports body good) {codes : List (List ArgCode)}
    (each : List.Forall₂ (LinkTypes ctx body good) codes links) {previous : Descriptor} {methods : List MethodTarget}
    (found : Call.methodsIn ctx base (some previous) links = .ok methods) :
    Gen.Types ctx body [] (laterCalls (codes.zip methods)) (previous.kind.pushed ++ stack)
      fun _ => ((methods.getLast?.map (·.returns)).getD previous).kind.pushed ++ stack := by
  induction each generalizing previous methods with
  | nil =>
    rw [Call.methodsIn] at found
    cases found
    exact types_pure () rfl
  | @cons args link codes links first _ ih =>
    obtain ⟨name, arguments⟩ := link
    obtain ⟨types, m, others, told, here, next, rfl⟩ := Call.methodsIn_cons.1 found
    obtain ⟨owner, isObject, -⟩ := Context.nextMethod_returns here
    have may := (Context.linkMethod_mayCall here).1
    rw [Descriptor.kind_of_className isObject, returns_last]
    have rest {stack : List Kind} := @types_callArguments ctx body good stack basis _ _ _ _ _ _ _ first told here
    have calls : Gen.Types ctx body [] (do
        ArgCode.all args m.params
        Gen.invoke m
        laterCalls (codes.zip others)) ((if m.isStatic then [] else [.reference]) ++ stack)
        fun _ => ((others.getLast?.map (·.returns)).getD m.returns).kind.pushed ++ stack :=
      types_seq rest <| types_seq (Gen.types_invokeTarget basis.formed may) <| ih next
    refine types_ite (fun isStatic => ?_) fun isInstance => ?_
    · rw [if_pos isStatic] at calls
      exact types_seq (Gen.types_pop (.inl ⟨rfl, rfl⟩)) calls
    · rw [if_neg isInstance] at calls
      exact calls

theorem types_receiver (typed : body.isSome = true → ctx.IsTyped)
    {root : String} {m : MethodTarget} (reached : ∀ p, base = some (.value p) → ctx.Reaches root p)
    (found : ctx.firstMethod base name types = .ok m) :
    Gen.Types ctx body [] (receiver base m) stack fun _ => (if m.isStatic then [] else [.reference]) ++ stack := by
  obtain ⟨⟨owner, inClass, -⟩, static⟩ := Context.firstMethod_returns found
  refine types_ite (fun isStatic => types_pure _ (by rw [if_pos isStatic]; rfl)) fun isInstance => ?_
  simp only [if_neg isInstance]
  split
  next =>
    have own : ctx.isStatic = false := by
      by_contra inStatic
      exact isInstance (static (by simpa [Context.needsStatic] using inStatic))
    have place := @Gen.types_place ctx body [] stack typed "this" .this (.this own (.inl rfl))
    rw [Context.descriptorOf, Descriptor.kind_ofClass] at place
    exact place
  next p =>
    have place := @Gen.types_place ctx body [] stack typed root p (reached p rfl)
    simp only [Context.headClass, Context.receiverClass] at inClass
    split at inClass
    next isClass =>
      rw [Descriptor.kind_of_className isClass] at place
      exact place
    next => cases inClass
  next => exact absurd (static rfl) isInstance

theorem types_load (basis : ctx.Supports body good) {head : Head}
    {codes : List (List ArgCode)} (each : List.Forall₂ (LinkTypes ctx body good) codes links)
    (known : Known ctx good (load ctx head links codes) type) :
    (load ctx head links codes).Types ctx body good type := by
  refine types_constantly basis known fun stack => types_check fun base resolved => ?_
  have reached (p : Place) (h : base = some (.value p)) : ctx.Reaches head.root p :=
    Context.resolveHead_reached (h ▸ resolved)
  cases each with
  | nil =>
    dsimp only
    split
    next p => exact types_seq (Gen.types_place basis.typed (reached p rfl)) <| types_pure _ rfl
    next => exact types_throw _
  | @cons args link codes links first rest =>
    refine types_check fun methods found => ?_
    obtain ⟨name, arguments⟩ := link
    obtain ⟨types, m, others, told, here, next, rfl⟩ := Call.methodsIn_cons.1 found
    have may := (Context.linkMethod_mayCall here).1
    have chain : Gen.Types ctx body [] (calls base ((args :: codes).zip (m :: others))) stack
        fun _ => ((others.getLast?.map (·.returns)).getD m.returns).kind.pushed ++ stack := by
      refine types_seq (types_receiver basis.typed reached here) ?_
      refine types_seq (types_callArguments basis first told here) ?_
      exact types_seq (Gen.types_invokeTarget basis.formed may) <| types_laterCalls basis rest next
    refine types_seq chain <| types_pure _ ?_
    rw [returns_last]

end ExprCode

section Trees

variable (basis : ctx.Supports body good)
include basis

theorem Expr.code_known (tree : Expr) (casts : ctx.Casts (Descriptor.IsNullOr good) tree.casts) :
    ExprCode.Known ctx good (tree.code ctx) fun expected => tree.typeIn ctx expected :=
  ⟨⟨_, tree.code_composed ctx⟩, fun _ => tree.typeIn_closed basis.closes casts (by simp)⟩

theorem Operand.code_known (arg : Operand) (casts : ctx.Casts (Descriptor.IsNullOr good) arg.casts) :
    ExprCode.Known ctx good (arg.code ctx) fun expected => arg.typeIn ctx expected :=
  ⟨⟨_, arg.code_composed ctx⟩, fun _ => arg.typeIn_closed basis.closes casts (by simp)⟩

theorem Atom.code_known (atom : Atom) (casts : ctx.Casts (Descriptor.IsNullOr good) atom.casts) :
    ExprCode.Known ctx good (atom.code ctx) fun expected => atom.typeIn ctx expected :=
  ⟨⟨_, atom.code_composed ctx⟩, fun _ => atom.typeIn_closed basis.closes casts (by simp)⟩

theorem Operand.typeIn_arrayOf {elements : List Expr} {expected : Option Descriptor}
    (casts : ctx.Casts (Descriptor.IsNullOr good) (Expr.allCasts elements))
    (proper : ∀ e ∈ expected, good e) (h : (Operand.array elements).typeIn ctx expected = .ok d) :
    ∃ e : Descriptor, d = e.arrayOf ∧ good e ∧ (e = .void → expected = some voidArray) := by
  rcases Operand.typeIn_array h with ⟨wanted, isArray⟩ | ⟨first, rest, e, rfl, told, h⟩
  · obtain ⟨e, element⟩ := Option.isSome_iff_exists.1 isArray
    obtain ⟨rfl, proper⟩ := basis.element d e (proper d wanted) element
    refine ⟨e, rfl, proper, ?_⟩
    rintro rfl
    exact wanted
  · simp only [Expr.allCasts, Context.Casts, List.forall_mem_append] at casts
    have sane := Expr.typeIn_closed basis.closes first casts.1 (by simp) told
    unfold Descriptor.literalArray at h
    split_ifs at h with isVoid isNull
    · cases h
      exact ⟨.object, rfl, basis.of.2, fun isVoid => absurd isVoid (by decide)⟩
    · cases h
      exact ⟨e, rfl, sane.resolve_left isNull, fun same => absurd same isVoid⟩

set_option linter.unusedSectionVars false in
mutual

theorem Expr.code_types : (tree : Expr) → ctx.Casts (Descriptor.IsNullOr good) tree.casts →
    (tree.code ctx).Types ctx body good fun expected => tree.typeIn ctx expected
  | .operand arg _, casts => by
    rw [Expr.casts] at casts
    simp only [Expr.code, Expr.typeIn]
    exact Operand.code_types arg casts
  | .binary op left right grouped, casts => by
    have known := Expr.code_known basis (.binary op left right grouped) casts
    simp only [Expr.casts, Context.Casts, List.forall_mem_append] at casts
    rw [Expr.code] at known ⊢
    exact ExprCode.types_binary (Expr.code_types left casts.1) (Expr.code_types right casts.2) basis known

theorem Operand.code_types : (arg : Operand) → ctx.Casts (Descriptor.IsNullOr good) arg.casts →
    (arg.code ctx).Types ctx body good fun expected => arg.typeIn ctx expected
  | .atom value none, casts => by
    rw [Operand.casts] at casts
    simp only [Operand.code, Operand.typeIn_atom]
    exact Atom.code_types value casts
  | .atom value (some operator), casts => by
    have known := Operand.code_known basis (.atom value (some operator)) casts
    rw [Operand.casts] at casts
    rw [Operand.code] at known ⊢
    exact ExprCode.types_underUnary basis (Atom.code_types value casts) known
  | .cast target inner, casts => by
    have known := Operand.code_known basis (.cast target inner) casts
    simp only [Operand.casts, Context.Casts, List.forall_mem_cons] at casts
    rw [Operand.code] at known ⊢
    exact ExprCode.types_cast basis (Expr.code_types inner casts.2) known
  | .array elements, casts => by
    have known := Operand.code_known basis (.array elements) casts
    rw [Operand.casts] at casts
    rw [Operand.code] at known ⊢
    refine ExprCode.types_array basis known (Expr.argCodes_composed ctx elements)
      (fun expected d proper => Operand.typeIn_arrayOf basis casts proper) ?_ fun code member e stack proper other => ?_
    · rw [Operand.typeIn]
      rfl
    · have each := Expr.argCodes_types elements casts
      obtain ⟨i, within, rfl⟩ := List.getElem_of_mem member
      exact each.get within (by rwa [← each.length_eq]) e stack proper fun same => absurd same other
  | .create className arguments, casts => by
    have known := Operand.code_known basis (.create className arguments) casts
    rw [Operand.casts] at casts
    rw [Operand.code] at known ⊢
    exact ExprCode.types_create basis casts (Expr.argCodes_types arguments casts) known

theorem Atom.code_types : (atom : Atom) → ctx.Casts (Descriptor.IsNullOr good) atom.casts →
    (atom.code ctx).Types ctx body good fun expected => atom.typeIn ctx expected
  | .literal t, casts => by
    have known := Atom.code_known basis (.literal t) casts
    rw [Atom.code] at known ⊢
    exact ExprCode.types_literal basis known
  | .nested inner, casts => by
    rw [Atom.casts] at casts
    simp only [Atom.code, Atom.typeIn]
    exact ExprCode.types_parenthesized basis (Expr.code_types inner casts)
  | .load head links, casts => by
    have known := Atom.code_known basis (.load head links) casts
    rw [Atom.casts] at casts
    rw [Atom.code] at known ⊢
    exact ExprCode.types_load basis (Call.argCodes_types links casts) known

theorem Expr.argCodes_types : (trees : List Expr) → ctx.Casts (Descriptor.IsNullOr good) (Expr.allCasts trees) →
    List.Forall₂ (ArgCode.Types ctx body good) (Expr.argCodes ctx trees) trees
  | [], _ => by
    rw [Expr.argCodes]
    exact .nil
  | tree :: rest, casts => by
    simp only [Expr.allCasts, Context.Casts, List.forall_mem_append] at casts
    rw [Expr.argCodes]
    exact .cons (ExprCode.types_valueAs ctx.program (Expr.code_types tree casts.1)) (Expr.argCodes_types rest casts.2)

theorem Call.argCodes_types : (links : List Call) → ctx.Casts (Descriptor.IsNullOr good) (Call.allCasts links) →
    List.Forall₂ (ExprCode.LinkTypes ctx body good) (Call.argCodes ctx links) links
  | [], _ => by
    rw [Call.argCodes]
    exact .nil
  | .call name arguments :: rest, casts => by
    simp only [Call.allCasts, Context.Casts, List.forall_mem_append] at casts
    rw [Call.argCodes]
    exact .cons (Expr.argCodes_types arguments casts.1) (Call.argCodes_types rest casts.2)

end

theorem Expr.types_codeAs {β : Type} (tree : Expr) (casts : ctx.Casts (Descriptor.IsNullOr good) tree.casts)
    {expected : Descriptor} {f : Unit → Gen β} {post : β → List Kind} (proper : good expected)
    (next : Gen.Types ctx body [] (f ()) (expected.kind.pushed ++ stack) post)
    (never : expected = voidArray → ∀ mid b later, mid.code.alive = true → mid.code.depth ≤ Kind.widths stack →
      f () mid = .ok b later → False) :
    Gen.Types ctx body [] (tree.codeAs ctx expected >>= f) stack post := by
  have types := Expr.code_types basis tree casts
  by_cases isVoid : expected = voidArray
  · subst isVoid
    have coerced : Gen.coerce ctx.program voidArray voidArray = pure () := by
      simp only [Gen.coerce, Program.coercion?, Descriptor.widening?, if_true]
      rfl
    unfold codeAs ExprCode.valueAs
    split
    next value held => exact absurd (Descriptor.holds_int (Option.filter_eq_some_iff.1 held).2) (by decide)
    next =>
      rw [bind_assoc]
      refine Gen.types_after (types.grows.value _) types.short (fun _ found _ _ => ?_)
        fun _ w mid b later _ alive depth h => ?_
      · exact types_seq (Gen.types_coerce _ found voidArray) next
      · rw [coerced] at h
        exact never rfl mid b later alive depth h
  · exact types_bind (ExprCode.types_valueAs ctx.program types expected stack proper (absurd · isVoid))
      fun _ _ _ _ => next

end Trees

end

structure Body.Given (body : Option Body) : Prop where
  done : body.isSome = true
  formed : Body.Formed body

namespace Context.IsTyped

variable {ctx : Context} (typed : ctx.IsTyped)
include typed

theorem supports {body : Option Body} (given : Body.Given body) : ctx.Supports body (Descriptor.Proper IsPlain) where
  formed := given.formed
  typed _ := typed
  plain _ _ := id
  proper := ⟨IsPlain, fun _ => id⟩
  closes := ctx.closes_sane typed.reviewed typed.slots.isSane
  element _ _ proper h := proper.element h
  method _ has p among :=
    have valued := (typed.reviewed.method has).1 p among
    ⟨valued.proper, valued.ne_void.2⟩
  constructor _ _ _ _ found := (typed.reviewed.constructor found).imp
    (fun valued p among => ⟨(valued p among).proper, (valued p among).ne_void.2⟩) id
  voidArray _ := given.done

theorem casts (targets : List TypeName) : ctx.Casts (Descriptor.IsNullOr (Descriptor.Proper IsPlain)) targets :=
  ctx.casts_sane typed.reviewed targets

end Context.IsTyped

end ClassForge
