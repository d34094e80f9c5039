import ClassForge.Proofs.StepTyping

set_option autoImplicit false

namespace ClassForge

variable {opcodes : List Opcode} {source target : Kind} {d : Descriptor}

section Conversions

inductive Converts : List Opcode → Kind → Kind → Prop
  | nil (kind : Kind) : Converts [] kind kind
  | cons {opcode : Opcode} {rest : List Opcode} {source mid target : Kind} (bare : opcode.isBare = true)
      (notThrow : opcode ≠ .athrow) (effect : opcode.kindEffect? = some ([source], [mid]))
      (next : Converts rest mid target) : Converts (opcode :: rest) source target

theorem Converts.append {more : List Opcode} {mid : Kind}
    (first : Converts opcodes source mid) (second : Converts more mid target) :
    Converts (opcodes ++ more) source target := by
  induction first with
  | nil => exact second
  | cons bare notThrow effect _ ih => exact .cons bare notThrow effect (ih second)

theorem Kind.converts (numeric : source.isNumeric = true)
    (numeric' : target.isNumeric = true) : Converts (source.conversion? target).toList source target := by
  cases source <;> cases target <;>
    first
      | exact absurd numeric (by decide)
      | exact absurd numeric' (by decide)
      | exact .nil _
      | exact .cons rfl (by decide) rfl (.nil _)

namespace Descriptor

theorem isNumeric_kind (numeric : d.isNumeric = true) : d.kind.isNumeric = true := by
  have member : d ∈ [byte, short, char, int, long, float, double] := of_decide_eq_true numeric
  fin_cases member <;> rfl

theorem widensTo_numeric {source target : Descriptor} (h : source.widensTo target = true) :
    source.isNumeric = true ∧ target.isNumeric = true := by
  have small : ∀ d ∈ [short, int, long, float, double], d.isNumeric = true := by decide
  unfold widensTo at h
  split_ifs at h with isByte isInt isLong isFloat
  · exact ⟨isByte ▸ rfl, small _ (of_decide_eq_true h)⟩
  · have : ∀ d ∈ [short, char, int], d.isNumeric = true := by decide
    exact ⟨this _ isInt, small _ (List.mem_cons_of_mem _ (of_decide_eq_true h))⟩
  · exact ⟨isLong ▸ rfl, small _ (by
      have := of_decide_eq_true h
      exact List.mem_cons_of_mem _ (List.mem_cons_of_mem _ (List.mem_cons_of_mem _ this)))⟩
  · exact ⟨isFloat ▸ rfl, (of_decide_eq_true h : target = double) ▸ rfl⟩

theorem converts_widening {source target : Descriptor}
    (h : source.widening? target = some opcodes) : Converts opcodes source.kind target.kind := by
  unfold widening? at h
  split_ifs at h with same widens
  · cases h
    exact same ▸ .nil _
  · cases h
    obtain ⟨numeric, numeric'⟩ := widensTo_numeric widens
    exact Kind.converts (isNumeric_kind numeric) (isNumeric_kind numeric')

theorem converts_narrowing (source target : Descriptor) :
    Converts (narrowing source target) target.kind target.kind := by
  unfold narrowing
  split_ifs with isByte isChar isShort
  · exact isByte ▸ .cons rfl (by decide) rfl (.nil _)
  · exact isChar ▸ .cons rfl (by decide) rfl (.nil _)
  · exact isShort.1 ▸ .cons rfl (by decide) rfl (.nil _)
  · exact .nil _

theorem converts_cast {source target : Descriptor}
    (h : source.primitiveCast? target = some opcodes) : Converts opcodes source.kind target.kind := by
  unfold primitiveCast? at h
  split_ifs at h with same numeric
  · cases h
    exact same ▸ .nil _
  · cases h
    rw [Bool.and_eq_true] at numeric
    exact (Kind.converts (isNumeric_kind numeric.1) (isNumeric_kind numeric.2)).append
      (converts_narrowing source target)

theorem promote_numeric {left right type : Descriptor} (h : left.promote? right = some type) :
    left ∈ [byte, short, char, int, long, float, double] ∧ right ∈ [byte, short, char, int, long, float, double] := by
  unfold promote? at h
  split_ifs at h with numeric
  all_goals
    rw [Bool.and_eq_true] at numeric
    exact ⟨of_decide_eq_true numeric.1, of_decide_eq_true numeric.2⟩

theorem kind_of_promote_self {type : Descriptor} (h : d.promote? d = some type) : d.kind = type.kind := by
  have all : ∀ d ∈ [byte, short, char, int, long, float, double], ∀ type ∈ d.promote? d, d.kind = type.kind := by
    decide
  exact all d (promote_numeric h).1 type h

theorem kind_of_promote_int {left right : Descriptor} (h : left.promote? right = some int) :
    left.kind = .int ∧ right.kind = .int := by
  have all : ∀ l ∈ [byte, short, char, int, long, float, double],
      ∀ r ∈ [byte, short, char, int, long, float, double], l.promote? r = some int → l.kind = .int ∧ r.kind = .int := by
    decide
  obtain ⟨l, r⟩ := promote_numeric h
  exact all left l right r h

theorem kind_of_isReference (h : d.isReference = true) : d.kind = .reference := by
  unfold isReference at h
  unfold kind
  split at h
  next text => simp [text]
  next text => simp [text]
  next => cases h

theorem kind_of_className {name : String} (h : d.className? = some name) : d.kind = .reference := by
  unfold className? at h
  unfold kind
  split at h
  next text => simp [text]
  next => cases h

theorem kind_of_element (h : d.element?.isSome = true) : d.kind = .reference := by
  unfold element? at h
  unfold kind
  split at h
  next text => simp [text]
  next => cases h

theorem kind_of_isReferenceOrNull (h : d.isReferenceOrNull = true) : d.kind = .reference := by
  simp only [isReferenceOrNull, Bool.or_eq_true, decide_eq_true_eq] at h
  rcases h with rfl | h
  · rfl
  · exact kind_of_isReference h

end Descriptor

theorem Program.converts_coercion {program : Program} {source target : Descriptor} {coercion : Coercion}
    (h : program.coercion? source target = some coercion) :
    (∃ opcodes, coercion = .convert opcodes ∧ Converts opcodes source.kind target.kind) ∨
      (∃ name, coercion = .checkCast name) ∧ source.kind = .reference ∧ target.kind = .reference := by
  unfold coercion? at h
  split at h
  next opcodes widens =>
    cases h
    exact .inl ⟨opcodes, rfl, Descriptor.converts_widening widens⟩
  next =>
    split_ifs at h with isReference free isObject
    · have kind := Descriptor.kind_of_isReference isReference
      cases h
      refine .inl ⟨[], rfl, ?_⟩
      have : source.kind = .reference := by
        rcases free with rfl | ⟨-, isReference'⟩
        · rfl
        · exact Descriptor.kind_of_isReference isReference'
      rw [this, kind]
      exact .nil _
    · cases h
      refine .inr ⟨⟨_, rfl⟩, ?_, Descriptor.kind_of_isReference isReference⟩
      rw [isObject]
      exact Descriptor.kind_ofClass _
    · split at h
      next isClass isClass' =>
        split_ifs at h
        cases h
        refine .inl ⟨[], rfl, ?_⟩
        rw [Descriptor.kind_of_className isClass, Descriptor.kind_of_className isClass']
        exact .nil _
      next => cases h

end Conversions

variable {opcode : Opcode} {kind : Kind} {step : Pooled UInt16} {width : Nat}

def Body.Formed (body : Option Body) : Prop :=
  ∀ b ∈ body, ∀ i ∈ b.code, i.IsFormed b.pool

namespace Gen

variable {β : Type} {ctx : Context} {body : Option Body} {exits : List (Label × Note)} {stack pre : List Kind}

theorem types_ops (converts : Converts opcodes source target) :
    Types ctx body exits (ops opcodes) (source.pushed ++ stack) fun _ => target.pushed ++ stack := by
  induction converts with
  | nil kind => exact types_pure () rfl
  | @cons opcode rest source mid target bare notThrow effect _ ih =>
    change Types ctx body exits (op opcode >>= fun _ => ops rest) _ _
    refine types_seq ?_ ih
    obtain ⟨-, taken, given⟩ := Opcode.kindEffect_facts opcode _ effect
    rw [Kind.pushed_of_ne (by rintro rfl; simp at taken), Kind.pushed_of_ne (by rintro rfl; simp at given)]
    exact types_op bare notThrow effect

theorem types_push (bare : opcode.isBare = true) (kinds : opcode.kindEffect? = some ([], [kind])) :
    Types ctx body exits (op opcode) stack fun _ => kind :: stack := by
  have notThrow : opcode ≠ .athrow := by rintro rfl; cases kinds
  exact types_op bare notThrow kinds

theorem types_turn (bare : opcode.isBare = true) (kinds : opcode.kindEffect? = some ([source], [target])) :
    Types ctx body exits (op opcode) (source :: stack) fun _ => target :: stack := by
  have notThrow : opcode ≠ .athrow := by rintro rfl; cases kinds
  exact types_op bare notThrow kinds

theorem types_join {left right result : Kind} (bare : opcode.isBare = true)
    (kinds : opcode.kindEffect? = some ([right, left], [result])) :
    Types ctx body exits (op opcode) (right :: left :: stack) fun _ => result :: stack := by
  have notThrow : opcode ≠ .athrow := by rintro rfl; cases kinds
  exact types_op bare notThrow kinds

theorem types_widen (source target : Descriptor) :
    Types ctx body exits (widen source target) (source.kind.pushed ++ stack) fun _ => target.kind.pushed ++ stack := by
  unfold widen
  split
  next opcodes widens => exact types_ops (Descriptor.converts_widening widens)
  next => exact types_throw _

theorem types_dup (narrow : kind.width = 1) :
    Types ctx body exits (op .dup) (kind :: stack) fun _ => kind :: kind :: stack := by
  have widths : Opcode.stackEffect? .dup = some (Kind.widths [kind], Kind.widths [kind, kind]) := by
    simp only [Kind.widths, List.map_cons, List.map_nil, narrow]
    rfl
  exact @types_plain _ _ _ _ _ .dup [] [kind] [kind, kind] stack (grows_op rfl)
    (Opcode.wellFormed_of_isBare rfl) rfl (fun b a later alive h => (Emit.op_written widths h).writes alive)
    fun _ _ => Body.steps_dup narrow

theorem types_pop (isPop : opcode = .pop ∧ kind.width = 1 ∨ opcode = .pop2 ∧ kind.width = 2) :
    Types ctx body exits (op opcode) (kind :: stack) fun _ => stack := by
  obtain ⟨bare, goesOn⟩ : opcode.isBare = true ∧ opcode.goesOn = true := by
    rcases isPop with ⟨rfl, -⟩ | ⟨rfl, -⟩ <;> exact ⟨rfl, rfl⟩
  have widths : opcode.stackEffect? = some (Kind.widths [kind], 0) := by
    have single : Kind.widths [kind] = kind.width := by simp [Kind.widths]
    rw [single]
    rcases isPop with ⟨rfl, h⟩ | ⟨rfl, h⟩ <;> rw [h] <;> rfl
  exact @types_plain _ _ _ _ _ opcode [] [kind] [] stack (grows_op bare) (Opcode.wellFormed_of_isBare bare)
    goesOn (fun b a later alive h => (Emit.op_written widths h).writes alive)
    fun _ _ => Body.steps_pop isPop

theorem types_popValue (d : Descriptor) :
    Types ctx body exits (popValue d) (d.kind.pushed ++ stack) fun _ => stack := by
  unfold popValue Descriptor.width
  cases d.kind with
  | void => exact types_pure () rfl
  | long | double => exact types_pop (.inr ⟨rfl, rfl⟩)
  | _ => exact types_pop (.inl ⟨rfl, rfl⟩)

theorem types_jump {opcode : Opcode} {target : Label} {takes : List Kind} (branch : opcode.isBranch = true)
    (kinds : opcode.kindEffect? = some (takes, [])) :
    Types ctx body [(target, ctx.note stack)] (emit (.jump opcode target)) (takes ++ stack) fun _ => stack := by
  have widths : opcode.stackEffect? = some (Kind.widths takes, 0) :=
    (Opcode.kindEffect_facts opcode _ kinds).1
  have exit : (target, ctx.note stack) ∈ [(target, ctx.note stack)] := List.mem_singleton.2 rfl
  have formed : (Item.jump opcode target).WellFormed := branch
  have writes (b : CodeBuffer) (a : Unit) (later : CodeBuffer) (alive : b.alive = true)
      (h : Emit.jump opcode target b = .ok a later) :
      CodeBuffer.Writes (.jump opcode target) (Kind.widths takes) 0 b later := by
    obtain ⟨pops, pushes, same, written⟩ := Emit.jump_returns h
    obtain ⟨rfl, -⟩ : Kind.widths takes = pops ∧ 0 = pushes := by simpa [widths] using same alive
    exact written.writes alive
  refine types_emit (grows_jump branch target) formed (by simp [Item.targets]) writes
    (fun _ _ _ => Body.steps_jump branch kinds exit) (fun _ => ?_) (fun e member _ => ?_)
    (.inr ⟨_, exit, List.mem_singleton.2 rfl⟩)
  · rw [Kind.widths_append]
    omega
  · rw [List.mem_singleton.1 member, Kind.widths_append]
    exact Nat.add_comm _ _

theorem types_pooled {α : Type} {step : Pooled α}
    (added : ∀ pool a later, pool.Valid → step pool = .ok a later → later.Valid ∧ pool.Extends later) :
    Types ctx body exits (pooled step) pre fun _ => pre := by
  refine ⟨grows_added added, fun w a later _ _ _ h _ meets => ?_⟩
  obtain ⟨pool, run, rfl⟩ := pooled_returns.1 h
  exact ⟨.of_code_eq rfl meets, .inl meets.alive⟩

theorem types_named {step : Pooled UInt16} {use : UInt16 → Emit Unit} (item : UInt16 → Item)
    (known : ConstantPool → UInt16 → Prop) {takes gives : List Kind}
    (grows : Grows ctx.toSite (exits.map (·.1)) (do emit (use (← pooled step))))
    (added : ∀ pool index later, pool.Valid → step pool = .ok index later → known later index)
    (kept : ∀ pool later index, pool.Extends later → known pool index → known later index)
    (formed : ∀ index, (item index).WellFormed) (free : ∀ index, (item index).targets = [])
    (goesOn : ∀ index, (item index).endsPath = false)
    (written : ∀ b a later index, use index b = .ok a later →
      CodeBuffer.Written (item index) (Kind.widths takes) (Kind.widths gives) b later)
    (steps : ∀ b ∈ body, ∀ index, known b.pool index →
      b.Steps (item index) (ctx.note (takes ++ stack)) (ctx.note (gives ++ stack)) exits) :
    Types ctx body exits (do emit (use (← pooled step))) (takes ++ stack) fun _ => gives ++ stack := by
  refine ⟨grows, fun w a later valid ready slots h leads meets => ?_⟩
  simp only [bind_returns, pooled_returns, emit_returns] at h
  obtain ⟨index, _, ⟨pool, run, rfl⟩, code, run', rfl⟩ := h
  have writes := (written _ _ _ _ run').writes meets.alive
  have steps (b : Body) (among : b ∈ body) :=
    steps b among index (kept _ _ _ (leads b among).pool (added _ _ _ valid run))
  refine ⟨.of_writes leads writes (formed index) (by simp [free]) meets steps (fun _ => ?_) (by simp [free]), .inl ?_⟩
  · simp only [Note.width, Context.note, Kind.widths_append]
    omega
  · change code.alive = true
    rw [writes.ends, goesOn]
    rfl

theorem types_then {use : UInt16 → Emit Unit} {next : Unit → Gen β} {mid : List Kind}
    {post : β → List Kind} (first : Types ctx body exits (do emit (use (← pooled step))) pre fun _ => mid)
    (second : Types ctx body exits (next ()) mid post) :
    Types ctx body exits (pooled step >>= fun index => emit (use index) >>= next) pre post := by
  have whole := types_seq first second
  rwa [bind_assoc] at whole

theorem types_class {opcode : Opcode} {name : String} {takes gives : List Kind} (free : opcode.isFree = true)
    (notThrow : opcode ≠ .athrow) (length : Instruction.operandLength? 0 opcode [] = some 2)
    (kinds : opcode.kindEffect? = some (takes, gives)) :
    Types ctx body exits (do emit (.opWord opcode (← pooled (.classRef name)))) (takes ++ stack)
      fun _ => gives ++ stack := by
  refine types_bind (types_pooled fun pool index later valid h => ?_) fun _ _ _ _ =>
    types_fixed free notThrow length kinds
  obtain ⟨valid', grown, -⟩ := Pooled.classRef_returns valid h
  exact ⟨valid', grown⟩

theorem types_coerce (program : Program) (found expected : Descriptor) :
    Types ctx body exits (coerce program found expected) (found.kind.pushed ++ stack)
      fun _ => expected.kind.pushed ++ stack := by
  unfold coerce
  split
  next opcodes coerces =>
    rcases Program.converts_coercion coerces with ⟨_, same, converts⟩ | ⟨⟨_, same⟩, -⟩
    · cases same
      exact types_ops converts
    · cases same
  next target coerces =>
    rcases Program.converts_coercion coerces with ⟨_, same, -⟩ | ⟨-, source, target⟩
    · cases same
    · rw [source, target]
      exact types_class rfl (by decide) rfl rfl
  next => exact types_throw _

theorem types_constantOf (same : kind.width = width)
    (added : ∀ pool index later, pool.Valid → step pool = .ok index later →
      later.Valid ∧ pool.Extends later ∧ ∃ c, later.get? index = some c ∧ c.kind? = some kind) :
    Types ctx body exits (do emit (.constant (← pooled step) width)) stack fun _ => kind :: stack := by
  have single : Kind.widths [kind] = width := by simp [Kind.widths, same]
  refine @types_named ctx body exits stack step _ (fun index => .constant index width)
    (fun pool index => ∃ c, pool.get? index = some c ∧ c.kind? = some kind) [] [kind]
    (grows_constantFrom fun pool index later valid h => ?_) (fun pool index later valid h => ?_) ?_
    (fun index => ?_) (fun index => ?_) (fun index => ?_) (fun b a later index h => ?_) fun _ _ index known => ?_
  · exact ⟨(added pool index later valid h).1, (added pool index later valid h).2.1⟩
  · exact (added pool index later valid h).2.2
  · rintro pool later index grown ⟨c, found, known⟩
    exact ⟨c, grown _ _ found, known⟩
  · exact Emit.puts_constant.formed
  · obtain ⟨opcode, operands, same, -⟩ := Item.constant_plain index width
    rw [same]
    rfl
  · obtain ⟨opcode, operands, same, isConstant, -⟩ := Item.constant_plain index width
    rw [same]
    exact Item.endsPath_of_goesOn (Opcode.goesOn_of_isFree _ (.inr isConstant))
  · rw [single]
    exact Emit.constant_returns h
  · obtain ⟨opcode, operands, same', isConstant, -⟩ := Item.constant_plain index width
    obtain ⟨c, found, known⟩ := known
    rw [same']
    refine Body.steps_of_effect (Opcode.goesOn_of_isFree _ (.inr isConstant))
      ((Opcode.isDirect_of_isIn _).1 isConstant) fun pc _ => ?_
    have read := Item.constant_constant (fun _ => 0) pc index width
    rw [same'] at read
    change ({ pc, opcode, operands } : Instruction).constant? = _ at read
    simp only [Instruction.effect?, isConstant, if_true, Instruction.constantKind?, read]
    simp [found, known, same]

theorem types_constant {constant : Constant} (same : kind.width = width) (known : constant.kind? = some kind) :
    Types ctx body exits (do emit (.constant (← pooled (.add constant)) width)) stack fun _ => kind :: stack := by
  refine types_constantOf same fun pool index later valid h => ?_
  obtain ⟨valid', grown, found⟩ := Pooled.add_returns valid h
  exact ⟨valid', grown, constant, found, known⟩

theorem types_string {text : String} :
    Types ctx body exits (do emit (.constant (← pooled (.string text)) 1)) stack fun _ => .reference :: stack := by
  refine types_constantOf rfl fun pool index later valid h => ?_
  obtain ⟨valid', grown, i, found, -⟩ := Pooled.string_returns valid h
  exact ⟨valid', grown, _, found, rfl⟩

theorem types_smallInt (value : Int) :
    Types ctx body exits (emit (.smallInt value)) stack fun found => if found then .int :: stack else stack := by
  refine ⟨grows_smallInt, fun w found later _ _ _ h leads meets => ?_⟩
  obtain ⟨code, run, rfl⟩ := emit_returns.1 h
  rcases Emit.smallInt_returns run with ⟨rfl, rfl, -⟩ | ⟨rfl, -, written⟩
  · exact ⟨.of_code_eq rfl meets, .inl meets.alive⟩
  · have writes := written.writes meets.alive
    obtain ⟨opcode, operands, item, family, formed⟩ := Item.smallInt_plain value
    obtain ⟨kinds, goesOn⟩ : opcode.kindEffect? = some ([], [.int]) ∧ opcode.goesOn = true := by
      fin_cases family <;> exact ⟨rfl, rfl⟩
    rw [item] at writes
    refine ⟨.of_writes leads writes formed (by simp [Item.targets]) meets
      (fun _ _ => Body.steps_op goesOn kinds) (fun _ => ?_) (by simp [Item.targets]), .inl ?_⟩
    · exact Nat.add_comm 1 (Kind.widths stack)
    · change code.alive = true
      rw [writes.ends, Item.endsPath_of_goesOn goesOn]
      rfl

theorem types_pushInt (value : Int) : Types ctx body exits (pushInt value) stack fun _ => .int :: stack := by
  refine types_bind (types_smallInt value) fun _ found _ _ => types_ite (fun yes => ?_) fun no => ?_
  · rw [if_pos yes]
    exact types_pure () rfl
  · rw [if_neg no]
    exact types_constant rfl rfl

theorem types_longConstant (value : Int) : Types ctx body exits (longConstant value) stack fun _ => .long :: stack :=
  types_ite (fun _ => types_push rfl rfl) fun _ =>
    types_ite (fun _ => types_push rfl rfl) fun _ => types_constant rfl rfl

theorem types_floatConstant (bits : Nat) :
    Types ctx body exits (floatConstant bits) stack fun _ => .float :: stack := by
  unfold floatConstant
  split
  next n short =>
    have := shortConstant_lt short
    interval_cases n <;> exact types_push rfl rfl
  next => exact types_constant rfl rfl

theorem types_doubleConstant (bits : Nat) :
    Types ctx body exits (doubleConstant bits) stack fun _ => .double :: stack := by
  unfold doubleConstant
  split
  next n short =>
    have := shortConstant_lt short
    interval_cases n <;> exact types_push rfl rfl
  next => exact types_constant rfl rfl

theorem types_integerLiteral (negated : Bool) (t : Token) (type : Descriptor) (bits : Nat) :
    Types ctx body exits (integerLiteral negated t type bits) stack fun _ => stack :=
  types_check fun value _ => types_ite (fun _ => types_pure value rfl) fun _ => types_throw _

theorem types_charLiteral (t : Token) : Types ctx body exits (charLiteral t) stack fun _ => .int :: stack :=
  types_guard fun _ => types_pushInt _

theorem types_literal (negated : Bool) (t : Token) :
    Types ctx body exits (literal negated t) stack fun d => d.kind.pushed ++ stack := by
  refine types_check fun type known => ?_
  have last {kind : Kind} (same : type.kind.pushed = [kind]) :
      Types ctx body exits (pure type) (kind :: stack) fun d => d.kind.pushed ++ stack :=
    types_pure type (by rw [same]; rfl)
  unfold Token.literalType at known
  cases kind : t.kind <;> simp only [kind] at known ⊢
  case int | short =>
    cases known
    exact types_bind (types_integerLiteral _ _ _ _) fun _ _ _ _ =>
      types_seq (types_pushInt _) <| last rfl
  case long =>
    cases known
    exact types_bind (types_integerLiteral _ _ _ _) fun _ _ _ _ =>
      types_seq (types_longConstant _) <| last rfl
  case float =>
    cases known
    exact types_seq (types_floatConstant _) <| last rfl
  case double =>
    cases known
    exact types_seq (types_doubleConstant _) <| last rfl
  case string =>
    have isString : type = .string := by
      split_ifs at known
      simp_all
    subst isString
    exact types_then types_string (last (by simp [Descriptor.string]; rfl))
  case char =>
    have isChar : type = .char := by
      split_ifs at known <;> simp_all
    subst isChar
    exact types_seq (types_charLiteral t) <| last rfl
  all_goals
    simp only [reduceCtorEq, if_false] at known
    split_ifs at known with negative isTruth isNull <;> cases known
    · refine types_ite (fun _ => types_seq (types_push rfl rfl) <| last rfl) fun notTrue => ?_
      exact types_ite (fun _ => types_seq (types_push rfl rfl) <| last rfl) fun notFalse =>
        (isTruth.elim notTrue notFalse).elim
    · rw [not_or] at isTruth
      rw [if_neg isTruth.1, if_neg isTruth.2]
      exact types_seq (types_push rfl rfl) <| last rfl

theorem types_unary (operator : UnaryOp) (d : Descriptor) :
    Types ctx body exits (unary operator d) (d.kind.pushed ++ stack) fun r => r.kind.pushed ++ stack := by
  refine types_check fun result known => ?_
  cases Descriptor.unaryResult_computes known with
  | neg promoted =>
    rw [Descriptor.kind_of_promote_self promoted]
    refine types_seq ?_ <| types_pure result rfl
    rcases Descriptor.promote_cases promoted with rfl | rfl | rfl | rfl <;> exact types_turn rfl rfl
  | not isBoolean =>
    rw [isBoolean]
    refine types_seq (types_seq (types_push rfl rfl) ?_) <| types_pure _ rfl
    exact types_seq (types_join rfl rfl) <| types_pure () rfl
  | bitNot integral promoted =>
    rw [Descriptor.kind_of_promote_self promoted]
    refine types_ite (fun isLong => ?_) fun notLong => ?_
    · rw [isLong]
      refine types_then (types_constant rfl rfl) ?_
      exact types_seq (types_join rfl rfl) <| types_pure _ rfl
    · have isInt := (Descriptor.promote_integral integral integral promoted).resolve_left notLong
      rw [isInt]
      refine types_seq (types_seq (types_push rfl rfl) ?_) <| types_pure _ rfl
      exact types_seq (types_join rfl rfl) <| types_pure () rfl

theorem types_field {opcode : Opcode} {owner name : String} {d : Descriptor}
    (isAccess : opcode ∈ [Opcode.getstatic, .putstatic, .getfield, .putfield])
    (emits : ∀ (pool : ConstantPool) index, pool.RefersTo .fieldRef index owner name d.text →
      Emits ctx.toSite pool (.plain opcode (Bytes.u2 index))) :
    Types ctx body exits (do emit (.field opcode (← pooled (.fieldRef owner name d.text)) d.width))
      ((Instruction.fieldKinds opcode d.kind).1 ++ stack)
      fun _ => (Instruction.fieldKinds opcode d.kind).2 ++ stack := by
  obtain ⟨isIn, goesOn, formed⟩ : opcode.isIn .getstatic .putfield = true ∧ opcode.goesOn = true ∧
      ∀ index, (Item.plain opcode (Bytes.u2 index)).WellFormed := by
    fin_cases isAccess <;> exact ⟨rfl, rfl, fun _ => Item.wellFormed_of_length rfl⟩
  have ends (index : UInt16) : (Item.plain opcode (Bytes.u2 index)).endsPath = false :=
    Item.endsPath_of_goesOn goesOn
  have widths : Emit.fieldEffect opcode d.width = (Kind.widths (Instruction.fieldKinds opcode d.kind).1,
      Kind.widths (Instruction.fieldKinds opcode d.kind).2) := by
    unfold Emit.fieldEffect Instruction.fieldKinds
    split_ifs <;> simp only [Kind.widths_append, Kind.widths_pushed] <;> rfl
  refine types_named (fun index => .plain opcode (Bytes.u2 index))
    (fun pool index => pool.RefersTo .fieldRef index owner name d.text) (grows_field isAccess emits)
    (fun pool index later valid h => (Pooled.fieldRef_returns valid h).2.2)
    (fun pool later index grown ref => grown.refersTo ref) formed (fun _ => rfl) ends
    (fun b a later index h => ?_) fun _ _ index ref => ?_
  · have written := Emit.field_returns (ends index) h
    rwa [widths] at written
  · obtain ⟨isMember, -⟩ := Opcode.field_or_method opcode
    obtain ⟨direct, notConstant⟩ := (Opcode.isDirect_of_isIn opcode).2.1 (isMember isIn)
    refine Body.steps_of_effect goesOn direct fun pc _ => ?_
    have read := @Instruction.wordOperand_u2 pc opcode index []
    rw [List.append_nil] at read
    simp only [Instruction.effect?, notConstant, isIn, Instruction.memberType?, read]
    simp [ref.2]

theorem types_invoke {opcode : Opcode} {step : Pooled UInt16} {descriptor : MethodDescriptor}
    {params : List Descriptor} {returns : Descriptor} (formed : Body.Formed body)
    (isCall : opcode ∈ [Opcode.invokevirtual, .invokespecial, .invokestatic, .invokeinterface])
    (grows : Grows ctx.toSite (exits.map (·.1))
      (do emit (.invoke opcode (← pooled step) (Descriptor.totalWidth params) returns.width)))
    (added : ∀ pool index later, pool.Valid → step pool = .ok index later →
      ∃ owner name, later.memberRef? index = some (owner, name, descriptor.text))
    (splits : body.isSome = true → descriptor.IsFormed → descriptor.split? = some (params, returns)) :
    Types ctx body exits (do emit (.invoke opcode (← pooled step) (Descriptor.totalWidth params) returns.width))
      ((Instruction.invokeKinds opcode params returns).1 ++ stack)
      fun _ => (Instruction.invokeKinds opcode params returns).2 ++ stack := by
  obtain ⟨isIn, goesOn, wellFormed⟩ : opcode.isIn .invokevirtual .invokeinterface = true ∧
      opcode.goesOn = true ∧
      ∀ index, (Item.invoke opcode index (Descriptor.totalWidth params)).WellFormed := by
    fin_cases isCall <;> exact ⟨rfl, rfl, fun _ => Item.wellFormed_of_length rfl⟩
  have ends (index : UInt16) : (Item.invoke opcode index (Descriptor.totalWidth params)).endsPath = false :=
    Item.endsPath_of_goesOn goesOn
  have widths : Kind.widths (Instruction.invokeKinds opcode params returns).1 =
      if opcode = .invokestatic then Descriptor.totalWidth params else Descriptor.totalWidth params + 1 := by
    unfold Instruction.invokeKinds
    rw [Kind.widths_append, Descriptor.widths_reverse]
    split_ifs <;> rfl
  have widths' : Kind.widths (Instruction.invokeKinds opcode params returns).2 = returns.width :=
    Kind.widths_pushed _
  refine types_named (fun index => .invoke opcode index (Descriptor.totalWidth params))
    (fun pool index => ∃ owner name, pool.memberRef? index = some (owner, name, descriptor.text)) grows added
    (fun pool later index grown => fun ⟨owner, name, ref⟩ => ⟨owner, name, grown.memberRef? ref⟩)
    wellFormed (fun _ => rfl) ends (fun b a later index h => ?_)
    fun b among index ⟨owner, name, ref⟩ => ?_
  · rw [widths, widths']
    exact Emit.invoke_returns (ends index) h
  · obtain ⟨-, isMember, -⟩ := Opcode.field_or_method opcode
    obtain ⟨isMember, notField⟩ := isMember isIn
    obtain ⟨direct, notConstant⟩ := (Opcode.isDirect_of_isIn opcode).2.1 isMember
    refine Body.steps_of_effect goesOn direct fun pc member => ?_
    have read := @Instruction.wordOperand_u2 pc opcode index
      (if opcode = .invokeinterface then [UInt8.ofNat (Descriptor.totalWidth params + 1), 0] else [])
    have type : ({ pc, opcode, operands := Bytes.u2 index ++ if opcode = .invokeinterface then
        [UInt8.ofNat (Descriptor.totalWidth params + 1), 0] else [] } : Instruction).memberType? b.pool =
        some descriptor.text := by
      simp only [Instruction.memberType?, read]
      simp [ref]
    have split := splits (Option.isSome_of_mem among) ((formed b among _ member).method isIn _ type)
    simp only [Instruction.effect?, notConstant, notField, isIn, type]
    simp [split]

theorem types_invokeTarget (formed : Body.Formed body) {m : MethodTarget} (may : ctx.MayCall m) :
    Types ctx body exits (invoke m) (Descriptor.kinds m.params.reverse ++
      ((if m.isStatic then [] else [.reference]) ++ stack)) fun _ => m.returns.kind.pushed ++ stack := by
  obtain ⟨d, ms, found, own, among⟩ := may.has
  obtain ⟨⟨-, -, split, -⟩, -⟩ := Program.ownMethods_found own among
  have isStatic : (if m.invokeOpcode = .invokestatic then [] else [Kind.reference]) =
      if m.isStatic then [] else [.reference] := by
    unfold MethodTarget.invokeOpcode
    split_ifs <;> first | rfl | contradiction
  rw [← List.append_assoc, ← isStatic]
  refine types_invoke formed m.isCall_invokeOpcode (grows_invokeTarget may.has may.allowed)
    (fun pool index later valid h => ?_) fun _ _ => split
  split_ifs at h
  · exact ⟨_, _, (Pooled.interfaceMethodRef_returns valid h).2.2.2⟩
  · exact ⟨_, _, (Pooled.methodRef_returns valid h).2.2.2⟩

theorem types_member (formed : Body.Formed body) {opcode : Opcode} {owner name : String}
    {params : List Descriptor} {returns : Descriptor} (isCall : opcode ∈ [Opcode.invokevirtual, .invokespecial])
    (grows : Grows ctx.toSite (exits.map (·.1)) (invokeMethod opcode owner name params returns))
    (valued : body.isSome = true → (MethodDescriptor.of params returns).IsFormed → ∀ p ∈ params, p.Valued IsPlain) :
    Types ctx body exits (invokeMethod opcode owner name params returns)
      (Descriptor.kinds params.reverse ++ .reference :: stack) fun _ => returns.kind.pushed ++ stack := by
  have types := @types_invoke ctx body exits stack opcode
    (.methodRef owner name (MethodDescriptor.of params returns).text) (.of params returns) params returns
    formed (by fin_cases isCall <;> simp) grows
    (fun pool index later valid h => ⟨_, _, (Pooled.methodRef_returns valid h).2.2.2⟩)
    fun done formed => MethodDescriptor.split_of (valued done formed) _
  rwa [Instruction.invokeKinds, if_neg (by fin_cases isCall <;> decide), List.append_assoc] at types

theorem types_construct (formed : Body.Formed body) {owner : String}
    {params : List Descriptor} (has : ctx.program.HasConstructor owner params)
    (proper : body.isSome = true → ∀ p ∈ params, p.Proper IsPlain) :
    Types ctx body exits (invokeMethod .invokespecial owner constructorName params .void)
      (Descriptor.kinds params.reverse ++ .reference :: stack) fun _ => stack := by
  refine types_member formed (by simp) (grows_construct has) ?_
  rintro done ⟨types, split, -⟩
  exact MethodDescriptor.valued_of_split (fun _ => IsPlain.isInner) (proper done) (by rw [split]; rfl)

theorem types_new {owner : String} (can : owner = builder ∨ ctx.program.Instantiable owner) :
    Types ctx body exits (do emit (.opWord .new (← pooled (.classRef owner)))) stack fun _ => .reference :: stack := by
  refine @types_named ctx body exits stack _ _ (fun index => .plain .new (Bytes.u2 index)) (fun _ _ => True)
    [] [.reference] (grows_new can) (fun _ _ _ _ _ => trivial) (fun _ _ _ _ _ => trivial)
    (fun index => Item.wellFormed_of_length rfl) (fun _ => rfl) (fun _ => rfl) (fun b a later index h => ?_)
    fun _ _ index _ => Body.steps_op rfl rfl
  exact Emit.fixed_written rfl rfl h

theorem types_load {slot : Nat} (known : body.isSome = true → kind ≠ .void ∧
      (slot, kind) ∈ ctx.toSite.vars ctx.slots ∧ slot + kind.width ≤ ctx.slots.maxSize ∧
      ctx.slots.maxSize ≤ 65535) :
    Types ctx body exits (emit (.load kind slot)) stack fun _ => kind.pushed ++ stack := by
  have wellFormed := (Emit.puts_load kind slot).formed
  obtain ⟨opcode, operands, item, -, goesOn⟩ := Emit.localAccess_load kind slot
  have free : (Item.load kind slot).targets = [] := by
    rw [item]
    rfl
  refine types_emit (grows_load kind slot) wellFormed (by simp [free])
    (fun b a later alive h => (Emit.load_returns h).writes alive) (fun b among enough => ?_) (fun _ => ?_)
    (by simp [free]) (.inl (item ▸ goesOn))
  · obtain ⟨value, known, room, small⟩ := known (Option.isSome_of_mem among)
    rw [Kind.pushed_of_ne value]
    have wide : 0 < kind.width := by cases kind <;> first | exact absurd rfl value | decide
    exact Body.steps_load value known (Nat.le_trans room enough) (by omega)
  · rw [Kind.widths_append, Kind.widths_pushed]
    omega

end Gen

-- Every name in sight has a type and as many slots as its values need, behind the receiver.
structure Slots.IsTyped (isStatic : Bool) (s : Slots) : Prop where
  stack : Stack 0 s.bindings s.size
  typed : ∀ b ∈ s.bindings, ∀ d ∈ b.descriptor, b.width = d.width ∧ d.Proper IsPlain
  named : ∀ name b, name ≠ "this" → s.lookup? name = some b → b.descriptor.isSome = true
  receiver : isStatic = false → 0 < s.size ∧ ∀ b ∈ s.bindings, b.descriptor.isSome = true → 0 < b.offset
  peak : s.size ≤ s.maxSize
  small : s.maxSize ≤ 65535

structure Context.IsTyped (ctx : Context) : Prop where
  reviewed : ctx.toSite.IsReviewed
  slots : ctx.slots.IsTyped ctx.isStatic

namespace Slots.IsTyped

variable {isStatic : Bool} {s : Slots}

theorem isSane (typed : s.IsTyped isStatic) : s.IsSane :=
  fun b member d known => (typed.typed b member d known).2

theorem value (typed : s.IsTyped isStatic) {b : Binding} (member : b ∈ s.bindings) (known : b.descriptor = some d) :
    d.kind ≠ .void ∧ (b.offset, d.kind) ∈ s.vars ∧ b.offset + d.kind.width ≤ s.maxSize := by
  obtain ⟨-, high, positive⟩ := typed.stack.bounds member
  obtain ⟨width, -⟩ := typed.typed b member d known
  have width : b.width = d.kind.width := width
  have peak := typed.peak
  refine ⟨fun isVoid => ?_, List.mem_filterMap.2 ⟨b, member, by rw [known]; rfl⟩, by omega⟩
  rw [isVoid] at width
  exact absurd positive (by rw [width]; decide)

end Slots.IsTyped

namespace Gen

variable {ctx : Context} {body : Option Body} {exits : List (Label × Note)} {stack : List Kind}

theorem types_place (typed : body.isSome = true → ctx.IsTyped) {name : String} {p : Place}
    (reached : ctx.Reaches name p) :
    Types ctx body exits (place p) stack fun _ => (ctx.descriptorOf p).kind.pushed ++ stack := by
  induction reached with
  | this isInstance =>
    rw [Context.descriptorOf, Descriptor.kind_ofClass]
    refine types_load fun done => ?_
    obtain ⟨size, -⟩ := (typed done).slots.receiver isInstance
    have peak := (typed done).slots.peak
    exact ⟨by decide, by simp [Site.vars, isInstance], Nat.le_trans (Nat.succ_le_of_lt size) peak,
      (typed done).slots.small⟩
  | bound named found =>
    rename_i b
    refine types_load fun done => ?_
    obtain ⟨d, known⟩ := Option.isSome_iff_exists.1 ((typed done).slots.named name b named found)
    obtain ⟨value, among, room⟩ := (typed done).slots.value (Slots.mem_of_lookup found) known
    simp only [known, Option.getD_some]
    exact ⟨value, List.mem_append_right _ among, room, (typed done).slots.small⟩
  | staticField use isStatic =>
    refine types_field (by simp) fun pool index ref => ?_
    have read : Emits ctx.toSite pool _ := .read use.has use.allowed ref
    simpa [isStatic] using read
  | field reached isObject use isInstance ih =>
    obtain ⟨name, isObject⟩ := Option.isSome_iff_exists.1 isObject
    rw [Descriptor.kind_of_className isObject] at ih
    refine types_seq ih <| types_field (by simp) fun pool index ref => ?_
    have read : Emits ctx.toSite pool _ := .read use.has use.allowed ref
    simpa [isInstance] using read
  | length reached isArray ih =>
    rw [Descriptor.kind_of_element isArray] at ih
    rw [Context.descriptorOf]
    exact types_seq ih <| types_turn rfl rfl

end Gen

end ClassForge
