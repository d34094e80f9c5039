import ClassForge.Proofs.ExprGrowth
import ClassForge.Proofs.Reading

set_option autoImplicit false

namespace ClassForge

def Instruction.pushedInteger? (pool : ConstantPool) (i : Instruction) : Option Int :=
  match i.constant? with
  | some (index, wide) =>
    match pool.get? index, wide with
    | some (.integer n), false => some n.toInt
    | some (.long n), true => some n.toInt
    | _, _ => none
  | none => if i.opcode.isIn .lconst0 .lconst1 then some (i.opcode - .lconst0).toNat else i.pushedInt?

def TokenKind.bits : TokenKind → Nat
  | .short => 16
  | .long => 64
  | _ => 32

def TokenKind.Holds (kind : TokenKind) (value : Int) : Prop :=
  -2 ^ (kind.bits - 1) ≤ value ∧ value < 2 ^ (kind.bits - 1)

variable {value : Int} {w later : Workspace} {u : Unit} {negated : Bool} {t : Token}

def Workspace.Pushes (value : Int) (w later : Workspace) : Prop :=
  w.code.alive = true → ∃ opcode operands, later.code.alive = true ∧ (Item.plain opcode operands).WellFormed ∧
    later.code.bytes.toList = w.code.bytes.toList ++ opcode :: operands ∧
    ∀ pc, Instruction.pushedInteger? later.pool { pc, opcode, operands } = some value

theorem CodeBuffer.Written.pushes {opcode : Opcode} {operands : List UInt8} {pops pushes : Nat}
    (written : Written (.plain opcode operands) pops pushes w.code later.code)
    (formed : (Item.plain opcode operands).WellFormed) (goesOn : (Item.plain opcode operands).endsPath = false)
    (pushed : ∀ pc, Instruction.pushedInteger? later.pool { pc, opcode, operands } = some value) :
    w.Pushes value later := by
  intro alive
  have writes := written.writes alive
  exact ⟨opcode, operands, by rw [writes.ends, goesOn]; rfl, formed, writes.bytes, pushed⟩

namespace Gen

theorem smallInt_pushes {found : Bool} (h : emit (.smallInt value) w = .ok found later) :
    found = false ∧ later = w ∨ found = true ∧ w.Pushes value later := by
  obtain ⟨code, run, rfl⟩ := emit_returns.1 h
  obtain ⟨rfl, rfl, -⟩ | ⟨rfl, ⟨low, high⟩, written⟩ := Emit.smallInt_returns run
  · exact .inl ⟨rfl, rfl⟩
  · obtain ⟨opcode, operands, item, family, formed⟩ := Item.smallInt_plain value
    have pushed := (Item.pushedInt_smallInt (fun _ => 0) · low high)
    rw [item] at written pushed
    refine .inr ⟨rfl, written.pushes formed ?_ fun pc => ?_⟩
    · fin_cases family <;> rfl
    · have short : Instruction.constant? { pc, opcode, operands } = none := by
        unfold Instruction.constant?
        fin_cases family <;> split <;> rfl
      have narrow : opcode.isIn .lconst0 .lconst1 = false := by fin_cases family <;> rfl
      simp only [Instruction.pushedInteger?, short, narrow]
      exact pushed pc

theorem constant_pushes {c : Constant} {width : Nat} (valid : w.pool.Valid)
    (kept : c = .integer (Int32.ofInt value) ∧ width = 1 ∧ -2 ^ 31 ≤ value ∧ value < 2 ^ 31 ∨
      c = .long (Int64.ofInt value) ∧ width = 2 ∧ -2 ^ 63 ≤ value ∧ value < 2 ^ 63)
    (h : (do emit (.constant (← pooled (.add c)) width) : Gen Unit) w = .ok u later) : w.Pushes value later := by
  simp only [bind_returns, pooled_returns, emit_returns] at h
  obtain ⟨index, _, ⟨pool, added, rfl⟩, code, run, rfl⟩ := h
  obtain ⟨-, -, found⟩ := Pooled.add_returns valid added
  obtain ⟨opcode, operands, item, family, -, formed⟩ := Item.constant_plain index width
  have written := Emit.constant_returns run
  have constant := (Item.constant_constant (fun _ => 0) · index width)
  rw [item] at written constant
  refine CodeBuffer.Written.pushes (w := w) written formed ?_ fun pc => ?_
  · have apart : ∀ opcode : Opcode, opcode.isIn .ldc .ldc2W = true →
        (opcode.isReturn || opcode = .athrow || opcode = .goto) = false := by
      decide +kernel
    exact apart opcode family
  · unfold Instruction.pushedInteger?
    rw [show Instruction.constant? { pc, opcode, operands } = _ from constant pc]
    rcases kept with ⟨rfl, rfl, low, high⟩ | ⟨rfl, rfl, low, high⟩
    · simp [found, Int32.toInt_ofInt_of_le low high]
    · simp [found, Int64.toInt_ofInt_of_le low high]

theorem pushInt_pushes (valid : w.pool.Valid) (low : -2 ^ 31 ≤ value) (high : value < 2 ^ 31)
    (h : pushInt value w = .ok u later) : w.Pushes value later := by
  obtain ⟨found, mid, run, rest⟩ := bind_returns.1 h
  obtain ⟨rfl, rfl⟩ | ⟨rfl, pushes⟩ := smallInt_pushes run
  · exact constant_pushes valid (.inl ⟨rfl, rfl, low, high⟩) rest
  · cases rest
    exact pushes

theorem longConstant_pushes (valid : w.pool.Valid) (low : -2 ^ 63 ≤ value) (high : value < 2 ^ 63)
    (h : longConstant value w = .ok u later) : w.Pushes value later := by
  have short {opcode : Opcode} (run : op opcode w = .ok u later) (pair : opcode ∈ [Opcode.lconst0, .lconst1])
      (same : ((opcode - .lconst0).toNat : Int) = value) : w.Pushes value later := by
    obtain ⟨code, put, rfl⟩ := emit_returns.1 run
    obtain ⟨_, _, -, written⟩ := Emit.op_returns put
    refine written.pushes (Item.wellFormed_of_length ?_) ?_ fun pc => ?_
    · fin_cases pair <;> rfl
    · fin_cases pair <;> rfl
    · rw [← same]
      fin_cases pair <;> rfl
  unfold longConstant at h
  split_ifs at h with zero one
  · exact short h (by decide) (by rw [zero]; rfl)
  · exact short h (by decide) (by rw [one]; rfl)
  · exact constant_pushes valid (.inr ⟨rfl, rfl, low, high⟩) h

theorem integerLiteral_returns {type : Descriptor} {bits : Nat}
    (h : integerLiteral negated t type bits w = .ok value later) :
    later = w ∧ t.integerValue negated = .ok value ∧ -2 ^ (bits - 1) ≤ value ∧ value < 2 ^ (bits - 1) := by
  simp only [integerLiteral, bind_returns, check_returns, ite_returns, pure_returns, throw_returns, and_false,
    or_false] at h
  obtain ⟨_, _, ⟨spelled, rfl⟩, range, rfl, rfl⟩ := h
  exact ⟨rfl, spelled, by exact_mod_cast range⟩

theorem literal_pushes {d : Descriptor} (integer : t.isInteger = true)
    (valid : w.pool.Valid) (h : literal negated t w = .ok d later) :
    d ∈ [Descriptor.int, .short, .long] ∧
      ∃ value, t.integerValue negated = .ok value ∧ t.kind.Holds value ∧ w.Pushes value later := by
  simp only [literal, bind_returns, check_returns] at h
  obtain ⟨type, _, ⟨typed, rfl⟩, run⟩ := h
  cases kind : t.kind <;> simp [Token.isInteger, kind] at integer <;>
    simp only [Token.literalType, kind, bind_returns, pure_returns] at typed run <;>
    obtain ⟨value, _, read, _, _, push, rfl, rfl⟩ := run <;>
    obtain ⟨rfl, spelled, low, high⟩ := integerLiteral_returns read <;> cases typed
  case int | short =>
    refine ⟨by decide, value, spelled, ⟨low, high⟩, pushInt_pushes valid ?_ ?_ push⟩ <;> omega
  case long => exact ⟨by decide, value, spelled, ⟨low, high⟩, longConstant_pushes valid low high push⟩

end Gen

def Opcode.widenings : List Opcode :=
  [.i2l, .i2f, .i2d, .l2f, .l2d]

variable {program : Program} {source target : Descriptor} {opcodes : List Opcode}

theorem Descriptor.widening_integer (integer : source ∈ [int, short, long])
    (h : source.widening? target = some opcodes) : opcodes ⊆ Opcode.widenings := by
  unfold widening? at h
  split_ifs at h with same widens <;> cases h
  · exact List.nil_subset _
  · fin_cases integer
    case _ | _ =>
      have among : target ∈ [int, long, float, double] := of_decide_eq_true widens
      fin_cases among <;> decide
    case _ =>
      have among : target ∈ [float, double] := of_decide_eq_true widens
      fin_cases among <;> decide

theorem Program.coercion_integer (integer : source ∈ [Descriptor.int, .short, .long]) :
    program.coercion? source target = (source.widening? target).map .convert := by
  unfold coercion?
  cases source.widening? target with
  | some opcodes => rfl
  | none =>
    have plain : source ≠ .null ∧ source.isReference = false ∧ source ≠ .object ∧ source.className? = none := by
      fin_cases integer <;> decide
    simp [plain]

namespace Gen

theorem ops_returns (widens : opcodes ⊆ Opcode.widenings) (h : ops opcodes w = .ok u later) :
    later.pool = w.pool ∧ (w.code.alive = true → later.code.bytes.toList = w.code.bytes.toList ++ opcodes) := by
  induction opcodes generalizing w with
  | nil =>
    cases h
    exact ⟨rfl, fun _ => by simp⟩
  | cons opcode rest ih =>
    obtain ⟨member, others⟩ := List.cons_subset.1 widens
    obtain ⟨_, mid, run, more⟩ := bind_returns.1 h
    obtain ⟨code, put, rfl⟩ := emit_returns.1 run
    obtain ⟨_, _, -, written⟩ := Emit.op_returns put
    obtain ⟨pool, bytes⟩ := ih others more
    refine ⟨pool, fun alive => ?_⟩
    have writes := written.writes alive
    have goesOn : (Item.plain opcode []).endsPath = false := by
      fin_cases member <;> rfl
    have added : code.bytes.toList = w.code.bytes.toList ++ [opcode] := writes.bytes
    rw [bytes (by rw [writes.ends, goesOn]; rfl), added, List.append_assoc]
    rfl

theorem coerce_integer (integer : source ∈ [Descriptor.int, .short, .long])
    (h : coerce program source target w = .ok u later) :
    ∃ opcodes ⊆ Opcode.widenings, later.pool = w.pool ∧
      (w.code.alive = true → later.code.bytes.toList = w.code.bytes.toList ++ opcodes) := by
  rw [coerce, Program.coercion_integer integer] at h
  cases widened : source.widening? target with
  | none =>
    rw [widened] at h
    cases h
  | some opcodes =>
    rw [widened] at h
    have widens := Descriptor.widening_integer integer widened
    exact ⟨opcodes, widens, ops_returns widens h⟩

end Gen

theorem decodeFrom_widenings (widens : opcodes ⊆ Opcode.widenings) (done : List Instruction) (pc : Nat) :
    ∃ conversions, Instruction.decodeFrom done pc opcodes = .ok (done.reverse ++ conversions) ∧
      ∀ c ∈ conversions, c.opcode ∈ Opcode.widenings := by
  induction opcodes generalizing done pc with
  | nil => exact ⟨[], by simp [Instruction.decodeFrom], by simp⟩
  | cons opcode rest ih =>
    obtain ⟨member, others⟩ := List.cons_subset.1 widens
    obtain ⟨conversions, decoded, each⟩ := ih others ({ pc, opcode, operands := [] } :: done) (pc + 1)
    have formed : (Item.plain opcode []).WellFormed := by
      fin_cases member <;> exact Item.wellFormed_of_length rfl
    refine ⟨{ pc, opcode, operands := [] } :: conversions, ?_, List.forall_mem_cons.2 ⟨member, each⟩⟩
    rw [show opcode :: rest = opcode :: ([] ++ rest) from rfl, Item.decodeFrom_cons (formed pc rest)]
    simpa using decoded

def Workspace.Keeps (value : Int) (w later : Workspace) : Prop :=
  w.code.alive = true → ∃ added i conversions, later.code.bytes.toList = w.code.bytes.toList ++ added ∧
    Instruction.decodeFrom [] w.code.pc added = .ok (i :: conversions) ∧
    i.pushedInteger? later.pool = some value ∧ ∀ c ∈ conversions, c.opcode ∈ Opcode.widenings

theorem Workspace.Pushes.keeps {mid : Workspace} (pushes : w.Pushes value mid) (widens : opcodes ⊆ Opcode.widenings)
    (pool : later.pool = mid.pool)
    (bytes : mid.code.alive = true → later.code.bytes.toList = mid.code.bytes.toList ++ opcodes) :
    w.Keeps value later := by
  intro alive
  obtain ⟨opcode, operands, alive', formed, added, pushed⟩ := pushes alive
  obtain ⟨conversions, decoded, each⟩ := decodeFrom_widenings widens
    [{ pc := w.code.pc, opcode, operands }] (w.code.pc + 1 + operands.length)
  refine ⟨opcode :: (operands ++ opcodes), _, conversions, ?_, ?_, pool ▸ pushed w.code.pc, each⟩
  · simp [bytes alive', added]
  · rw [Item.decodeFrom_cons (formed _ _)]
    exact decoded

theorem Token.integerValue_returns (h : t.integerValue negated = .ok value) :
    value = (if negated then -1 else 1) * (Text.ofDigits t.text.toList : Int) := by
  unfold integerValue at h
  dsimp only at h
  split_ifs at h with large sign <;> cases h <;> simp [sign]

def Token.asExpr (t : Token) (negated isGrouped : Bool) : Expr :=
  .operand (.atom (.literal t) (if negated then some .neg else none)) isGrouped

-- Code of an integer literal keeps its number, which lies within the type of the literal unless that is `short`
-- and a `char` is wanted.
theorem Expr.literal_value {ctx : Context} {t : Token} {negated isGrouped : Bool} {expected : Descriptor}
    (integer : t.isInteger = true) (valid : w.pool.Valid)
    (accepted : (t.asExpr negated isGrouped).codeAs ctx expected w = .ok () later) :
    ∃ value : Int, value = (if negated then -1 else 1) * (Text.ofDigits t.text.toList : Int) ∧ w.Keeps value later ∧
      (t.kind.Holds value ∨ t.kind = .short ∧ expected = .char ∧ 32768 ≤ value ∧ value ≤ 65535) := by
  unfold codeAs ExprCode.valueAs at accepted
  cases small : (t.asExpr negated isGrouped).intConstant?.filter expected.holds with
  | some value =>
    rw [small] at accepted
    obtain ⟨spelled, fits⟩ := Option.filter_eq_some_iff.1 small
    have read : (t.kind = .int ∨ t.kind = .short) ∧ t.integerValue negated = .ok value := by
      simp only [Token.asExpr, intConstant?] at spelled
      by_cases narrow : t.kind = .int ∨ t.kind = .short
      · rw [if_pos narrow] at spelled
        refine ⟨narrow, ?_⟩
        cases negated <;> exact toOption_eq_some.1 spelled
      · simp [narrow] at spelled
    obtain ⟨narrow, spelled⟩ := read
    have range : -128 ≤ value ∧ value ≤ 127 ∨ -32768 ≤ value ∧ value ≤ 32767 ∨
        expected = .char ∧ 0 ≤ value ∧ value ≤ 65535 := by
      unfold Descriptor.holds at fits
      split_ifs at fits with byte short char
      · exact .inl (of_decide_eq_true fits)
      · exact .inr (.inl (of_decide_eq_true fits))
      · exact .inr (.inr ⟨char, of_decide_eq_true fits⟩)
    have pushes := Gen.pushInt_pushes valid (by omega) (by omega) accepted
    refine ⟨value, Token.integerValue_returns spelled, pushes.keeps (List.nil_subset _) rfl (by simp), ?_⟩
    rcases narrow with kind | kind <;> simp only [TokenKind.Holds, TokenKind.bits, kind] <;> grind
  | none =>
    rw [small] at accepted
    obtain ⟨d, mid, run, coerced⟩ := bind_returns.1 accepted
    have run : Gen.literal negated t w = .ok d mid := by
      cases negated with
      | false =>
        change (ExprCode.literal t).value (some expected) w = _ at run
        unfold ExprCode.literal at run
        split_ifs at run <;> exact run
      | true => exact run
    obtain ⟨type, value, spelled, range, pushes⟩ := Gen.literal_pushes integer valid run
    obtain ⟨opcodes, widens, pool, bytes⟩ := Gen.coerce_integer type coerced
    exact ⟨value, Token.integerValue_returns spelled, pushes.keeps widens pool bytes, .inl range⟩

theorem Expr.literal_value_char :
    let own : Decl := ⟨⟨"A", "A", "A", none, {}, [], {}, [], ⟨"A.k"⟩, 1⟩, .enumeration []⟩
    let ctx : Context := ⟨⟨⟨[], own, []⟩, true, false, .void⟩, {}⟩
    let t : Token := ⟨.short, "40000", 1⟩
    ∃ later, (t.asExpr false false).codeAs ctx .char { pool := {} } = .ok () later ∧ ¬ t.kind.Holds 40000 ∧
      Workspace.Keeps 40000 { pool := {} } later := by
  intro own ctx t
  have run : ((t.asExpr false false).codeAs ctx .char).run' { pool := {} } = some () := by decide +kernel
  obtain ⟨later, run⟩ := run'_eq_some.1 run
  obtain ⟨value, spelled, keeps, -⟩ := Expr.literal_value (by decide) ConstantPool.valid_empty run
  obtain rfl : value = 40000 := spelled.trans (by decide)
  exact ⟨later, run, by simp [t, TokenKind.Holds, TokenKind.bits], keeps⟩

end ClassForge
