import ClassForge.Proofs.Emission
import ClassForge.Proofs.PoolHistory

set_option autoImplicit false

namespace ClassForge

variable {source target left right type : Descriptor} {opcodes : List Opcode} {opcode : Opcode} {program : Program}

section Opcodes

def Opcode.isQuiet (opcode : Opcode) : Bool :=
  opcode.isBare && opcode ≠ .athrow && !opcode.isIn .iload0 (.iload0 + 19)

theorem Opcode.bare_of_isQuiet (quiet : opcode.isQuiet = true) : opcode.isBare = true ∧ opcode ≠ .athrow := by
  simp only [isQuiet, Bool.and_eq_true, decide_eq_true_eq] at quiet
  exact quiet.1

theorem Opcode.isIn_of_isQuiet (quiet : opcode.isQuiet = true) : opcode.isIn .iload0 (.iload0 + 19) = false := by
  simp only [isQuiet, Bool.and_eq_true, Bool.not_eq_true'] at quiet
  exact quiet.2

theorem Kind.isQuiet_of_conversion {source target : Kind}
    (h : source.conversion? target = some opcode) : opcode.isQuiet = true := by
  cases source <;> cases target <;> simp_all [Kind.conversion?] <;> subst h <;> rfl

theorem Descriptor.isQuiet_of_widening
    (h : source.widening? target = some opcodes) : ∀ opcode ∈ opcodes, opcode.isQuiet = true := by
  unfold widening? at h
  split_ifs at h with same widens
  · cases h
    simp
  · cases h
    intro opcode member
    exact Kind.isQuiet_of_conversion (Option.mem_toList.1 member)

theorem Descriptor.isQuiet_of_primitiveCast
    (h : source.primitiveCast? target = some opcodes) : ∀ opcode ∈ opcodes, opcode.isQuiet = true := by
  unfold primitiveCast? at h
  split_ifs at h with same numeric
  · cases h
    simp
  · cases h
    intro opcode member
    rcases List.mem_append.1 member with converts | narrows
    · exact Kind.isQuiet_of_conversion (Option.mem_toList.1 converts)
    · unfold narrowing at narrows
      split_ifs at narrows <;> simp at narrows <;> subst narrows <;> rfl

theorem Program.isQuiet_of_coercion (h : program.coercion? source target = some (.convert opcodes)) :
    ∀ opcode ∈ opcodes, opcode.isQuiet = true := by
  unfold coercion? at h
  split at h
  next found =>
    cases h
    exact Descriptor.isQuiet_of_widening found
  next =>
    split_ifs at h with _ free _
    · cases h
      simp
    · cases h
    · split at h
      · split_ifs at h
        cases h
        simp
      · cases h

theorem Descriptor.isQuiet_arrayStore (d : Descriptor) : d.arrayStore.isQuiet = true := by
  unfold arrayStore
  split_ifs <;> rfl

namespace Descriptor

theorem promote_cases (h : left.promote? right = some type) :
    type = double ∨ type = float ∨ type = long ∨ type = int := by
  unfold promote? at h
  split_ifs at h <;> simp_all

theorem promote_integral (integral : left.isIntegral = true)
    (integral' : right.isIntegral = true) (h : left.promote? right = some type) : type = long ∨ type = int := by
  have notFloat {d : Descriptor} (h : d.isIntegral = true) : d ≠ double ∧ d ≠ float := by
    constructor <;> rintro rfl <;> revert h <;> decide
  have l := notFloat integral
  have r := notFloat integral'
  unfold promote? at h
  split_ifs at h <;> simp_all

inductive Computes (left right : Descriptor) : BinaryOp → Descriptor → Prop
  | concatenation (isString : left = string ∨ right = string) (value : left ≠ void)
      (value' : right ≠ void) : Computes left right .add string
  | arithmetic {op : BinaryOp} {type : Descriptor} (family : op ∈ [BinaryOp.add, .sub, .mul, .div, .rem])
      (promoted : left.promote? right = some type) : Computes left right op type
  | logic {op : BinaryOp} (family : op ∈ [BinaryOp.bitAnd, .bitOr, .bitXor]) (isBoolean : left = boolean)
      (isBoolean' : right = boolean) : Computes left right op boolean
  | bits {op : BinaryOp} {type : Descriptor} (family : op ∈ [BinaryOp.bitAnd, .bitOr, .bitXor])
      (integral : left.isIntegral = true) (integral' : right.isIntegral = true)
      (promoted : left.promote? right = some type) : Computes left right op type
  | shift {op : BinaryOp} {type : Descriptor} (family : op ∈ [BinaryOp.shl, .shr, .ushr])
      (integral : left.isIntegral = true) (integral' : right.isIntegral = true)
      (promoted : left.promote? left = some type) : Computes left right op type

inductive ComputesUnary (d : Descriptor) : UnaryOp → Descriptor → Prop
  | neg {result : Descriptor} (promoted : d.promote? d = some result) : ComputesUnary d .neg result
  | not (isBoolean : d = boolean) : ComputesUnary d .not boolean
  | bitNot {result : Descriptor} (integral : d.isIntegral = true)
      (promoted : d.promote? d = some result) : ComputesUnary d .bitNot result

theorem unaryResult_computes {op : UnaryOp} {d result : Descriptor}
    (h : d.unaryResult op = .ok result) : ComputesUnary d op result := by
  cases op <;> simp only [unaryResult] at h <;> split at h <;> try cases h
  next found => exact .neg found
  next found =>
    split_ifs at found with isBoolean
    cases found
    exact .not isBoolean
  next found =>
    split_ifs at found with integral
    exact .bitNot integral found

theorem binaryResult_computes {op : BinaryOp}
    (computes : ¬ op.isComparison = true) (notAnd : op ≠ .and) (notOr : op ≠ .or)
    (h : binaryResult op left right = .ok type) : Computes left right op type := by
  have h : binaryResult? op left right = some type := by
    unfold binaryResult at h
    split at h
    next found => cases h; exact found
    next => cases h
  cases op <;> simp only [BinaryOp.isComparison, not_true_eq_false] at computes
  case or => exact absurd rfl notOr
  case and => exact absurd rfl notAnd
  case add =>
    simp only [binaryResult?] at h
    split_ifs at h with strings
    · cases h
      exact .concatenation strings.1 strings.2.1 strings.2.2
    · exact .arithmetic (by simp) h
  case sub | mul | div | rem => exact .arithmetic (by simp) h
  case bitAnd | bitOr | bitXor =>
    simp only [binaryResult?] at h
    split_ifs at h with booleans integral
    · cases h
      exact .logic (by simp) booleans.1 booleans.2
    · rw [Bool.and_eq_true] at integral
      exact .bits (by simp) integral.1 integral.2 h
  case shl | shr | ushr =>
    simp only [binaryResult?] at h
    split_ifs at h with integral
    rw [Bool.and_eq_true] at integral
    exact .shift (by simp) integral.1 integral.2 h

end Descriptor

theorem BinaryOp.isQuiet_opcode {op : BinaryOp}
    (computes : Descriptor.Computes left right op type) (notString : type ≠ .string) :
    (op.opcode.ofFamily type.kind).isQuiet = true := by
  cases computes with
  | concatenation => exact absurd rfl notString
  | arithmetic family promoted =>
    fin_cases family <;> rcases Descriptor.promote_cases promoted with rfl | rfl | rfl | rfl <;> rfl
  | logic family => fin_cases family <;> rfl
  | bits family integral integral' promoted =>
    fin_cases family <;>
      rcases Descriptor.promote_integral integral integral' promoted with rfl | rfl <;> rfl
  | shift family integral _ promoted =>
    fin_cases family <;>
      rcases Descriptor.promote_integral integral integral promoted with rfl | rfl <;> rfl

theorem BinaryOp.isQuiet_compareOpcode (op : BinaryOp) (kind : Kind) : (op.compareOpcode kind).isQuiet = true := by
  cases op <;> cases kind <;> rfl

theorem BinaryOp.isBranch_zero (op : BinaryOp) : (Opcode.ifeq + op.conditionOffset).isBranch = true := by
  cases op <;> rfl

theorem BinaryOp.isBranch_pair (op : BinaryOp) : (Opcode.ifIcmpeq + op.conditionOffset).isBranch = true := by
  cases op <;> rfl

end Opcodes

def PoolRequest.named? : PoolRequest → Option (String × String)
  | .nameAndType name descriptor => some (name, descriptor)
  | .fieldRef _ name descriptor => some (name, descriptor)
  | .methodRef _ name descriptor => some (name, descriptor)
  | .interfaceMethodRef _ name descriptor => some (name, descriptor)
  | _ => none

variable {value : Option Descriptor → Gen Descriptor}

namespace Gen

abbrev Any {α : Type} (_ : α) : Prop :=
  True

inductive Leaf (ctx : Context) : {α : Type} → List String → Gen α → Prop
  | op {opcode : Opcode} (quiet : opcode.isQuiet = true) : Leaf ctx [] (op opcode)
  | smallInt (value : Int) : Leaf ctx [] (emit (.smallInt value))
  | newArray (code : UInt8) : Leaf ctx [] (emit (.opByte .newarray code))
  | own {name : String} (reached : ctx.Reaches name .this) : Leaf ctx [name] (emit (.load .reference 0))
  | bound {name : String} {slot : Nat} {d : Descriptor} {isFinal : Bool}
      (reached : ctx.Reaches name (.variable name slot d isFinal)) : Leaf ctx [name] (emit (.load d.kind slot))
  | constant (request : PoolRequest) (free : request.named? = none) (width : Nat) :
      Leaf ctx [] (do emit (.constant (← pooled request.step) width))
  | ofClass {opcode : Opcode} (family : opcode ∈ [Opcode.checkcast, .anewarray]) (name : String) :
      Leaf ctx [] (do emit (.opWord opcode (← pooled (.classRef name))))
  | new {owner : String} (can : owner = builder ∨ ctx.program.Instantiable owner) :
      Leaf ctx [] (do emit (.opWord .new (← pooled (.classRef owner))))
  | read {opcode : Opcode} {field : FieldTarget} (use : ctx.MayUse field)
      (reads : opcode = if field.isStatic then .getstatic else .getfield) : Leaf ctx [] (place.access opcode field)
  | call {m : MethodTarget} (may : ctx.MayCall m) : Leaf ctx [] (invoke m)
  | construct {owner : String} {arguments : List Expr} {types params : List Descriptor} {instantiates : Bool}
      (typed : Expr.typesIn ctx arguments = .ok types)
      (found : ctx.program.constructorFor owner types instantiates = .ok params) :
      Leaf ctx [] (invokeMethod .invokespecial owner constructorName params .void)
  | build : Leaf ctx [] (invokeMethod .invokespecial builder constructorName [] .void)
  | append {d argument : Descriptor} (typed : appendType d = .ok argument) :
      Leaf ctx [] (invokeMethod .invokevirtual builder "append" [argument] (.ofClass builder))
  | text : Leaf ctx [] (invokeMethod .invokevirtual builder "toString" [] .string)

/-- The same code twice, but for its labels: where one copy leaves by the first label of a target, the
other one leaves by the second. The code reads no more than the names, in their order. What is returned
`does` as it should. -/
inductive Composed (ctx : Context) :
    {α : Type} → List (Label × Label) → List String → (does : α → Prop) → Gen α → Gen α → Prop
  | done {α : Type} {targets : List (Label × Label)} {does : α → Prop} {a : α} (known : does a) :
      Composed ctx targets [] does (pure a) (pure a)
  | failed {α : Type} {targets : List (Label × Label)} {names : List String} {does : α → Prop} (cause : Cause) :
      Composed ctx targets names does (throw cause) (throw cause)
  | after {α β : Type} {targets : List (Label × Label)} {names others : List String} {does : α → Prop}
      {last : β → Prop} {x x' : Gen α} {f f' : α → Gen β} (first : Composed ctx targets names does x x')
      (second : ∀ a, does a → Composed ctx targets others last (f a) (f' a)) :
      Composed ctx targets (names ++ others) last (x >>= f) (x' >>= f')
  | checked {α β : Type} {targets : List (Label × Label)} {names : List String} {does : β → Prop}
      {result : Except Cause α} {f f' : α → Gen β}
      (second : ∀ a, result = .ok a → Composed ctx targets names does (f a) (f' a)) :
      Composed ctx targets names does (check result >>= f) (check result >>= f')
  | more {α : Type} {targets targets' : List (Label × Label)} {names names' : List String} {does last : α → Prop}
      {x x' : Gen α} (inner : Composed ctx targets names does x x') (known : targets ⊆ targets')
      (fewer : names.Sublist names') (implies : ∀ a, does a → last a) : Composed ctx targets' names' last x x'
  | leaf {α : Type} {targets : List (Label × Label)} {names : List String} {x : Gen α} (leaf : Leaf ctx names x) :
      Composed ctx targets names Any x x
  | jump {opcode : Opcode} (branch : opcode.isBranch = true) (label label' : Label) :
      Composed ctx [(label, label')] [] Any (emit (.jump opcode label)) (emit (.jump opcode label'))
  | condition {names : List String} {jump : Bool → Label → Gen Unit} {known : Prop}
      (each : ∀ expected label label',
        Composed ctx [(label, label')] names (fun _ => known) (jump expected label) (jump expected label')) :
      Composed ctx [] names (fun d => d = .boolean ∧ known) (condition jump) (condition jump)
  | skip {targets : List (Label × Label)} {names : List String} {known : Prop} {x x' : Label → Gen Unit}
      (each : ∀ label label', Composed ctx ((label, label') :: targets) names (fun _ => known) (x label) (x' label')) :
      Composed ctx targets names (fun _ => known) (do let skip ← emit .newLabel; x skip; emit (.place skip))
        (do let skip ← emit .newLabel; x' skip; emit (.place skip))

abbrev Made {α : Type} (ctx : Context) (targets : List (Label × Label)) (names : List String) (does : α → Prop)
    (x : Gen α) : Prop :=
  Composed ctx targets names does x x

variable {α β : Type} {ctx : Context} {targets : List (Label × Label)} {names others : List String}
variable {does last : α → Prop} {x x' : Gen α}

theorem Composed.anywhere (inner : Composed ctx [] names does x x') : Composed ctx targets names does x x' :=
  .more inner (List.nil_subset _) (.refl _) fun _ => id

theorem Composed.imp (inner : Composed ctx targets names does x x') (implies : ∀ a, does a → last a) :
    Composed ctx targets names last x x' :=
  .more inner (List.Subset.refl _) (.refl _) implies

theorem Composed.among (inner : Composed ctx targets names does x x') (fewer : names.Sublist others) :
    Composed ctx targets others does x x' :=
  .more inner (List.Subset.refl _) fewer fun _ => id

theorem Composed.next {last : β → Prop} {f f' : α → Gen β} (first : Composed ctx targets [] does x x')
    (second : ∀ a, Composed ctx targets names last (f a) (f' a)) :
    Composed ctx targets names last (x >>= f) (x' >>= f') :=
  .after first fun a _ => second a

theorem Composed.ends {last : β → Prop} {f f' : α → Gen β} (first : Composed ctx targets names does x x')
    (second : ∀ a, does a → Composed ctx targets [] last (f a) (f' a)) :
    Composed ctx targets names last (x >>= f) (x' >>= f') :=
  names.append_nil ▸ .after first second

theorem Composed.returns (composed : Composed ctx targets names does x x') {w later : Workspace} {a : α}
    (h : x w = .ok a later) : does a := by
  induction composed generalizing w later with
  | done known =>
    obtain ⟨rfl, -⟩ := pure_returns.1 h
    exact known
  | failed => exact (throw_returns.1 h).elim
  | after _ _ first second =>
    obtain ⟨b, mid, run, run'⟩ := bind_returns.1 h
    exact second b (first run) run'
  | checked _ second =>
    obtain ⟨b, mid, run, run'⟩ := bind_returns.1 h
    exact second b (check_returns.1 run).1 run'
  | more _ _ _ implies inner => exact implies _ (inner h)
  | condition _ each =>
    simp only [Gen.condition, bind_returns, pure_returns] at h
    obtain ⟨otherwise, _, -, _, _, -, _, _, run, _, _, -, _, _, -, _, _, -, _, _, -, _, _, -, rfl, -⟩ := h
    exact ⟨rfl, each false otherwise otherwise run⟩
  | skip _ each =>
    simp only [bind_returns] at h
    obtain ⟨skip, _, -, _, _, run, -⟩ := h
    exact each skip skip run
  | _ => trivial

theorem composed_ite {p : Prop} [Decidable p] {y y' : Gen α} (yes : p → Composed ctx targets names does x x')
    (no : ¬ p → Composed ctx targets names does y y') : Composed ctx targets names does (if p then x else y)
    (if p then x' else y') := by
  by_cases h : p
  · simpa only [if_pos h] using yes h
  · simpa only [if_neg h] using no h

theorem composed_guard {p : Prop} [Decidable p] {cause : Cause} {f f' : PUnit → Gen α}
    (passed : ¬ p → Composed ctx targets names does x x') :
    Composed ctx targets names does (if p then throw cause >>= f else x) (if p then throw cause >>= f' else x') := by
  refine composed_ite (fun _ => ?_) passed
  exact Composed.failed cause

theorem made_forM {xs : List α} {f : α → Gen Unit} (each : ∀ x ∈ xs, Made ctx targets [] Any (f x)) :
    Made ctx targets [] Any (forM xs f) := by
  induction xs with
  | nil => exact .done trivial
  | cons x xs ih =>
    rw [List.forM_cons]
    exact .next (each x List.mem_cons_self) fun _ => ih fun y member => each y (List.mem_cons_of_mem _ member)

theorem made_ops (quiet : ∀ opcode ∈ opcodes, opcode.isQuiet = true) : Made ctx targets [] Any (ops opcodes) :=
  made_forM fun opcode member => .leaf (.op (quiet opcode member))

theorem made_then {does : β → Prop} {step : Pooled UInt16} {use : UInt16 → Emit Unit} {next : Unit → Gen β}
    (first : Leaf ctx [] (do emit (use (← pooled step)))) (second : ∀ u, Made ctx targets names does (next u)) :
    Made ctx targets names does (pooled step >>= fun index => emit (use index) >>= next) := by
  have whole := Composed.next (.leaf first) second
  rwa [bind_assoc] at whole

theorem made_pushInt (value : Int) : Made ctx targets [] Any (pushInt value) :=
  .next (.leaf (.smallInt value)) fun _ => composed_ite (fun _ => .done trivial) fun _ =>
    .leaf (.constant (.integer _) rfl 1)

theorem made_coerce (program : Program) (found expected : Descriptor) :
    Made ctx targets [] Any (coerce program found expected) := by
  unfold coerce
  split
  next opcodes converts => exact made_ops (Program.isQuiet_of_coercion converts)
  next => exact .leaf (.ofClass (by simp) _)
  next => exact .failed _

theorem made_widen (source target : Descriptor) : Made ctx targets [] Any (widen source target) := by
  unfold widen
  split
  next opcodes widens => exact made_ops (Descriptor.isQuiet_of_widening widens)
  next => exact .failed _

theorem made_place {name : String} {p : Place} (reached : ctx.Reaches name p) :
    Made ctx targets [name] Any (place p) := by
  induction reached with
  | this isInstance own => exact .leaf (.own (.this isInstance own))
  | bound named found => exact .leaf (.bound (.bound named found))
  | staticField use isStatic =>
    exact .among (.leaf (.read use (by rw [if_pos isStatic]))) (List.nil_sublist _)
  | field _ _ use isInstance ih => exact .ends ih fun _ _ => .leaf (.read use (by simp [isInstance]))
  | length _ _ ih => exact .ends ih fun _ _ => .leaf (.op rfl)

variable {type : Except Cause Descriptor}

theorem composed_test (made : Made ctx [] names (type = .ok ·) (value none)) (expected : Bool) (label label' : Label) :
    Composed ctx [(label, label')] names (fun _ => type = .ok .boolean) (test value expected label)
      (test value expected label') := by
  refine .ends made.anywhere fun d typed => composed_guard fun isBoolean =>
    (Composed.jump ?_ label label').imp fun _ _ => ?_
  · cases expected <;> rfl
  · rwa [not_ne_iff.1 isBoolean] at typed

theorem made_appendValue (made : Made ctx [] names (type = .ok ·) (value none)) :
    Made ctx [] names Any (appendValue value) :=
  .ends made fun _ _ => .checked fun _ typed => .leaf (.append typed)

theorem made_concatenate {parts : Gen Unit} (made : Made ctx [] names Any parts) :
    Made ctx [] names (· = .string) (concatenate parts) := by
  refine made_then (.new (.inl rfl)) fun _ => .next (.leaf (.op rfl)) fun _ => .next (.leaf .build) fun _ => ?_
  exact .ends made fun _ _ => .next (.leaf .text) fun _ => .done rfl

theorem made_unary (operator : UnaryOp) (d : Descriptor) :
    Made ctx targets [] (d.unaryResult operator = .ok ·) (unary operator d) := by
  refine .checked fun result known => ?_
  have last (u : Unit) : Made ctx targets [] (d.unaryResult operator = .ok ·) (pure result) := .done known
  cases Descriptor.unaryResult_computes known with
  | neg promoted =>
    refine .next (.leaf (.op ?_)) last
    rcases Descriptor.promote_cases promoted with rfl | rfl | rfl | rfl <;> rfl
  | not => exact .next (made_ops (by intro opcode h; fin_cases h <;> rfl)) last
  | bitNot =>
    refine composed_ite (fun _ => ?_) fun _ => ?_
    · exact made_then (.constant (.long _) rfl 2) fun _ => .next (.leaf (.op rfl)) last
    · exact .next (made_ops (by intro opcode h; fin_cases h <;> rfl)) last

theorem made_longConstant (value : Int) : Made ctx targets [] Any (longConstant value) :=
  composed_ite (fun _ => .leaf (.op rfl)) fun _ => composed_ite (fun _ => .leaf (.op rfl)) fun _ =>
    .leaf (.constant (.long _) rfl 2)

theorem shortConstant_lt {format : Text.FloatFormat} {count bits n : Nat}
    (h : shortConstant? format count bits = some n) : n < count :=
  List.mem_range.1 (List.mem_of_find?_eq_some h)

theorem made_floatConstant (bits : Nat) : Made ctx targets [] Any (floatConstant bits) := by
  unfold floatConstant
  split
  next n short =>
    have := shortConstant_lt short
    exact .leaf (.op (by interval_cases n <;> rfl))
  next => exact .leaf (.constant (.float _) rfl 1)

theorem made_doubleConstant (bits : Nat) : Made ctx targets [] Any (doubleConstant bits) := by
  unfold doubleConstant
  split
  next n short =>
    have := shortConstant_lt short
    exact .leaf (.op (by interval_cases n <;> rfl))
  next => exact .leaf (.constant (.double _) rfl 2)

theorem made_integerLiteral (negated : Bool) (t : Token) (type : Descriptor) (bits : Nat) :
    Made ctx targets [] Any (integerLiteral negated t type bits) :=
  .checked fun _ _ => composed_ite (fun _ => .done trivial) fun _ => .failed _

theorem made_literal (negated : Bool) (t : Token) :
    Made ctx targets [] (t.literalType negated = .ok ·) (literal negated t) := by
  refine .checked fun type typed => ?_
  have last (u : Unit) : Made ctx targets [] (t.literalType negated = .ok ·) (pure type) := .done typed
  split
  · exact .next (made_integerLiteral _ _ _ _) fun _ => .next (made_longConstant _) last
  · exact .next (made_integerLiteral _ _ _ _) fun _ => .next (made_pushInt _) last
  · exact .next (made_integerLiteral _ _ _ _) fun _ => .next (made_pushInt _) last
  · exact .next (made_floatConstant _) last
  · exact .next (made_doubleConstant _) last
  · exact made_then (.constant (.string _) rfl 1) last
  · exact .next (composed_guard fun _ => made_pushInt _) last
  · exact composed_ite (fun _ => .next (.leaf (.op rfl)) last) fun _ =>
      composed_ite (fun _ => .next (.leaf (.op rfl)) last) fun _ => .next (.leaf (.op rfl)) last

end Gen

theorem isNegated_or (atom : Atom) (operator : UnaryOp) :
    (∃ t, atom = .literal t ∧ operator = .neg) ∨ ∀ t, atom = .literal t → operator ≠ .neg := by
  by_cases negated : ∃ t, atom = .literal t ∧ operator = .neg
  · exact .inl negated
  · exact .inr fun t literal isNeg => negated ⟨t, literal, isNeg⟩

variable {ctx : Context} {atom : Atom} {operator : UnaryOp} {expected : Option Descriptor} {tree : Expr}

theorem Operand.typeIn_unary (other : ∀ t, atom = .literal t → operator ≠ .neg) :
    (Operand.atom atom (some operator)).typeIn ctx expected =
      (do (← atom.typeIn ctx expected).unaryResult operator) := by
  rw [Operand.typeIn]
  intro t literal isNeg
  exact other t literal (Option.some_inj.1 isNeg)

theorem Operand.typeIn_atom : (Operand.atom atom none).typeIn ctx expected = atom.typeIn ctx expected := by
  rw [Operand.typeIn]
  · exact bind_pure _
  · intro t _ isNeg
    cases isNeg

theorem Descriptor.binaryResult_comparison {op : BinaryOp} {l r : Descriptor} (compares : op.isComparison = true)
    (h : binaryResult op l r = .ok type) : type = .boolean := by
  unfold binaryResult at h
  split at h
  next found =>
    cases h
    cases op <;> simp_all [BinaryOp.isComparison, binaryResult?]
  next => cases h

namespace ExprCode

open Gen (Made Any Composed composed_ite composed_guard made_then)

-- Generated code has the type that is told for its use; what is jumped on is a truth value.
structure Composed (ctx : Context) (names : List String) (type : Option Descriptor → Except Cause Descriptor)
    (code : ExprCode) : Prop where
  value : ∀ expected, Made ctx [] names (type expected = .ok ·) (code.value expected)
  jump : ∀ expected label label', Gen.Composed ctx [(label, label')] names (fun _ => type none = .ok .boolean)
    (code.jump expected label) (code.jump expected label')
  append : Made ctx [] names Any code.append

inductive Each {α : Type} (holds : List String → α → Prop) : List String → List α → Prop
  | nil : Each holds [] []
  | cons {names others : List String} {code : α} {codes : List α} (first : holds names code)
      (rest : Each holds others codes) : Each holds (names ++ others) (code :: codes)

def ArgsComposed (ctx : Context) : List String → List ArgCode → Prop :=
  Each fun names code => ∀ type, Made ctx [] names Any (code type)

variable {left right inner : ExprCode} {codes : List ArgCode} {whole : Except Cause Descriptor}
variable {type leftType rightType : Option Descriptor → Except Cause Descriptor} {names others : List String}

theorem composed_ofValue (made : ∀ expected, Made ctx [] names (type expected = .ok ·) (value expected)) :
    (ofValue value).Composed ctx names type where
  value := made
  jump := Gen.composed_test (made none)
  append := Gen.made_appendValue (made none)

theorem composed_parenthesized (composed : inner.Composed ctx names type) :
    inner.parenthesized.Composed ctx names type where
  value := composed.value
  jump := composed.jump
  append := Gen.made_appendValue (composed.value none)

theorem composed_ofJump {jump : Bool → Label → Gen Unit} (same : ∀ expected, type expected = type none)
    (each : ∀ expected label label', Gen.Composed ctx [(label, label')] names (fun _ => type none = .ok .boolean)
      (jump expected label) (jump expected label')) : (binary.ofJump jump).Composed ctx names type := by
  have value (expected : Option Descriptor) : Made ctx [] names (type expected = .ok ·) (Gen.condition jump) :=
    (Gen.Composed.condition each).imp fun d known => by rw [same, known.1, known.2]
  have append : Made ctx [] names Any (Gen.appendValue fun _ => Gen.condition jump) := Gen.made_appendValue (value none)
  exact ⟨value, each, append⟩

section Operands

variable (first : left.Composed ctx names leftType) (second : right.Composed ctx others rightType) {op : BinaryOp}
include first second

theorem composed_compareNumbers (op condition : BinaryOp) (l r type : Descriptor) (label label' : Label) :
    Gen.Composed ctx [(label, label')] (names ++ others) Any (compareNumbers op condition left right l r type label)
      (compareNumbers op condition left right l r type label') := by
  refine .after (first.value none).anywhere fun _ _ => .next (Gen.made_widen l type) fun _ => ?_
  refine .ends (second.value none).anywhere fun _ _ => .next (Gen.made_widen r type) fun _ => ?_
  refine composed_ite (fun _ => .jump condition.isBranch_pair _ _) fun _ => ?_
  exact .next (.leaf (.op (op.isQuiet_compareOpcode _))) fun _ => .jump condition.isBranch_zero _ _

theorem composed_compareReferences (isEqual : Bool) (l r : Descriptor) (label label' : Label) :
    Gen.Composed ctx [(label, label')] (names ++ others) Any (compareReferences isEqual left right l r label)
      (compareReferences isEqual left right l r label') := by
  refine composed_ite (fun _ => ?_) fun _ => ?_
  · have either : Made ctx [] (names ++ others) Any ((if r = .null then left else right).value none) := by
      split_ifs
      · exact .more (first.value none) (.refl _) (List.sublist_append_left _ _) fun _ _ => trivial
      · exact .more (second.value none) (.refl _) (List.sublist_append_right _ _) fun _ _ => trivial
    refine .ends either.anywhere fun _ _ => .jump ?_ _ _
    cases isEqual <;> rfl
  · refine .after (first.value none).anywhere fun _ _ => .ends (second.value none).anywhere fun _ _ => .jump ?_ _ _
    cases isEqual <;> rfl

theorem composed_compare {leftTree rightTree : Expr} (told : ∀ l r, leftTree.typeIn ctx none = .ok l →
      rightTree.typeIn ctx none = .ok r → whole = Descriptor.binaryResult op l r)
    (compares : op.isComparison = true) (expected : Bool) (label label' : Label) :
    Gen.Composed ctx [(label, label')] (names ++ others) (fun _ => whole = .ok .boolean)
      (compare ctx op leftTree rightTree left right expected label)
      (compare ctx op leftTree rightTree left right expected label') := by
  refine .checked fun l typed => .checked fun r typed' => .checked fun result known => ?_
  have isBoolean : whole = .ok .boolean := by
    rw [told l r typed typed', known, Descriptor.binaryResult_comparison compares known]
  refine Gen.Composed.imp ?_ fun _ (_ : Any ()) => isBoolean
  dsimp only
  split
  next type _ =>
    refine composed_ite (fun _ => ?_) fun _ => composed_compareNumbers first second _ _ _ _ _ _ _
    refine .among ?_ (List.sublist_append_left _ _)
    exact .ends (first.value none).anywhere fun _ _ => .jump (BinaryOp.isBranch_zero _) _ _
  next =>
    refine composed_ite (fun _ => ?_) fun _ => composed_compareReferences first second _ _ _ _ _
    refine .after (first.value none).anywhere fun _ _ => .ends (second.value none).anywhere fun _ _ => ?_
    exact .jump (BinaryOp.isBranch_pair _) _ _

theorem made_arithmetic {leftTree rightTree : Expr} (computes : ¬ op.isComparison = true)
    (notAnd : op ≠ .and) (notOr : op ≠ .or) (told : ∀ l r, leftTree.typeIn ctx none = .ok l →
      rightTree.typeIn ctx none = .ok r → whole = Descriptor.binaryResult op l r) :
    Made ctx [] (names ++ others) (whole = .ok ·) (arithmetic ctx op leftTree rightTree left right) := by
  refine .checked fun l typed => .checked fun r typed' => .checked fun result known => ?_
  rw [told l r typed typed', known]
  refine composed_ite (fun isString => ?_) fun notString => ?_
  · refine (Gen.made_concatenate (.after first.append fun _ _ => second.append)).imp fun d same => ?_
    rw [isString, same]
  · have quiet := BinaryOp.isQuiet_opcode (Descriptor.binaryResult_computes computes notAnd notOr known) notString
    have last (u : Unit) : Made ctx [] [] ((.ok result : Except Cause Descriptor) = .ok ·)
        (do Gen.op (op.opcode.ofFamily result.kind); pure result) :=
      .next (.leaf (.op quiet)) fun _ => .done rfl
    refine .after (first.value none) fun _ _ => .next (Gen.made_widen l result) fun _ => ?_
    refine .ends (second.value none) fun _ _ => composed_ite (fun _ => ?_) fun _ => ?_
    · exact composed_ite (fun _ => .next (.leaf (.op rfl)) last) fun _ => last ()
    · exact .next (Gen.made_widen r result) last

end Operands

section Logic

variable {op : BinaryOp} (logical : op = .and ∨ op = .or)
  (told : ∀ l r, leftType none = .ok l → rightType none = .ok r →
    whole = Descriptor.binaryResult op l r) (first : left.Composed ctx names leftType)
    (second : right.Composed ctx others rightType) (expected expected' : Bool) (label label' : Label)
include logical told first second

theorem composed_jumps : Gen.Composed ctx [(label, label')] (names ++ others) (fun _ => whole = .ok .boolean)
    (do left.jump expected label; right.jump expected' label)
    (do left.jump expected label'; right.jump expected' label') := by
  refine .after (first.jump expected label label') fun _ typed =>
    (second.jump expected' label label').imp fun _ typed' => ?_
  rw [told _ _ typed typed']
  rcases logical with rfl | rfl <;> rfl

theorem composed_sides : Gen.Composed ctx [(label, label')] (names ++ others) (fun _ => whole = .ok .boolean)
    (do let skip ← Gen.emit .newLabel; left.jump expected skip; right.jump expected' label; Gen.emit (.place skip))
    (do
      let skip ← Gen.emit .newLabel
      left.jump expected skip
      right.jump expected' label'
      Gen.emit (.place skip)) := by
  have inner (skip skip' : Label) :
      Gen.Composed ctx [(skip, skip'), (label, label')] (names ++ others) (fun _ => whole = .ok .boolean)
      (do left.jump expected skip; right.jump expected' label)
      (do left.jump expected skip'; right.jump expected' label') := by
    refine .after (.more (first.jump expected skip skip') (by simp) (.refl _) fun _ => id) fun _ typed => ?_
    refine .more (second.jump expected' label label') (by simp) (.refl _) fun _ typed' => ?_
    rw [told _ _ typed typed']
    rcases logical with rfl | rfl <;> rfl
  have skipped := Gen.Composed.skip inner
  simpa only [bind_assoc] using skipped

end Logic

theorem composed_binary {op : BinaryOp} {leftTree rightTree : Expr} {grouped : Bool}
    (first : left.Composed ctx names fun expected => leftTree.typeIn ctx expected)
    (second : right.Composed ctx others fun expected => rightTree.typeIn ctx expected) :
    (binary ctx op leftTree rightTree left right).Composed ctx (names ++ others)
      fun expected => (Expr.binary op leftTree rightTree grouped).typeIn ctx expected := by
  have told (expected : Option Descriptor) (l r : Descriptor) (typed : leftTree.typeIn ctx none = .ok l)
      (typed' : rightTree.typeIn ctx none = .ok r) :
      (Expr.binary op leftTree rightTree grouped).typeIn ctx expected = Descriptor.binaryResult op l r := by
    rw [Expr.typeIn, typed, typed']
    rfl
  have same (expected : Option Descriptor) : (Expr.binary op leftTree rightTree grouped).typeIn ctx expected =
      (Expr.binary op leftTree rightTree grouped).typeIn ctx none := by
    rw [Expr.typeIn, Expr.typeIn]
  unfold binary
  split_ifs with isAnd isOr compares
  · refine composed_ofJump same fun expected label label' => composed_ite (fun _ => ?_) fun _ => ?_
    · exact composed_sides (.inl isAnd) (told none) first second _ _ label label'
    · exact composed_jumps (.inl isAnd) (told none) first second _ _ label label'
  · refine composed_ofJump same fun expected label label' => composed_ite (fun _ => ?_) fun _ => ?_
    · exact composed_jumps (.inr isOr) (told none) first second _ _ label label'
    · exact composed_sides (.inr isOr) (told none) first second _ _ label label'
  · exact composed_ofJump same (composed_compare first second (told none) compares)
  · have value := fun expected => made_arithmetic first second compares isAnd isOr (told expected)
    refine ⟨value, (composed_ofValue value).jump, ?_⟩
    refine .checked fun l _ => .checked fun r _ => .checked fun type _ => ?_
    exact composed_ite (fun _ => .after first.append fun _ _ => second.append)
      fun _ => Gen.made_appendValue (value none)

theorem composed_literal (t : Token) : (literal t).Composed ctx [] fun _ => t.literalType false := by
  have value : (ofValue fun _ => Gen.literal false t).Composed ctx [] fun _ => t.literalType false :=
    composed_ofValue fun _ => Gen.made_literal false t
  unfold literal
  split_ifs with isWord
  · have kind : t.kind = .identifier := by
      rcases isWord with h | h <;> simp only [Token.isWord, decide_eq_true_eq] at h <;> exact h.1
    have typed : t.literalType false = .ok .boolean := by simp [Token.literalType, kind, isWord]
    refine ⟨value.value, fun expected label label' => composed_ite (fun _ => ?_) fun _ => .done typed, value.append⟩
    exact (Gen.Composed.jump rfl label label').imp fun _ _ => typed
  · exact value

theorem underUnary_value (other : ∀ t, atom = .literal t → operator ≠ .neg) :
    (underUnary atom operator inner).value expected = (do Gen.unary operator (← inner.value expected)) := by
  cases atom with
  | literal t => cases operator <;> first | rfl | exact absurd rfl (other t rfl)
  | _ => cases operator <;> rfl

theorem composed_underUnary (composed : inner.Composed ctx names fun expected => atom.typeIn ctx expected) :
    (underUnary atom operator inner).Composed ctx names
      fun expected => (Operand.atom atom (some operator)).typeIn ctx expected := by
  have value (expected : Option Descriptor) :
    Made ctx [] names ((Operand.atom atom (some operator)).typeIn ctx expected = .ok ·)
      ((underUnary atom operator inner).value expected) := by
    rcases isNegated_or atom operator with ⟨t, rfl, rfl⟩ | other
    · rw [Operand.typeIn]
      exact (Gen.made_literal true t).among (List.nil_sublist _)
    · rw [underUnary_value other, Operand.typeIn_unary other]
      refine .ends (composed.value expected) fun d typed => ?_
      rw [typed]
      exact Gen.made_unary operator d
  cases operator
  case not =>
    refine ⟨value, fun expected label label' => ?_, Gen.made_appendValue (value none)⟩
    refine (composed.jump (!expected) label label').imp fun _ typed => ?_
    rw [Operand.typeIn_unary (by simp), typed]
    rfl
  all_goals exact composed_ofValue value

theorem composed_cast {target : TypeName} (composed : inner.Composed ctx names type) :
    (cast ctx target inner).Composed ctx names fun expected => (Operand.cast target tree).typeIn ctx expected := by
  refine composed_ofValue fun _ => ?_
  rw [Operand.typeIn]
  refine .checked fun d typed => .ends (composed.value none) fun found _ => ?_
  have last (u : Unit) : Made ctx [] [] (ctx.scope.descriptor target = .ok ·) (pure d) := .done typed
  refine composed_ite (fun _ => ?_) fun _ => composed_ite (fun _ => ?_) fun _ => ?_
  · split
    next opcodes casts => exact .next (Gen.made_ops (Descriptor.isQuiet_of_primitiveCast casts)) last
    next => exact (Gen.Composed.failed _ : Made ctx [] [] Any _).next last
  · split
    next => exact last ()
    next => exact made_then (.ofClass (by simp) _) last
  · exact composed_guard fun _ => last ()

theorem made_all (composed : ArgsComposed ctx names codes) (params : List Descriptor) :
    Made ctx [] names Any (ArgCode.all codes params) := by
  induction composed generalizing params with
  | nil => exact .done trivial
  | cons first _ ih =>
    cases params with
    | nil => exact .among (.done trivial) (List.nil_sublist _)
    | cons type params => exact .after (first type) fun _ _ => ih params

theorem made_elements (composed : ArgsComposed ctx names codes) (type : Descriptor) (position : Nat) :
    Made ctx [] names Any (elements type position codes) := by
  induction composed generalizing position with
  | nil => exact .done trivial
  | cons first _ ih =>
    refine .next (.leaf (.op rfl)) fun _ => .next (Gen.made_pushInt _) fun _ => ?_
    exact .after (first type) fun _ _ => .next (.leaf (.op type.isQuiet_arrayStore)) fun _ => ih _

theorem composed_array (composed : ArgsComposed ctx names codes) : (array type codes).Composed ctx names type := by
  refine composed_ofValue fun expected => .checked fun d typed => .next (Gen.made_pushInt _) fun _ => ?_
  have last (u : Unit) : Made ctx [] names (type expected = .ok ·) (do elements (d.element?.getD d) 0 codes; pure d) :=
    .ends (made_elements composed _ _) fun _ _ => .done typed
  split
  next code _ => exact .next (.leaf (.newArray code)) last
  next => exact made_then (.ofClass (by simp) _) last

theorem composed_create {className : String} {arguments : List Expr} (composed : ArgsComposed ctx names codes) :
    (create ctx className arguments codes).Composed ctx names
      fun expected => (Operand.create className arguments).typeIn ctx expected := by
  refine composed_ofValue fun _ => ?_
  rw [Operand.typeIn, Scope.internalName]
  refine .checked fun d known => ?_
  rw [known]
  split
  next => exact .failed _
  next owner isClass =>
    refine .checked fun types typed => .checked fun params found => ?_
    obtain ⟨-, -, can⟩ := Program.constructorFor_found found
    refine made_then (.new (.inr (can rfl))) fun _ => .next (.leaf (.op rfl)) fun _ =>
      .ends (made_all composed params) fun _ _ => ?_
    refine .next (.leaf (.construct typed found)) fun _ => .done ?_
    change Except.ok (Descriptor.ofClass (d.className?.getD d.text)) = _
    rw [isClass]
    rfl

theorem made_receiver {root : String} {base : Option Referent} {m : MethodTarget}
    (own : base = none → m.isStatic = false → ctx.Reaches root .this)
    (reached : ∀ p, base = some (.value p) → ctx.Reaches root p) : Made ctx [] [root] Any (receiver base m) := by
  have nothing : Made ctx [] [root] Any (pure ()) := .among (.done trivial) (List.nil_sublist _)
  refine composed_ite (fun _ => nothing) fun isInstance => ?_
  split
  next => exact Gen.made_place (own rfl (by simpa using isInstance))
  next p => exact Gen.made_place (reached p rfl)
  next => exact nothing

theorem made_laterCalls {codes : List (List ArgCode)} (composed : Each (ArgsComposed ctx) names codes)
    {methods : List MethodTarget} (may : ∀ m ∈ methods, ctx.MayCall m) :
    Made ctx [] names Any (laterCalls (codes.zip methods)) := by
  induction composed generalizing methods with
  | nil => exact .done trivial
  | @cons names others args codes first _ ih =>
    cases methods with
    | nil => exact .among (.done trivial) (List.nil_sublist _)
    | cons m methods =>
      obtain ⟨mayFirst, may⟩ := List.forall_mem_cons.1 may
      have last (u : Unit) : Made ctx [] (names ++ others) Any
          (do ArgCode.all args m.params; Gen.invoke m; laterCalls (codes.zip methods)) :=
        .after (made_all first _) fun _ _ => .next (.leaf (.call mayFirst)) fun _ => ih may
      exact composed_ite (fun _ => .next (.leaf (.op rfl)) last) fun _ => last ()

theorem composed_load {head : Head} {links : List Call} {codes : List (List ArgCode)}
    (composed : Each (ArgsComposed ctx) names codes) :
    (load ctx head links codes).Composed ctx (head.root :: names)
      fun expected => (Atom.load head links).typeIn ctx expected := by
  refine composed_ofValue fun _ => .checked fun base resolved => ?_
  rw [Atom.typeIn, resolved]
  have reached (p : Place) (h : base = some (.value p)) : ctx.Reaches head.root p :=
    Context.resolveHead_reached (h ▸ resolved)
  cases links with
  | nil =>
    dsimp only
    split
    next p =>
      refine .among ?_ (.cons_cons _ (List.nil_sublist _))
      exact .ends (Gen.made_place (reached p rfl)) fun _ _ => .done rfl
    next => exact .failed _
  | cons link rest =>
    refine .checked fun methods found => ?_
    change Made ctx [] _ (Call.methodsIn ctx base none (link :: rest) >>= _ = .ok ·) _
    rw [found]
    suffices chain : Made ctx [] (head.root :: names) Any (calls base (codes.zip methods)) from
      chain.ends fun _ _ => .done rfl
    have may := Call.mayCall_of_methodsIn found
    obtain ⟨name, arguments⟩ := link
    obtain ⟨types, m, others, -, first, -, rfl⟩ := Call.methodsIn_cons.1 found
    obtain ⟨mayFirst, may⟩ := List.forall_mem_cons.1 may
    cases composed with
    | nil => exact .among (.done trivial) (List.nil_sublist _)
    | cons composedArgs composed =>
      obtain ⟨-, static⟩ := Context.firstMethod_returns first
      have own : base = none → m.isStatic = false → ctx.Reaches head.root .this := by
        rintro rfl isInstance
        refine .this ?_ (.inl (Context.root_of_implicit resolved))
        by_contra inStatic
        rw [static (by simpa [Context.needsStatic] using inStatic)] at isInstance
        cases isInstance
      refine .after (made_receiver own reached) fun _ _ => ?_
      refine .after (made_all composedArgs _) fun _ _ => .next (.leaf (.call mayFirst)) fun _ => ?_
      exact made_laterCalls composed may

theorem made_valueAs (composed : inner.Composed ctx names type)
    (expected : Descriptor) : Made ctx [] names Any (valueAs program tree inner expected) := by
  unfold valueAs
  split
  next value _ => exact (Gen.made_pushInt value).among (List.nil_sublist _)
  next => exact .ends (composed.value _) fun found _ => Gen.made_coerce _ _ _

end ExprCode

-- The names that the uses in a tree start with, in the order in which it is evaluated.
mutual

def Expr.roots : Expr → List String
  | .operand arg _ => arg.roots
  | .binary _ left right _ => left.roots ++ right.roots

def Operand.roots : Operand → List String
  | .atom value _ => value.roots
  | .cast _ inner => inner.roots
  | .array elements => Expr.allRoots elements
  | .create _ arguments => Expr.allRoots arguments

def Atom.roots : Atom → List String
  | .literal _ => []
  | .load head links => head.root :: Call.allRoots links
  | .nested inner => inner.roots

def Expr.allRoots : List Expr → List String
  | [] => []
  | tree :: rest => tree.roots ++ Expr.allRoots rest

def Call.allRoots : List Call → List String
  | [] => []
  | .call _ arguments :: rest => Expr.allRoots arguments ++ Call.allRoots rest

end

section Expressions

variable (ctx)

mutual

theorem Expr.code_composed : (tree : Expr) →
    (tree.code ctx).Composed ctx tree.roots fun expected => tree.typeIn ctx expected
  | .operand arg _ => by
    simp only [Expr.code, Expr.typeIn, Expr.roots]
    exact Operand.code_composed arg
  | .binary op left right _ => by
    rw [Expr.code, Expr.roots]
    exact ExprCode.composed_binary (Expr.code_composed left) (Expr.code_composed right)

theorem Operand.code_composed : (arg : Operand) →
    (arg.code ctx).Composed ctx arg.roots fun expected => arg.typeIn ctx expected
  | .atom value none => by
    simp only [Operand.code, Operand.typeIn_atom, Operand.roots]
    exact Atom.code_composed value
  | .atom value (some operator) => by
    rw [Operand.code, Operand.roots]
    exact ExprCode.composed_underUnary (Atom.code_composed value)
  | .cast target inner => by
    rw [Operand.code, Operand.roots]
    exact ExprCode.composed_cast (Expr.code_composed inner)
  | .array elements => by
    rw [Operand.code, Operand.roots]
    exact ExprCode.composed_array (Expr.argCodes_composed elements)
  | .create className arguments => by
    rw [Operand.code, Operand.roots]
    exact ExprCode.composed_create (Expr.argCodes_composed arguments)

theorem Atom.code_composed : (atom : Atom) →
    (atom.code ctx).Composed ctx atom.roots fun expected => atom.typeIn ctx expected
  | .literal t => by
    simp only [Atom.code, Atom.typeIn, Atom.roots]
    exact ExprCode.composed_literal t
  | .nested inner => by
    simp only [Atom.code, Atom.typeIn, Atom.roots]
    exact ExprCode.composed_parenthesized (Expr.code_composed inner)
  | .load head links => by
    rw [Atom.code, Atom.roots]
    exact ExprCode.composed_load (Call.argCodes_composed links)

theorem Expr.argCodes_composed : (trees : List Expr) →
    ExprCode.ArgsComposed ctx (Expr.allRoots trees) (Expr.argCodes ctx trees)
  | [] => by
    rw [Expr.argCodes, Expr.allRoots]
    exact .nil
  | tree :: rest => by
    rw [Expr.argCodes, Expr.allRoots]
    exact .cons (fun type => ExprCode.made_valueAs (Expr.code_composed tree) type) (Expr.argCodes_composed rest)

theorem Call.argCodes_composed : (links : List Call) →
    ExprCode.Each (ExprCode.ArgsComposed ctx) (Call.allRoots links) (Call.argCodes ctx links)
  | [] => by
    rw [Call.argCodes, Call.allRoots]
    exact .nil
  | .call name arguments :: rest => by
    rw [Call.argCodes, Call.allRoots]
    exact .cons (Expr.argCodes_composed arguments) (Call.argCodes_composed rest)

end

theorem Expr.codeAs_made (tree : Expr) (expected : Descriptor) :
    Gen.Made ctx [] tree.roots Gen.Any (tree.codeAs ctx expected) :=
  ExprCode.made_valueAs (tree.code_composed ctx) expected

end Expressions

end ClassForge
