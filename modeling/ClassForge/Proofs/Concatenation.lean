import ClassForge.Proofs.Composition

set_option autoImplicit false

namespace ClassForge

namespace Expr

def summands : Expr → List Expr
  | .binary .add left right _ => left.summands ++ right.summands
  | tree => [tree]

-- What is appended one after the other to make the string. Sums of numbers stay whole.
def concatParts (ctx : Context) : Expr → Except Cause (List Expr)
  | .binary .add left right isGrouped => do
    if (← Expr.typeIn ctx none (.binary .add left right isGrouped)) = .string then
      return (← left.concatParts ctx) ++ (← right.concatParts ctx)
    return [.binary .add left right isGrouped]
  | tree => return [tree]

end Expr

-- A value as the machine holds it; a reference may be to nothing.
inductive Datum (ρ : Type) where
  | int (n : Int32)
  | long (n : Int64)
  | float (bits : UInt32)
  | double (bits : UInt64)
  | reference (object : Option ρ)

inductive Datum.Fits {ρ : Type} : Datum ρ → Descriptor → Prop
  | boolean (b : Bool) : Fits (.int (if b then 1 else 0)) .boolean
  | int {d : Descriptor} (n : Int32) (small : d ∈ [Descriptor.char, .byte, .short, .int]) : Fits (.int n) d
  | long (n : Int64) : Fits (.long n) .long
  | float (bits : UInt32) : Fits (.float bits) .float
  | double (bits : UInt64) : Fits (.double bits) .double
  | reference {d : Descriptor} (object : Option ρ) (among : d.isReferenceOrNull = true) : Fits (.reference object) d

-- Objects with their texts, which are made of 16-bit units, and the arithmetic of numbers.
structure Runtime (ρ : Type) where
  text : ρ → List UInt16
  make : List UInt16 → ρ
  text_make : ∀ units, text (make units) = units
  floatText : UInt32 → List UInt16
  doubleText : UInt64 → List UInt16
  sum : Descriptor → Datum ρ → Datum ρ → Datum ρ
  sum_fits : ∀ d ∈ [Descriptor.int, .long, .float, .double], ∀ v v', (sum d v v').Fits d

namespace Runtime

variable {ρ : Type} (m : Runtime ρ)

def ascii (text : String) : List UInt16 :=
  text.toList.flatMap Text.units

def convert (type : Descriptor) : Datum ρ → List UInt16
  | .int n =>
    if type = .boolean then ascii (toString (n != 0))
    else if type = .char then [n.toUInt32.toUInt16]
    else ascii (toString n)
  | .long n => ascii (toString n)
  | .float bits => m.floatText bits
  | .double bits => m.doubleText bits
  | .reference object => object.elim (ascii "null") m.text

-- What `append` adds to a string when its parameter has this type; it takes no other values than those listed.
def appended? (parameter : Descriptor) (v : Datum ρ) : Option (List UInt16) :=
  match v with
  | .int n =>
    if parameter = .boolean then some (ascii (if n = 1 then "true" else "false"))
    else if parameter = .char then some [n.toUInt32.toUInt16]
    else if parameter = .int then some (ascii (toString n))
    else none
  | .long n => if parameter = .long then some (ascii (toString n)) else none
  | .float bits => if parameter = .float then some (m.floatText bits) else none
  | .double bits => if parameter = .double then some (m.doubleText bits) else none
  | .reference none => if parameter ∈ [Descriptor.string, .object] then some (ascii "null") else none
  | .reference (some object) => if parameter ∈ [Descriptor.string, .object] then some (m.text object) else none

-- The value of a sum, operator by operator, when other expressions have the given values.
def eval (ctx : Context) (value : Expr → Datum ρ) : Expr → Datum ρ
  | .binary .add left right isGrouped =>
    match left.typeIn ctx none, right.typeIn ctx none with
    | .ok l, .ok r =>
      match Descriptor.binaryResult .add l r with
      | .ok d =>
        if d = .string then
          .reference (some (m.make (m.convert l (eval ctx value left) ++ m.convert r (eval ctx value right))))
        else m.sum d (eval ctx value left) (eval ctx value right)
      | _ => value (.binary .add left right isGrouped)
    | _, _ => value (.binary .add left right isGrouped)
  | tree => value tree

def addedBy? (ctx : Context) (value : Expr → Datum ρ) (part : Expr) : Option (List UInt16) := do
  let d ← (part.typeIn ctx none).toOption
  m.appended? (← (Gen.appendType d).toOption) (m.eval ctx value part)

variable {m} {ctx : Context} {value : Expr → Datum ρ} {d l r : Descriptor} {left right tree : Expr} {isGrouped : Bool}
  {v : Datum ρ}

theorem appended_of_fits (fits : v.Fits d) :
    ∃ parameter, Gen.appendType d = .ok parameter ∧ m.appended? parameter v = some (m.convert d v) := by
  cases fits with
  | boolean b => exact ⟨.boolean, by decide, by cases b <;> rfl⟩
  | int n small => fin_cases small <;> exact ⟨_, rfl, rfl⟩
  | long n => exact ⟨.long, by decide, rfl⟩
  | float bits => exact ⟨.float, by decide, rfl⟩
  | double bits => exact ⟨.double, by decide, rfl⟩
  | reference object among =>
    have taken : m.appended? .string (.reference object) = some (m.convert d (.reference object)) ∧
        m.appended? .object (.reference object) = some (m.convert d (.reference object)) := by
      cases object <;> exact ⟨rfl, rfl⟩
    unfold Gen.appendType
    split_ifs with void listed small
    · subst void
      cases among
    · obtain rfl : d = .string := by
        fin_cases listed <;> first | rfl | cases among
      exact ⟨_, rfl, taken.1⟩
    · simp only [Descriptor.isIntFamily, decide_eq_true_eq] at small
      fin_cases small <;> cases among
    · exact ⟨_, rfl, taken.2⟩

end Runtime

namespace Expr

variable {ctx : Context} {d : Descriptor} {left right tree : Expr} {isGrouped : Bool}

theorem typeIn_sum : Expr.typeIn ctx none (.binary .add left right isGrouped) = .ok d ↔
    ∃ l r, left.typeIn ctx none = .ok l ∧ right.typeIn ctx none = .ok r ∧ Descriptor.binaryResult .add l r = .ok d := by
  simp [typeIn, bind_eq_ok]

theorem code_sum (typed : Expr.typeIn ctx none (.binary .add left right isGrouped) = .ok .string) :
    (Expr.code ctx (.binary .add left right isGrouped)).append = (do
      (left.code ctx).append
      (right.code ctx).append) ∧
    (Expr.code ctx (.binary .add left right isGrouped)).value none =
      Gen.concatenate (Expr.code ctx (.binary .add left right isGrouped)).append := by
  obtain ⟨l, r, typed, typed', result⟩ := typeIn_sum.1 typed
  simp [code, ExprCode.binary, BinaryOp.isComparison, ExprCode.ofValue, ExprCode.arithmetic, Gen.check, typed, typed',
    result]

theorem append_operand (arg : Operand) :
    (Expr.code ctx (.operand arg isGrouped)).append =
      Gen.appendValue (Expr.code ctx (.operand arg isGrouped)).value := by
  cases arg with
  | atom value unary =>
    cases unary with
    | none =>
      cases value with
      | literal t =>
        change (ExprCode.literal t).append = Gen.appendValue (ExprCode.literal t).value
        unfold ExprCode.literal
        split_ifs <;> rfl
      | load head calls | nested inner => rfl
    | some operator => cases operator <;> rfl
  | cast target inner | array elements | create className arguments => rfl

theorem append_binary {op : BinaryOp} (typed : Expr.typeIn ctx none (.binary op left right isGrouped) = .ok d)
    (other : op = .add → d ≠ .string) :
    (Expr.code ctx (.binary op left right isGrouped)).append =
      Gen.appendValue (Expr.code ctx (.binary op left right isGrouped)).value := by
  simp only [typeIn, bind_eq_ok] at typed
  obtain ⟨l, typed, r, typed', result⟩ := typed
  simp only [code, ExprCode.binary]
  split_ifs with isAnd isOr compares
  · rfl
  · rfl
  · rfl
  · have notString : d ≠ .string := by
      cases Descriptor.binaryResult_computes compares isAnd isOr result with
      | concatenation => exact other rfl
      | logic => decide
      | arithmetic _ promoted | bits _ _ _ promoted | shift _ _ _ promoted =>
        rcases Descriptor.promote_cases promoted with rfl | rfl | rfl | rfl <;> decide
    simp [typed, typed', result, Gen.check, notString, ExprCode.ofValue]

def Valued {ρ : Type} (ctx : Context) (value : Expr → Datum ρ) (tree : Expr) : Prop :=
  ∀ operand ∈ tree.summands, ∀ d, operand.typeIn ctx none = .ok d → (value operand).Fits d

theorem Valued.sides {ρ : Type} {value : Expr → Datum ρ}
    (valued : Valued ctx value (.binary .add left right isGrouped)) :
    left.Valued ctx value ∧ right.Valued ctx value := by
  simpa only [Valued, summands, List.forall_mem_append] using valued

theorem eval_fits {ρ : Type} (m : Runtime ρ) {value : Expr → Datum ρ} : (tree : Expr) → {d : Descriptor} →
    tree.typeIn ctx none = .ok d → tree.Valued ctx value → (m.eval ctx value tree).Fits d
  | .operand arg isGrouped, d, typed, valued => valued _ (by simp [summands]) d typed
  | .binary op left right isGrouped, d, typed, valued => by
    cases op with
    | add =>
      obtain ⟨l, r, typed, typed', result⟩ := typeIn_sum.1 typed
      simp only [Runtime.eval, typed, typed', result]
      split_ifs with isString
      · subst isString
        exact .reference _ rfl
      · cases Descriptor.binaryResult_computes (by decide) (by decide) (by decide) result with
        | concatenation => exact absurd rfl isString
        | arithmetic _ promoted =>
          refine m.sum_fits d ?_ _ _
          rcases Descriptor.promote_cases promoted with rfl | rfl | rfl | rfl <;> decide
        | logic family | bits family | shift family => exact absurd family (by decide)
    | _ => exact valued _ (by simp [summands]) d typed

-- The parts of a typed tree in source order, as they are appended by its code and as they make its string.
structure Parts (ctx : Context) (tree : Expr) (d : Descriptor) (parts : List Expr) : Prop where
  taken : tree.concatParts ctx = .ok parts
  order : parts.flatMap summands = tree.summands
  code : (tree.code ctx).append = parts.forM fun part => Gen.appendValue (part.code ctx).value
  texts : ∀ {ρ : Type} (m : Runtime ρ) (value : Expr → Datum ρ), tree.Valued ctx value →
    ∃ texts, parts.mapM (m.addedBy? ctx value) = some texts ∧ texts.flatten = m.convert d (m.eval ctx value tree)

theorem Parts.whole (typed : tree.typeIn ctx none = .ok d) (single : tree.concatParts ctx = .ok [tree])
    (append : (tree.code ctx).append = Gen.appendValue (tree.code ctx).value) : Parts ctx tree d [tree] where
  taken := single
  order := by simp
  code := by
    rw [append]
    simp
  texts m value valued := by
    obtain ⟨parameter, chosen, added⟩ := Runtime.appended_of_fits (m := m) (eval_fits m tree typed valued)
    exact ⟨[m.convert d (m.eval ctx value tree)], by simp [Runtime.addedBy?, typed, chosen, added, Except.toOption],
      by simp⟩

theorem Parts.sum {l r : Descriptor} {lefts rights : List Expr}
    (typed : Expr.typeIn ctx none (.binary .add left right isGrouped) = .ok .string)
    (typedLeft : left.typeIn ctx none = .ok l) (typedRight : right.typeIn ctx none = .ok r)
    (first : Parts ctx left l lefts) (second : Parts ctx right r rights) :
    Parts ctx (.binary .add left right isGrouped) .string (lefts ++ rights) where
  taken := by
    rw [concatParts, typed, first.taken, second.taken]
    rfl
  order := by rw [List.flatMap_append, first.order, second.order, summands]
  code := by
    rw [(code_sum typed).1, first.code, second.code]
    simp
  texts m value valued := by
    obtain ⟨texts, added, joined⟩ := first.texts m value valued.sides.1
    obtain ⟨texts', added', joined'⟩ := second.texts m value valued.sides.2
    refine ⟨texts ++ texts', by simp [List.mapM_append, added, added'], ?_⟩
    obtain ⟨_, _, known, known', result⟩ := typeIn_sum.1 typed
    cases typedLeft.symm.trans known
    cases typedRight.symm.trans known'
    simp [Runtime.eval, typedLeft, typedRight, result, Runtime.convert, m.text_make, joined, joined']

theorem exists_parts : (tree : Expr) → {d : Descriptor} → tree.typeIn ctx none = .ok d →
    ∃ parts, Parts ctx tree d parts
  | .operand arg isGrouped, d, typed => ⟨_, .whole typed rfl (append_operand arg)⟩
  | .binary op left right isGrouped, d, typed => by
    by_cases sum : op = .add ∧ d = .string
    · obtain ⟨rfl, rfl⟩ := sum
      obtain ⟨l, r, typedLeft, typedRight, -⟩ := typeIn_sum.1 typed
      obtain ⟨lefts, first⟩ := exists_parts left typedLeft
      obtain ⟨rights, second⟩ := exists_parts right typedRight
      exact ⟨_, .sum typed typedLeft typedRight first second⟩
    · refine ⟨_, .whole typed ?_ (append_binary typed fun isAdd isString => sum ⟨isAdd, isString⟩)⟩
      cases op with
      | add =>
        have notString : d ≠ .string := fun isString => sum ⟨rfl, isString⟩
        rw [concatParts, typed]
        exact if_neg notString
      | _ => rfl

theorem concatenation (typed : Expr.typeIn ctx none (.binary .add left right isGrouped) = .ok .string) :
    ∃ parts, concatParts ctx (.binary .add left right isGrouped) = .ok parts ∧
      parts.flatMap summands = summands (.binary .add left right isGrouped) ∧
      (Expr.code ctx (.binary .add left right isGrouped)).value none =
        Gen.concatenate (parts.forM fun part => Gen.appendValue (part.code ctx).value) ∧
      ∀ {ρ : Type} (m : Runtime ρ) (value : Expr → Datum ρ), Valued ctx value (.binary .add left right isGrouped) →
        ∃ texts, parts.mapM (m.addedBy? ctx value) = some texts ∧
          m.eval ctx value (.binary .add left right isGrouped) = .reference (some (m.make texts.flatten)) := by
  obtain ⟨parts, spec⟩ := exists_parts _ typed
  refine ⟨parts, spec.taken, spec.order, by rw [(code_sum typed).2, spec.code],
    fun m value valued => ?_⟩
  obtain ⟨texts, added, joined⟩ := spec.texts m value valued
  refine ⟨texts, added, ?_⟩
  obtain ⟨l, r, typedLeft, typedRight, result⟩ := typeIn_sum.1 typed
  simp only [Runtime.eval, typedLeft, typedRight, result, Runtime.convert, if_true, Option.elim, m.text_make]
    at joined ⊢
  rw [joined]

def intRuntime : Runtime (List UInt16) where
  text := id
  make := id
  text_make _ := rfl
  floatText _ := []
  doubleText _ := []
  sum d v v' :=
    if d = .long then .long 0
    else if d = .float then .float 0
    else if d = .double then .double 0
    else match v, v' with
      | .int n, .int n' => .int (n + n')
      | _, _ => .int 0
  sum_fits d numeric v v' := by
    fin_cases numeric
    case _ => cases v <;> cases v' <;> exact .int _ (by decide)
    case _ => exact .long 0
    case _ => exact .float 0
    case _ => exact .double 0

theorem concatenation_numbers :
    let own : Decl := ⟨⟨"A", "A", "A", none, {}, [], {}, [], ⟨"A.k"⟩, 1⟩, .enumeration []⟩
    let ctx : Context := ⟨⟨⟨[], own, []⟩, true, false, .void⟩, {}⟩
    let sum := Expr.binary .add (.literal ⟨.int, "1", 1⟩) (.literal ⟨.int, "2", 5⟩) false
    let text := Expr.literal ⟨.string, "a", 9⟩
    let value : Expr → Datum (List UInt16)
      | .operand (.atom (.literal t) _) _ =>
        if t.kind = .int then .int (Int32.ofNat (Text.ofDigits t.text.toList))
          else .reference (some (Runtime.ascii t.text))
      | _ => .reference none
    concatParts ctx (.binary .add sum text false) = .ok [sum, text] ∧
      intRuntime.eval ctx value (.binary .add sum text false) = .reference (some (Runtime.ascii "3a")) := by
  intro own ctx sum text value
  have typed : typeIn ctx none (.binary .add sum text false) = .ok .string := rfl
  obtain ⟨parts, taken, -, -, texts⟩ := concatenation typed
  have parted : concatParts ctx (.binary .add sum text false) = .ok [sum, text] := rfl
  cases parted.symm.trans taken
  obtain ⟨_, added, made⟩ := texts intRuntime value fun operand member d known => by
    simp only [summands, sum, text, Expr.literal, leaf, List.mem_append, List.mem_singleton] at member
    rcases member with (rfl | rfl) | rfl <;> cases known
    · exact .int _ (by decide)
    · exact .int _ (by decide)
    · exact .reference _ rfl
  cases added
  exact ⟨parted, made⟩

end Expr

end ClassForge
