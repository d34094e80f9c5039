import ClassForge.Proofs.Reading

set_option autoImplicit false

namespace ClassForge

variable {kind : Kind}

namespace Kind

def widths (kinds : List Kind) : Nat :=
  (kinds.map width).sum

def pushed : Kind → List Kind
  | .void => []
  | kind => [kind]

theorem widths_cons (kind : Kind) (kinds : List Kind) : widths (kind :: kinds) = kind.width + widths kinds :=
  rfl

@[simp]
theorem widths_append (kinds more : List Kind) : widths (kinds ++ more) = widths kinds + widths more := by
  simp [widths]

@[simp]
theorem widths_pushed (kind : Kind) : widths kind.pushed = kind.width := by
  cases kind <;> rfl

theorem pushed_of_ne (value : kind ≠ .void) : kind.pushed = [kind] := by
  cases kind <;> first | rfl | exact absurd rfl value

theorem void_notMem_pushed (kind : Kind) : Kind.void ∉ kind.pushed := by
  cases kind <;> decide

end Kind

def Descriptor.kinds (types : List Descriptor) : List Kind :=
  types.flatMap (·.kind.pushed)

theorem Descriptor.widths_kinds (types : List Descriptor) : Kind.widths (kinds types) = totalWidth types := by
  induction types with
  | nil => rfl
  | cons d rest ih =>
    change Kind.widths (d.kind.pushed ++ kinds rest) = d.width + totalWidth rest
    rw [Kind.widths_append, ih, Kind.widths_pushed]
    rfl

theorem Descriptor.widths_reverse (types : List Descriptor) : Kind.widths (kinds types.reverse) = totalWidth types := by
  rw [← widths_kinds, kinds, kinds, Kind.widths, Kind.widths]
  exact (((List.reverse_perm types).flatMap_right _).map _).sum_eq

inductive Held where
  | first (kind : Kind)
  | second (kind : Kind)
  deriving DecidableEq, Repr

abbrev Locals := Nat → Option Held

namespace Locals

def Has (locals : Locals) (slot : Nat) (kind : Kind) : Prop :=
  locals slot = some (.first kind) ∧ (kind.width = 2 → locals (slot + 1) = some (.second kind))

instance (locals : Locals) (slot : Nat) (kind : Kind) : Decidable (locals.Has slot kind) :=
  inferInstanceAs (Decidable (_ ∧ _))

def write (locals : Locals) (slot : Nat) (kind : Kind) : Locals := fun at' =>
  if at' = slot then some (.first kind)
  else if kind.width = 2 ∧ at' = slot + 1 then some (.second kind)
  else locals at'

def entry (start : Nat) : List Kind → Locals
  | [] => fun _ => none
  | kind :: rest => (entry (start + kind.width) rest).write start kind

theorem has_write (locals : Locals) (slot : Nat) (kind : Kind) : (locals.write slot kind).Has slot kind := by
  refine ⟨if_pos rfl, fun wide => ?_⟩
  rw [write, if_neg (by omega), if_pos ⟨wide, rfl⟩]

theorem Has.write {locals : Locals} {slot other : Nat} {kind' : Kind} (has : locals.Has slot kind)
    (apart : slot + kind.width ≤ other ∨ other + kind'.width ≤ slot) (value : 0 < kind.width)
    (value' : 0 < kind'.width) : (locals.write other kind').Has slot kind := by
  have small : kind'.width ≤ 2 := by cases kind' <;> decide
  refine ⟨?_, fun wide => ?_⟩
  · rw [Locals.write, if_neg (by omega), if_neg (by omega)]
    exact has.1
  · rw [Locals.write, if_neg (by omega), if_neg (by omega)]
    exact has.2 wide

end Locals

structure Frame where
  stack : List Kind
  locals : Locals

namespace Opcode

-- Kinds taken from the stack and put on it, by ranges of opcodes; the top of the stack comes first.
def kindEffects : List ((Opcode × Opcode) × (List Kind × List Kind)) := [
  ((nop, nop), ([], [])), ((aconstNull, aconstNull), ([], [.reference])),
  ((iconst0 - 1, iconst5), ([], [.int])), ((lconst0, lconst1), ([], [.long])),
  ((fconst0, fconst2), ([], [.float])), ((dconst0, dconst1), ([], [.double])),
  ((bipush, sipush), ([], [.int])),
  ((iaload, iaload), ([.int, .reference], [.int])), ((laload, laload), ([.int, .reference], [.long])),
  ((0x30, 0x30), ([.int, .reference], [.float])), ((daload, daload), ([.int, .reference], [.double])),
  ((0x32, 0x32), ([.int, .reference], [.reference])), ((0x33, saload), ([.int, .reference], [.int])),
  ((iastore, iastore), ([.int, .int, .reference], [])), ((lastore, lastore), ([.long, .int, .reference], [])),
  ((fastore, fastore), ([.float, .int, .reference], [])),
  ((dastore, dastore), ([.double, .int, .reference], [])),
  ((aastore, aastore), ([.reference, .int, .reference], [])),
  ((bastore, sastore), ([.int, .int, .reference], [])),
  ((i2l, i2l), ([.int], [.long])), ((i2f, i2f), ([.int], [.float])), ((i2d, i2d), ([.int], [.double])),
  ((l2i, l2i), ([.long], [.int])), ((l2f, l2f), ([.long], [.float])), ((l2d, l2d), ([.long], [.double])),
  ((f2i, f2i), ([.float], [.int])), ((f2l, f2l), ([.float], [.long])), ((f2d, f2d), ([.float], [.double])),
  ((d2i, d2i), ([.double], [.int])), ((d2l, d2l), ([.double], [.long])), ((d2f, d2f), ([.double], [.float])),
  ((i2b, i2s), ([.int], [.int])), ((lcmp, lcmp), ([.long, .long], [.int])),
  ((fcmpl, fcmpg), ([.float, .float], [.int])), ((dcmpl, dcmpg), ([.double, .double], [.int])),
  ((ifeq, ifle), ([.int], [])), ((ifIcmpeq, ifIcmple), ([.int, .int], [])),
  ((ifAcmpeq, ifAcmpne), ([.reference, .reference], [])), ((goto, goto), ([], [])),
  ((lookupswitch, lookupswitch), ([.int], [])), ((new, new), ([], [.reference])),
  ((newarray, anewarray), ([.int], [.reference])), ((arraylength, arraylength), ([.reference], [.int])),
  ((athrow, athrow), ([.reference], [])), ((checkcast, checkcast), ([.reference], [.reference])),
  ((instanceof, instanceof), ([.reference], [.int])), ((monitorenter, monitorexit), ([.reference], [])),
  ((ifnull, ifnonnull), ([.reference], []))]

def kindEffect? (op : Opcode) : Option (List Kind × List Kind) :=
  if op.isIn iadd drem then (Kind.ofFamily? ((op - iadd).toNat % 4)).map fun kind => ([kind, kind], [kind])
  else if op.isIn ineg 0x77 then (Kind.ofFamily? (op - ineg).toNat).map fun kind => ([kind], [kind])
  else if op.isIn ishl 0x7d then
    (Kind.ofFamily? ((op - ishl).toNat % 2)).map fun kind => ([.int, kind], [kind])
  else if op.isIn iand lxor then
    (Kind.ofFamily? ((op - iand).toNat % 2)).map fun kind => ([kind, kind], [kind])
  else (kindEffects.find? (fun (range, _) => op.isIn range.1 range.2)).map (·.2)

end Opcode

def Constant.kind? : Constant → Option Kind
  | .integer _ => some .int
  | .float _ => some .float
  | .long _ => some .long
  | .double _ => some .double
  | .string _ => some .reference
  | .classRef _ => some .reference
  | _ => none

namespace Instruction

def memberType? (pool : ConstantPool) (i : Instruction) : Option String :=
  (i.wordOperand?.bind pool.memberRef?).map (·.2.2)

def namedClass? (pool : ConstantPool) (i : Instruction) : Option String :=
  i.wordOperand?.bind pool.className?

def constantKind? (pool : ConstantPool) (i : Instruction) : Option Kind := do
  let (index, isWide) ← i.constant?
  let kind ← (← pool.get? index).kind?
  if isWide = decide (kind.width = 2) then some kind else none

def fieldKinds (opcode : Opcode) (kind : Kind) : List Kind × List Kind :=
  if opcode = .getstatic then ([], kind.pushed)
  else if opcode = .putstatic then (kind.pushed, [])
  else if opcode = .getfield then ([.reference], kind.pushed)
  else (kind.pushed ++ [.reference], [])

-- Kinds taken and put by a call: the last argument is on top, the receiver below the first one.
def invokeKinds (opcode : Opcode) (params : List Descriptor) (returns : Descriptor) : List Kind × List Kind :=
  (Descriptor.kinds params.reverse ++ if opcode = .invokestatic then [] else [.reference],
    returns.kind.pushed)

def effect? (pool : ConstantPool) (i : Instruction) : Option (List Kind × List Kind) :=
  if i.opcode.isIn .ldc .ldc2W then (i.constantKind? pool).map fun kind => ([], [kind])
  else if i.opcode.isIn .getstatic .putfield then
    (i.memberType? pool).map fun type => fieldKinds i.opcode (Descriptor.mk type).kind
  else if i.opcode.isIn .invokevirtual .invokeinterface then
    ((i.memberType? pool).bind fun type => (MethodDescriptor.mk type).split?).map fun (params, returns) =>
      invokeKinds i.opcode params returns
  else if i.opcode.isReturn then i.opcode.returned?.map fun kind => (kind.pushed, [])
  else i.opcode.kindEffect?

def stackAfter? (pool : ConstantPool) (i : Instruction) (stack : List Kind) : Option (List Kind) :=
  if i.opcode = .dup then
    match stack with
    | kind :: rest => if kind.width = 1 then some (kind :: kind :: rest) else none
    | [] => none
  else if i.opcode = .pop then
    match stack with
    | kind :: rest => if kind.width = 1 then some rest else none
    | [] => none
  else if i.opcode = .pop2 then
    match stack with
    | kind :: rest =>
      if kind.width = 2 then some rest
      else match rest with
        | kind' :: rest => if kind.width = 1 ∧ kind'.width = 1 then some rest else none
        | [] => none
    | [] => none
  else (i.effect? pool).bind fun (takes, gives) => (stack.dropPrefix? takes).map (gives ++ ·)

def run? (pool : ConstantPool) (maxLocals : Nat) (i : Instruction) (frame : Frame) : Option Frame :=
  match i.loaded? with
  | some (kind, slot) =>
    if slot + kind.width ≤ maxLocals ∧ frame.locals.Has slot kind then
      some { frame with stack := kind :: frame.stack }
    else none
  | none =>
    match i.stored? with
    | some (kind, slot) =>
      if slot + kind.width ≤ maxLocals then
        (frame.stack.dropPrefix? [kind]).map fun rest =>
          { stack := rest, locals := frame.locals.write slot kind }
      else none
    | none => (i.stackAfter? pool frame.stack).map fun stack => { frame with stack }

def successors? (i : Instruction) : Option (List Nat) :=
  let next := i.pc + 1 + i.operands.length
  if i.opcode = .lookupswitch then
    i.switchTargets?.map fun (default, pairs) => default :: pairs.map (·.2)
  else if i.opcode.isReturn ∨ i.opcode = .athrow then some []
  else if i.opcode = .goto then i.branchTarget?.map fun target => [target]
  else if i.opcode.isBranch then i.branchTarget?.map fun target => [target, next]
  else some [next]

end Instruction

inductive Arrives (pool : ConstantPool) (maxLocals : Nat) (code : List Instruction) (entry : Locals) :
    Nat → Frame → Prop
  | start : Arrives pool maxLocals code entry 0 { stack := [], locals := entry }
  | step {pc goal : Nat} {frame next : Frame} {i : Instruction} {goals : List Nat}
      (before : Arrives pool maxLocals code entry pc frame) (member : i ∈ code) (here : i.pc = pc)
      (run : i.run? pool maxLocals frame = some next) (goes : i.successors? = some goals)
      (among : goal ∈ goals) : Arrives pool maxLocals code entry goal next

/-- Each place of the code has one shape of the operand stack, whichever path leads there. Every
instruction finds what it needs, and there is one wherever control goes. -/
structure Shaped (pool : ConstantPool) (code : List Instruction) (maxStack maxLocals : Nat) (entry : Locals)
    (shape : Nat → List Kind) : Prop where
  start : shape 0 = []
  unique : ∀ pc frame, Arrives pool maxLocals code entry pc frame → frame.stack = shape pc
  values : ∀ pc frame, Arrives pool maxLocals code entry pc frame → Kind.void ∉ shape pc
  bound : ∀ pc frame, Arrives pool maxLocals code entry pc frame → Kind.widths (shape pc) ≤ maxStack
  goesOn : ∀ pc frame, Arrives pool maxLocals code entry pc frame →
    ∃ i ∈ code, i.pc = pc ∧ (i.run? pool maxLocals frame).isSome ∧ i.successors?.isSome

def Descriptor.IsFormed (d : Descriptor) : Prop :=
  takeField? d.text.toList = some (d.text.toList, [])

instance (d : Descriptor) : Decidable d.IsFormed :=
  inferInstanceAs (Decidable (_ = _))

def MethodDescriptor.IsFormed (d : MethodDescriptor) : Prop :=
  ∃ types ∈ d.split?, types.2 = .void ∨ types.2.IsFormed

instance (d : MethodDescriptor) : Decidable d.IsFormed :=
  inferInstanceAs (Decidable (∃ types ∈ d.split?, types.2 = .void ∨ types.2.IsFormed))

@[mk_iff]
structure Instruction.IsFormed (pool : ConstantPool) (i : Instruction) : Prop where
  field : i.opcode.isIn .getstatic .putfield = true → ∀ type ∈ i.memberType? pool, (Descriptor.mk type).IsFormed
  method : i.opcode.isIn .invokevirtual .invokeinterface = true → ∀ type ∈ i.memberType? pool,
    (MethodDescriptor.mk type).IsFormed
  array : i.opcode ∈ [Opcode.new, .anewarray, .checkcast] → ∀ name ∈ i.namedClass? pool,
    name.toList.head? = some '[' → (Descriptor.mk name).IsFormed

instance (pool : ConstantPool) (i : Instruction) : Decidable (i.IsFormed pool) :=
  decidable_of_iff _ (i.isFormed_iff pool).symm

namespace Opcode

theorem kindEffect_facts : ∀ op : Opcode, ∀ effect ∈ op.kindEffect?,
    op.stackEffect? = some (Kind.widths effect.1, Kind.widths effect.2) ∧ Kind.void ∉ effect.1 ∧
      Kind.void ∉ effect.2 := by
  decide +kernel

def isDirect (op : Opcode) : Bool :=
  !op.isIn iload 0x2d && !op.isIn istore 0x4e && !op.isIn pop dup && op ≠ wide

theorem isDirect_of_kindEffect : ∀ op : Opcode, op.kindEffect?.isSome = true →
    op.isDirect = true ∧ op.isIn ldc ldc2W = false ∧ op.isIn getstatic invokeinterface = false ∧
      op.isReturn = false := by
  decide +kernel

theorem isDirect_of_isIn : ∀ op : Opcode,
    (op.isIn ldc ldc2W = true → op.isDirect = true) ∧
      (op.isIn getstatic invokeinterface = true → op.isDirect = true ∧ op.isIn ldc ldc2W = false) ∧
      (op.isReturn = true → op.isDirect = true ∧ op.isIn ldc ldc2W = false ∧
        op.isIn getstatic invokeinterface = false) := by
  decide +kernel

theorem isIn_of_isDirect : ∀ op : Opcode, op.isDirect = true →
    op.isIn iload (iload + 4) = false ∧ op.isIn iload0 (iload0 + 19) = false ∧
      op.isIn istore (istore + 4) = false ∧ op.isIn istore0 (istore0 + 19) = false ∧
      op ≠ wide ∧ op ≠ dup ∧ op ≠ pop ∧ op ≠ pop2 := by
  decide +kernel

theorem field_or_method : ∀ op : Opcode,
    (op.isIn getstatic putfield = true → op.isIn getstatic invokeinterface = true) ∧
      (op.isIn invokevirtual invokeinterface = true → op.isIn getstatic invokeinterface = true ∧
        op.isIn getstatic putfield = false) ∧
      (op.isIn getstatic invokeinterface = false → op.isIn getstatic putfield = false ∧
        op.isIn invokevirtual invokeinterface = false) := by
  decide +kernel

end Opcode

variable {stack : List Kind} {locals : Locals}

namespace Instruction

variable {pool : ConstantPool} {maxLocals : Nat} {i : Instruction}

theorem access_eq_none {base shortBase : Opcode} (short : i.opcode.isIn shortBase (shortBase + 19) = false)
    (long : i.opcode.isIn base (base + 4) = false) (notWide : i.opcode ≠ .wide) : i.access? base shortBase = none := by
  unfold access?
  split <;> simp [short, long, notWide]

theorem run_direct (direct : i.opcode.isDirect = true) (frame : Frame) :
    i.run? pool maxLocals frame = ((i.effect? pool).bind fun (takes, gives) =>
      (frame.stack.dropPrefix? takes).map (gives ++ ·)).map fun stack => { frame with stack } := by
  obtain ⟨load, load0, store, store0, notWide, notDup, notPop, notPop2⟩ :=
    Opcode.isIn_of_isDirect _ direct
  have notLoaded : i.loaded? = none := access_eq_none load0 load notWide
  have notStored : i.stored? = none := access_eq_none store0 store notWide
  simp only [run?, notLoaded, notStored, stackAfter?, notDup, notPop, notPop2, if_false]

theorem run_of_effect (direct : i.opcode.isDirect = true) {takes gives : List Kind}
    (effect : i.effect? pool = some (takes, gives)) :
    i.run? pool maxLocals { stack := takes ++ stack, locals } = some { stack := gives ++ stack, locals } := by
  have dropped : (takes ++ stack).dropPrefix? takes = some stack :=
    List.dropPrefix?_eq_some_iff.2 ⟨takes, rfl, by simp⟩
  rw [run_direct direct, effect]
  simp [dropped]

theorem effect_of_kindEffect {effect : List Kind × List Kind} (known : i.opcode.kindEffect? = some effect) :
    i.opcode.isDirect = true ∧ i.effect? pool = some effect := by
  obtain ⟨direct, notConstant, notMember, notReturn⟩ :=
    Opcode.isDirect_of_kindEffect i.opcode (by rw [known]; rfl)
  obtain ⟨notField, notMethod⟩ := (Opcode.field_or_method i.opcode).2.2 notMember
  refine ⟨direct, ?_⟩
  rw [effect?, notConstant, notField, notMethod, notReturn]
  exact known

theorem run_dup (isDup : i.opcode = .dup) (bare : i.operands = []) (narrow : kind.width = 1) :
    i.run? pool maxLocals { stack := kind :: stack, locals } = some { stack := kind :: kind :: stack, locals } := by
  have noAccess : i.loaded? = none ∧ i.stored? = none := by
    simp only [loaded?, stored?, access?, bare, isDup]
    decide
  simp [run?, noAccess, stackAfter?, isDup, narrow]

theorem run_pop (bare : i.operands = [])
    (isPop : i.opcode = .pop ∧ kind.width = 1 ∨ i.opcode = .pop2 ∧ kind.width = 2) :
    i.run? pool maxLocals { stack := kind :: stack, locals } = some { stack, locals } := by
  have noAccess : i.loaded? = none ∧ i.stored? = none := by
    simp only [loaded?, stored?, access?, bare]
    rcases isPop with ⟨isPop, -⟩ | ⟨isPop, -⟩ <;> rw [isPop] <;> decide
  rcases isPop with ⟨isPop, width⟩ | ⟨isPop, width⟩
  · simp [run?, noAccess, stackAfter?, isPop, width, show Opcode.pop ≠ Opcode.dup by decide]
  · simp [run?, noAccess, stackAfter?, isPop, width, show Opcode.pop2 ≠ Opcode.dup by decide,
      show Opcode.pop2 ≠ Opcode.pop by decide]

end Instruction

end ClassForge
