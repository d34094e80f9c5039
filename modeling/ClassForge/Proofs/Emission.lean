import ClassForge.Assembly
import ClassForge.Proofs.Constants
import ClassForge.Proofs.Growth
import ClassForge.Proofs.Lookup

set_option autoImplicit false

namespace ClassForge

namespace Opcode

-- Instructions that name no field, method or class to instantiate and neither jump nor return.
def isFree (opcode : Opcode) : Bool :=
  !opcode.isBranch && !opcode.isIn .ret .new && !opcode.isIn .gotoW .jsrW

def isBare (opcode : Opcode) : Bool :=
  opcode.isFree && Instruction.operandLength? 0 opcode [] = some 0

end Opcode

theorem Item.wellFormed_of_length {opcode : Opcode} {operands : List UInt8}
    (h : Instruction.operandLength? 0 opcode [] = some operands.length) : (Item.plain opcode operands).WellFormed := by
  intro pc rest
  unfold Instruction.operandLength? at h ⊢
  by_cases wide : opcode = .wide
  · simp [wide] at h
  · by_cases switch : opcode = .tableswitch ∨ opcode = .lookupswitch
    · rw [if_neg wide, if_pos switch] at h
      simp [Instruction.switchLength?, Instruction.words] at h
    · rwa [if_neg wide, if_neg switch] at h ⊢

structure Emit.Puts {α : Type} (step : Emit α) (item : Item) (a : α) : Prop where
  formed : item.WellFormed
  returns : ∀ b r later, step b = .ok r later → r = a ∧ ∃ pops pushes, CodeBuffer.Written item pops pushes b later

-- Classes outside every file whose members generated code uses: some of the platform, and arrays.
def IsForeign (owner : String) : Prop :=
  owner ∈ [Gen.builder, Assembly.Enumeration.base, "java/lang/Object"] ∨
    ∃ name, owner = (Descriptor.ofClass name).arrayOf.text

def Site.fieldScope (site : Site) : Scope :=
  site.program.scopeOf site.scope.decl

structure Site.SetsUp (site : Site) (field : Field) : Prop where
  own : field ∈ site.scope.decl.fields
  initial : site.isInitializer = true
  same : field.modifier.has .static = site.isStatic

inductive Emits (site : Site) (pool : ConstantPool) : Item → Prop
  | plain {opcode : Opcode} {operands : List UInt8} (free : opcode.isFree = true) :
      Emits site pool (.plain opcode operands)
  | jump (opcode : Opcode) (target : Label) : Emits site pool (.jump opcode target)
  | switch (default : Label) (pairs : List (Int × Label)) : Emits site pool (.switch default pairs)
  | ret : Emits site pool (.plain site.returns.kind.returnOpcode [])
  | read {field : FieldTarget} {index : UInt16} (has : site.program.HasField field)
      (allowed : field.isPrivate = true → field.owner = site.self)
      (ref : pool.RefersTo .fieldRef index field.owner field.name field.descriptor.text) :
      Emits site pool (.plain (if field.isStatic then .getstatic else .getfield) (Bytes.u2 index))
  | write {field : FieldTarget} {index : UInt16} (has : site.program.HasField field)
      (allowed : field.isPrivate = true → field.owner = site.self)
      (assignable : field.isFinal = true →
        site.isInitializer = true ∧ field.owner = site.self ∧ field.isStatic = site.isStatic)
      (ref : pool.RefersTo .fieldRef index field.owner field.name field.descriptor.text) :
      Emits site pool (.plain (if field.isStatic then .putstatic else .putfield) (Bytes.u2 index))
  | setUp {field : Field} {descriptor : Descriptor} {index : UInt16}
      (sets : site.SetsUp field) (typed : site.fieldScope.descriptor field.type = .ok descriptor)
      (ref : pool.RefersTo .fieldRef index site.self field.name descriptor.text) :
      Emits site pool (.plain (if field.modifier.has .static then .putstatic else .putfield) (Bytes.u2 index))
  | call {m : MethodTarget} {index : UInt16} (has : site.program.HasMethod m)
      (allowed : m.isPrivate = true → m.owner = site.self)
      (ref : pool.RefersTo (if m.onInterface then .interfaceMethodRef else .methodRef) index m.owner m.name
        m.descriptor.text) :
      Emits site pool (.invoke m.invokeOpcode index (Descriptor.totalWidth m.params))
  | construct {owner : String} {params : List Descriptor} {index : UInt16}
      (has : site.program.HasConstructor owner params)
      (ref : pool.RefersTo .methodRef index owner constructorName (MethodDescriptor.of params .void).text) :
      Emits site pool (.invoke .invokespecial index (Descriptor.totalWidth params))
  | foreign {opcode : Opcode} {owner name descriptor : String} {index : UInt16} {args : Nat}
      (isCall : opcode ∈ [Opcode.invokevirtual, .invokespecial, .invokestatic]) (away : IsForeign owner)
      (special : name = constructorName → opcode = .invokespecial)
      (ref : pool.RefersTo .methodRef index owner name descriptor) :
      Emits site pool (.invoke opcode index args)
  | component {opcode : Opcode} {components : List Field} {field : Field} {descriptor : Descriptor}
      {index : UInt16} (isAccess : opcode ∈ [Opcode.getfield, .putfield])
      (sets : opcode = .putfield → site.isInitializer = true)
      (shape : site.scope.decl.shape = .record components) (own : field ∈ components)
      (typed : site.fieldScope.descriptor field.type = .ok descriptor)
      (ref : pool.RefersTo .fieldRef index site.self field.name descriptor.text) :
      Emits site pool (.plain opcode (Bytes.u2 index))
  | value {opcode : Opcode} {values : List String} {name : String} {descriptor : Descriptor}
      {index : UInt16} (isAccess : opcode ∈ [Opcode.getstatic, .putstatic])
      (sets : opcode = .putstatic → site.isInitializer = true)
      (shape : site.scope.decl.shape = .enumeration values)
      (own : (name ∈ values ∧ descriptor = .ofClass site.self) ∨
        (name = Assembly.Enumeration.valuesField ∧ descriptor = (Descriptor.ofClass site.self).arrayOf))
      (ref : pool.RefersTo .fieldRef index site.self name descriptor.text) :
      Emits site pool (.plain opcode (Bytes.u2 index))
  | makeValue {values : List String} {index : UInt16} {args : Nat}
      (shape : site.scope.decl.shape = .enumeration values)
      (ref : pool.RefersTo .methodRef index site.self constructorName Assembly.Enumeration.constructorType.text) :
      Emits site pool (.invoke .invokespecial index args)
  | newValue {values : List String} {index : UInt16} (sets : site.isInitializer = true)
      (shape : site.scope.decl.shape = .enumeration values)
      (ref : pool.className? index = some site.self) : Emits site pool (.plain .new (Bytes.u2 index))
  | new {owner : String} {index : UInt16} (can : owner = Gen.builder ∨ site.program.Instantiable owner)
      (ref : pool.className? index = some owner) : Emits site pool (.plain .new (Bytes.u2 index))

theorem Emits.mono {site : Site} {pool later : ConstantPool} {item : Item} (grown : pool.Extends later)
    (emits : Emits site pool item) : Emits site later item := by
  cases emits with
  | plain free => exact .plain free
  | jump opcode target => exact .jump opcode target
  | switch default pairs => exact .switch default pairs
  | ret => exact .ret
  | read has allowed ref => exact .read has allowed (grown.refersTo ref)
  | write has allowed assignable ref => exact .write has allowed assignable (grown.refersTo ref)
  | setUp sets typed ref => exact .setUp sets typed (grown.refersTo ref)
  | call has allowed ref => exact .call has allowed (grown.refersTo ref)
  | construct has ref => exact .construct has (grown.refersTo ref)
  | foreign isCall away special ref => exact .foreign isCall away special (grown.refersTo ref)
  | component isAccess sets shape own typed ref =>
    exact .component isAccess sets shape own typed (grown.refersTo ref)
  | value isAccess sets shape own ref => exact .value isAccess sets shape own (grown.refersTo ref)
  | makeValue shape ref => exact .makeValue shape (grown.refersTo ref)
  | newValue sets shape ref => exact .newValue sets shape (grown.className? ref)
  | new can ref => exact .new can (grown.className? ref)

structure Growth (site : Site) (fresh : Nat) (targets : List Label) (w later : Workspace) : Prop where
  valid : later.pool.Valid
  pool : w.pool.Extends later.pool
  code : ∃ more, CodeBuffer.Advance fresh targets w.code later.code more ∧ ∀ item ∈ more, Emits site later.pool item

namespace Growth

variable {site : Site} {fresh fewer : Nat} {targets others : List Label} {w mid later : Workspace}

theorem refl (valid : w.pool.Valid) : Growth site fresh targets w w where
  valid := valid
  pool := .refl _
  code := ⟨[], .refl _ _ _, by simp⟩

theorem trans (first : Growth site fresh targets w mid) (second : Growth site fresh targets mid later) :
    Growth site fresh targets w later where
  valid := second.valid
  pool := first.pool.trans second.pool
  code := by
    obtain ⟨more, advance, emits⟩ := first.code
    obtain ⟨rest, advance', emits'⟩ := second.code
    refine ⟨more ++ rest, advance.trans advance', ?_⟩
    intro item member
    rcases List.mem_append.1 member with old | new
    · exact (emits item old).mono second.pool
    · exact emits' item new

theorem mono (growth : Growth site fresh targets w later) (less : fewer ≤ fresh)
    (known : ∀ label ∈ targets, label.index < fewer → label ∈ others) : Growth site fewer others w later where
  valid := growth.valid
  pool := growth.pool
  code := by
    obtain ⟨more, advance, emits⟩ := growth.code
    exact ⟨more, advance.mono less known, emits⟩

theorem size (growth : Growth site fresh targets w later) : w.code.labels.size ≤ later.code.labels.size := by
  obtain ⟨more, advance, -⟩ := growth.code
  exact advance.size

theorem ready (growth : Growth site fresh targets w later) {label : Label} (old : label.index < fresh)
    (ready : w.code.Ready label) : later.code.Ready label := by
  obtain ⟨more, advance, -⟩ := growth.code
  exact advance.ready old ready

end Growth

structure Grown (site : Site) (fresh : Nat) (targets : List Label) (w later : Workspace) : Prop
    extends Growth site fresh targets w later where
  slots : later.slots = w.slots

namespace Grown

variable {site : Site} {fresh fewer : Nat} {targets others : List Label} {w mid later : Workspace}

theorem refl (valid : w.pool.Valid) : Grown site fresh targets w w :=
  ⟨.refl valid, rfl⟩

theorem trans (first : Grown site fresh targets w mid) (second : Grown site fresh targets mid later) :
    Grown site fresh targets w later :=
  ⟨first.toGrowth.trans second.toGrowth, second.slots.trans first.slots⟩

theorem mono (grown : Grown site fresh targets w later) (less : fewer ≤ fresh)
    (known : ∀ label ∈ targets, label.index < fewer → label ∈ others) :
    Grown site fewer others w later :=
  ⟨grown.toGrowth.mono less known, grown.slots⟩

theorem inside (grown : Grown site fresh [] w later) (less : fewer ≤ fresh) :
    Grown site fewer targets w later :=
  grown.mono less (by simp)

theorem aside {label : Label} (grown : Grown site fresh [label] w later) (less : fewer ≤ fresh)
    (own : fewer ≤ label.index) : Grown site fewer targets w later := by
  refine grown.mono less fun other member old => ?_
  rw [List.mem_singleton.1 member] at old
  omega

end Grown

-- The workspace after a part of the generation that jumps to no other labels than `targets` apart from its own.
def Workspace.GrowsTo (site : Site) (targets : List Label) (w later : Workspace) : Prop :=
  w.pool.Valid → (∀ label ∈ targets, w.code.Ready label) → Grown site w.code.labels.size targets w later

instance (site : Site) (targets : List Label) : IsPreorder Workspace (Workspace.GrowsTo site targets) where
  refl _ valid _ := .refl valid
  trans w mid later first second valid ready := by
    have grown := first valid ready
    have grown' := second grown.valid fun label target => grown.ready (ready label target).1 (ready label target)
    exact grown.trans (grown'.mono grown.size fun label target _ => target)

abbrev Gen.Grows {α : Type} (site : Site) (targets : List Label) (x : Gen α) : Prop :=
  Moves (Workspace.GrowsTo site targets) x

namespace Gen

variable {α : Type} {site : Site} {targets : List Label}

theorem Grows.more {others : List Label} {x : Gen α} (grows : Grows site targets x)
    (known : targets ⊆ others) : Grows site others x := by
  intro w a later h valid ready
  have grown := grows w a later h valid fun label target => ready label (known target)
  exact grown.mono (Nat.le_refl _) (fun label target _ => known target)

theorem grows_emit {step : Emit α} {item : Item} {a : α} (puts : step.Puts item a)
    (emits : ∀ pool, Emits site pool item) : Grows site item.targets (emit step) := by
  intro w a later h valid ready
  obtain ⟨code, run, rfl⟩ := emit_returns.1 h
  obtain ⟨-, pops, pushes, written⟩ := puts.returns _ _ _ run
  obtain ⟨more, among, advance⟩ := written.advance puts.formed ready w.code.labels.size
  refine ⟨⟨valid, .refl _, more, advance, fun other member => ?_⟩, rfl⟩
  rw [List.mem_singleton.1 (among member)]
  exact emits _

theorem grows_added {step : Pooled α}
    (added : ∀ pool a later, pool.Valid → step pool = .ok a later → later.Valid ∧ pool.Extends later) :
    Grows site targets (pooled step) := by
  intro w a later h valid _
  obtain ⟨pool, run, rfl⟩ := pooled_returns.1 h
  obtain ⟨valid', grown⟩ := added _ _ _ valid run
  exact ⟨⟨valid', grown, [], .refl _ _ _, by simp⟩, rfl⟩

theorem grows_pooled {step : Pooled UInt16} {use : UInt16 → Emit Unit} (item : UInt16 → Item)
    (known : ConstantPool → UInt16 → Prop)
    (added : ∀ pool index later, pool.Valid → step pool = .ok index later →
      later.Valid ∧ pool.Extends later ∧ known later index)
    (puts : ∀ index, (use index).Puts (item index) ()) (free : ∀ index, (item index).targets = [])
    (emits : ∀ pool index, known pool index → Emits site pool (item index)) :
    Grows site targets (do emit (use (← pooled step))) := by
  intro w a later h valid _
  simp only [bind_returns, pooled_returns, emit_returns] at h
  obtain ⟨index, _, ⟨pool, run, rfl⟩, code, run', rfl⟩ := h
  obtain ⟨valid', grown, knows⟩ := added _ _ _ valid run
  obtain ⟨-, pops, pushes, written⟩ := (puts index).returns _ _ _ run'
  obtain ⟨more, among, advance⟩ :=
    written.advance (puts index).formed (by simp [free]) w.code.labels.size
  refine ⟨⟨valid', grown, more, advance.mono (Nat.le_refl _) (by simp [free]), ?_⟩, rfl⟩
  intro other member
  rw [List.mem_singleton.1 (among member)]
  exact emits pool index knows

end Gen

end ClassForge
