import ClassForge.Proofs.Linking

set_option autoImplicit false

namespace ClassForge

variable {site : Site} {pool : ConstantPool} {item : Item}

-- The call names a method of an interface, and its count is right for up to 254 slots of arguments.
def Instruction.Counts (pool : ConstantPool) (i : Instruction) : Prop :=
  ∃ index owner name descriptor slots count, i.operands = Bytes.u2 index ++ [count, 0] ∧
    pool.RefersTo .interfaceMethodRef index owner name descriptor ∧
    MethodDescriptor.argumentSlots ⟨descriptor⟩ = slots ∧
    count.toNat = (1 + slots) % 256 ∧ (count.toNat = 1 + slots ↔ slots ≤ 254)

theorem Program.HasMethod.argumentSlots {program : Program} {m : MethodTarget} (has : program.HasMethod m) :
    m.descriptor.argumentSlots = Descriptor.totalWidth m.params := by
  obtain ⟨d, ms, -, owned, listed⟩ := has
  obtain ⟨⟨-, -, split, -⟩, -⟩ := ownMethods_found owned listed
  rw [MethodDescriptor.argumentSlots, split]

theorem Emits.counts (emits : Emits site pool item) (formed : item.WellFormed) {place : Label → Nat} {pc : Nat}
    (interface : (item.instruction place pc).opcode = .invokeinterface) : (item.instruction place pc).Counts pool := by
  have straight {opcode : Opcode} (same : opcode = .invokeinterface) (differs : opcode.isIn .getstatic .new = false) :
      (item.instruction place pc).Counts pool := by
    rw [same] at differs
    cases differs
  have member (opcode : Opcode) (same : opcode = .invokeinterface)
      (among : opcode ∈ [Opcode.getstatic, .putstatic, .getfield, .putfield, .invokevirtual, .invokespecial,
        .invokestatic, .new]) : (item.instruction place pc).Counts pool :=
    absurd (same ▸ among) (by decide)
  cases emits with
  | plain free => exact straight interface (Opcode.not_member_of _ (.inl free))
  | jump opcode target => exact straight interface (Opcode.not_member_of _ (.inr (.inl formed)))
  | ret => exact straight interface (Opcode.not_member_of _ (.inr (.inr (Kind.isReturn_returnOpcode _))))
  | @call m index has allowed ref =>
    have isCall : m.invokeOpcode = .invokeinterface := interface
    have onInterface : m.onInterface = true := by
      by_contra plain
      simp [MethodTarget.invokeOpcode, plain] at isCall
      split_ifs at isCall <;> cases isCall
    rw [if_pos onInterface] at ref
    have counted : (UInt8.ofNat (Descriptor.totalWidth m.params + 1)).toNat =
        (1 + Descriptor.totalWidth m.params) % 256 := by
      rw [Nat.add_comm]
      exact UInt8.toNat_ofNat'
    refine ⟨index, m.owner, m.name, m.descriptor.text, _, _, ?_, ref, has.argumentSlots, counted, by omega⟩
    rw [isCall]
    rfl
  | switch => exact straight interface rfl
  | read | write | setUp =>
    exact member _ interface (by simp only [Item.instruction, Item.opcode]; split_ifs <;> decide)
  | construct | makeValue => exact member .invokespecial interface (by decide)
  | newValue | new => exact member .new interface (by decide)
  | foreign isCall => exact member _ interface (List.Sublist.subset (by decide) isCall)
  | component isAccess | value isAccess => exact member _ interface (List.Sublist.subset (by decide) isAccess)

theorem Session.compile_interfaceCalls {s later : Session} {path : Text.SourcePath} {source : String} {count : Nat}
    (compiled : s.compile path source = (.ok count, later)) :
    ∀ u ∈ later.units, ∀ m ∈ u.classFile.methods, ∀ code, m.code = some code →
      ∃ instructions, Instruction.decode code.code = .ok instructions ∧
        ∀ i ∈ instructions, i.opcode = .invokeinterface → i.Counts u.classFile.pool := by
  intro u member m present code coded
  obtain ⟨accepted, comes⟩ := compile_comes compiled
  obtain ⟨d, -, come⟩ := exists_left_of_forall₂ comes member
  obtain ⟨site, -, -, generated, -⟩ := come.holds.generated_of present coded
  obtain ⟨instructions, decoded, each⟩ := generated.instructions
  refine ⟨instructions, decoded, fun i instruction interface => ?_⟩
  obtain ⟨item, place, pc, emits, formed, rfl⟩ := each i instruction
  exact emits.counts formed interface

theorem Session.compile_interfaceCalls_wide :
    ∃ later, ({} : Session).compile ⟨"F.k"⟩ ("\n".intercalate [
        "interface I \x7b", "void f(long a, double b, int c)", "\x7d",
        "class A \x7b", "void g(I i) \x7b", "i.f(1l, 2.0, 3)", "\x7d", "\x7d"]) = (.ok 2, later) ∧
      (∃ u ∈ later.units, ∃ m ∈ u.classFile.methods, ∃ code ∈ m.code,
        ∃ instructions ∈ (Instruction.decode code.code).toOption, ∃ i ∈ instructions,
          i.opcode = .invokeinterface ∧ i.operands.drop 2 = [6, 0]) ∧
      ∀ u ∈ later.units, ∀ m ∈ u.classFile.methods, ∀ code, m.code = some code →
        ∃ instructions, Instruction.decode code.code = .ok instructions ∧
          ∀ i ∈ instructions, i.opcode = .invokeinterface → i.Counts u.classFile.pool := by
  generalize written : "\n".intercalate _ = source
  obtain ⟨later, compiled, counted⟩ : ∃ later, ({} : Session).compile ⟨"F.k"⟩ source = (.ok 2, later) ∧
      ∃ u ∈ later.units, ∃ m ∈ u.classFile.methods, ∃ code ∈ m.code,
        ∃ instructions ∈ (Instruction.decode code.code).toOption, ∃ i ∈ instructions,
          i.opcode = .invokeinterface ∧ i.operands.drop 2 = [6, 0] := compile_returns written (by decide +kernel)
  exact ⟨later, compiled, counted, compile_interfaceCalls compiled⟩

end ClassForge
