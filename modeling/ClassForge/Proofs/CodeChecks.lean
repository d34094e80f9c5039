import ClassForge.Proofs.Assembled
import ClassForge.Proofs.Flags

set_option autoImplicit false

namespace ClassForge

structure Instruction.Enclosed (code : List Instruction) (returns : Descriptor) : Prop where
  branches : ∀ i ∈ code, i.opcode.isBranch = true → ∃ target, i.branchTarget? = some target ∧ target ∈ code.map (·.pc)
  switches : ∀ i ∈ code, i.opcode = .lookupswitch →
    ∃ default pairs, i.switchTargets? = some (default, pairs) ∧
      ∀ target ∈ default :: pairs.map (·.2), target ∈ code.map (·.pc)
  others : ∀ i ∈ code, i.opcode ∉ [Opcode.ret, .tableswitch, .gotoW, .jsrW]
  last : ∃ i, code.getLast? = some i ∧ (i.opcode.isReturn = true ∨ i.opcode ∈ [Opcode.athrow, .goto, .lookupswitch])
  returns : ∀ i ∈ code, i.opcode.isReturn = true → i.opcode = returns.kind.returnOpcode

namespace Opcode

def isStraight (opcode : Opcode) : Bool :=
  !opcode.isBranch && !opcode.isReturn && opcode ∉ [ret, tableswitch, lookupswitch, gotoW, jsrW]

theorem isStraight_of : ∀ opcode : Opcode, opcode.isFree = true ∨ opcode.isIn getstatic new = true →
    opcode.isStraight = true := by
  decide +kernel

theorem not_switch : ∀ opcode : Opcode, opcode.isReturn = true ∨ opcode.isBranch = true →
    opcode.isReturn = !opcode.isBranch ∧ opcode ∉ [ret, tableswitch, lookupswitch, gotoW, jsrW] := by
  decide +kernel

end Opcode

theorem Kind.isReturn_returnOpcode (kind : Kind) : kind.returnOpcode.isReturn = true := by
  cases kind <;> decide

variable {opcode : Opcode} {operands : List UInt8}

theorem Emits.straight_or_ret {site : Site} {pool : ConstantPool} (emits : Emits site pool (.plain opcode operands)) :
    opcode.isStraight = true ∨ opcode = site.returns.kind.returnOpcode := by
  generalize same : Item.plain opcode operands = item at emits
  have member (inside : item.opcode.isIn .getstatic .new = true) : opcode.isStraight = true := by
    rw [← same] at inside
    exact Opcode.isStraight_of opcode (.inr inside)
  cases emits with
  | plain free =>
    cases same
    exact .inl (Opcode.isStraight_of opcode (.inl free))
  | jump | switch => cases same
  | ret =>
    cases same
    exact .inr rfl
  | read | write | setUp => exact .inl (member (by simp only [Item.opcode]; split <;> decide))
  | call =>
    refine .inl (member ?_)
    simp only [Item.invoke, Item.opcode, MethodTarget.invokeOpcode]
    split_ifs <;> decide
  | construct => exact .inl (member rfl)
  | foreign isCall =>
    refine .inl (member ?_)
    simp only [List.mem_cons, List.not_mem_nil, or_false] at isCall
    rcases isCall with rfl | rfl | rfl <;> rfl
  | component isAccess =>
    refine .inl (member ?_)
    simp only [List.mem_cons, List.not_mem_nil, or_false] at isAccess
    rcases isAccess with rfl | rfl <;> rfl
  | value isAccess =>
    refine .inl (member ?_)
    simp only [List.mem_cons, List.not_mem_nil, or_false] at isAccess
    rcases isAccess with rfl | rfl <;> rfl
  | makeValue | newValue | new => exact .inl (member rfl)

namespace Item

theorem getLast_program {place : Label → Nat} {items : List Item} {item : Item} (last : items.getLast? = some item) :
    ∃ pc, (program place items).getLast? = some (item.instruction place pc) := by
  obtain ⟨front, rfl⟩ := List.getLast?_eq_some_iff.1 last
  refine ⟨endFrom 0 front, ?_⟩
  simp [program, layout_append, layout]

end Item

variable {item : Item} {i : Instruction} {pc : Nat} {label : Label}

namespace Finished

variable {site : Site} {pool : ConstantPool} {code : CodeAttribute} {b : CodeBuffer} {items : List Item}

theorem lands (finished : Finished site pool code b items)
    (listed : (pc, item) ∈ Item.listing 0 items) (target : label ∈ item.targets) :
    ∃ other, (CodeBuffer.placeOf b.labels label, other) ∈ Item.listing 0 items := by
  obtain ⟨-, -, -, resolved⟩ := CodeBuffer.finish_returns finished.laid.toHolds finished.bytes
  have placed := (resolved pc item listed).1 label target
  have arrived := finished.laid.targets item (Item.mem_of_mem_listing listed) label target
  rcases finished.laid.landing label _ arrived placed with found | ⟨-, alive⟩
  · exact found
  · rw [finished.ends] at alive
    cases alive

theorem plain_opcode (finished : Finished site pool code b items) (member : Item.plain opcode operands ∈ items) :
    opcode.isBranch = false ∧
      opcode ∉ [Opcode.ret, .tableswitch, .lookupswitch, .gotoW, .jsrW] ∧
      (opcode.isReturn = true → opcode = site.returns.kind.returnOpcode) := by
  rcases (finished.emits _ member).straight_or_ret with straight | rfl
  · simp only [Opcode.isStraight, Bool.and_eq_true, Bool.not_eq_true', decide_eq_true_eq] at straight
    obtain ⟨⟨isBranch, isReturn⟩, others⟩ := straight
    exact ⟨isBranch, others, fun returns => absurd (isReturn.symm.trans returns) (by decide)⟩
  · have isReturn := Kind.isReturn_returnOpcode site.returns.kind
    obtain ⟨isBranch, others⟩ := Opcode.not_switch _ (.inl isReturn)
    rw [isReturn, Bool.true_eq, Bool.not_eq_true'] at isBranch
    exact ⟨isBranch, others, fun _ => rfl⟩

theorem jump_opcode (finished : Finished site pool code b items) {target : Label}
    (member : Item.jump opcode target ∈ items) :
    opcode.isReturn = false ∧ opcode ∉ [Opcode.ret, .tableswitch, .lookupswitch, .gotoW, .jsrW] := by
  have branch : opcode.isBranch = true := finished.laid.formed _ member
  have notSwitch := Opcode.not_switch opcode (.inr branch)
  rwa [branch] at notSwitch

theorem endsPath_opcode (ends : item.endsPath = true) :
    item.opcode.isReturn = true ∨ item.opcode ∈ [Opcode.athrow, .goto, .lookupswitch] := by
  cases item with
  | plain | jump =>
    simp only [Item.endsPath, Bool.or_eq_true, decide_eq_true_eq] at ends
    rcases ends with (isReturn | rfl) | rfl
    · exact .inl isReturn
    · exact .inr (by simp [Item.opcode])
    · exact .inr (by simp [Item.opcode])
  | switch => exact .inr (by simp [Item.opcode])

variable (finished : Finished site pool code b items)
include finished

theorem bound (listed : (pc, item) ∈ Item.listing 0 items) : pc + item.size pc ≤ 65535 := by
  obtain ⟨-, -, small, -⟩ := CodeBuffer.finish_returns finished.laid.toHolds finished.bytes
  have := (Item.bounds_of_mem_listing listed).2
  rw [finished.laid.pc_eq] at small
  omega

theorem mem_pcs (listed : (pc, item) ∈ Item.listing 0 items) (target : label ∈ item.targets) :
    CodeBuffer.placeOf b.labels label ∈ (Item.program (CodeBuffer.placeOf b.labels) items).map (·.pc) := by
  obtain ⟨other, found⟩ := finished.lands listed target
  exact List.mem_map.2 ⟨_, Item.mem_program.2 ⟨_, other, found, rfl⟩, rfl⟩

theorem branchTarget
    (member : i ∈ Item.program (CodeBuffer.placeOf b.labels) items) (branch : i.opcode.isBranch = true) :
    ∃ target, i.branchTarget? = some target ∧
      target ∈ (Item.program (CodeBuffer.placeOf b.labels) items).map (·.pc) := by
  obtain ⟨-, -, -, resolved⟩ := CodeBuffer.finish_returns finished.laid.toHolds finished.bytes
  obtain ⟨pc, item, listed, rfl⟩ := Item.mem_program.1 member
  cases item with
  | plain opcode operands =>
    have straight := (finished.plain_opcode (Item.mem_of_mem_listing listed)).1
    exact absurd (straight.symm.trans branch) (by decide)
  | jump opcode target =>
    obtain ⟨low, high⟩ := (resolved pc _ listed).2 opcode target rfl
    exact ⟨_, Item.branchTarget_jump branch low high, finished.mem_pcs listed List.mem_cons_self⟩
  | switch => cases branch

theorem switchTargets
    (member : i ∈ Item.program (CodeBuffer.placeOf b.labels) items) (isSwitch : i.opcode = .lookupswitch) :
    ∃ default pairs, i.switchTargets? = some (default, pairs) ∧
      ∀ target ∈ default :: pairs.map (·.2),
        target ∈ (Item.program (CodeBuffer.placeOf b.labels) items).map (·.pc) := by
  obtain ⟨pc, item, listed, rfl⟩ := Item.mem_program.1 member
  have among := Item.mem_of_mem_listing listed
  cases item with
  | plain opcode operands =>
    obtain rfl : opcode = .lookupswitch := isSwitch
    exact absurd (by decide) (finished.plain_opcode among).2.1
  | jump opcode target =>
    obtain rfl : opcode = .lookupswitch := isSwitch
    exact absurd (by decide) (finished.jump_opcode among).2
  | switch default pairs =>
    have fits := finished.bound listed
    rw [Item.size] at fits
    have near : ∀ label ∈ (Item.switch default pairs).targets, CodeBuffer.placeOf b.labels label < 65536 := by
      intro label target
      obtain ⟨other, found⟩ := finished.lands listed target
      have := finished.bound found
      omega
    refine ⟨_, _, Item.switchTargets_switch (by omega) (by omega) near, fun target member => ?_⟩
    rw [List.map_map, List.mem_cons] at member
    rcases member with rfl | member
    · exact finished.mem_pcs listed List.mem_cons_self
    · obtain ⟨pair, paired, rfl⟩ := List.mem_map.1 member
      exact finished.mem_pcs listed (List.mem_cons_of_mem _ (List.mem_map_of_mem paired))

theorem opcode_of_mem (member : i ∈ Item.program (CodeBuffer.placeOf b.labels) items) :
    i.opcode ∉ [Opcode.ret, .tableswitch, .gotoW, .jsrW] ∧
      (i.opcode.isReturn = true → i.opcode = site.returns.kind.returnOpcode) := by
  have fewer {opcode : Opcode} (others : opcode ∉ [Opcode.ret, .tableswitch, .lookupswitch, .gotoW, .jsrW]) :
      opcode ∉ [Opcode.ret, .tableswitch, .gotoW, .jsrW] :=
    fun among => others (by simp only [List.mem_cons] at among ⊢; tauto)
  obtain ⟨pc, item, listed, rfl⟩ := Item.mem_program.1 member
  have among := Item.mem_of_mem_listing listed
  cases item with
  | plain opcode operands =>
    obtain ⟨-, others, returns⟩ := finished.plain_opcode among
    exact ⟨fewer others, returns⟩
  | jump opcode target =>
    obtain ⟨goesOn, others⟩ := finished.jump_opcode among
    exact ⟨fewer others, fun returns => absurd (goesOn.symm.trans returns) (by decide)⟩
  | switch default pairs =>
    have isSwitch : ((Item.switch default pairs).instruction (CodeBuffer.placeOf b.labels) pc).opcode =
        .lookupswitch := rfl
    rw [isSwitch]
    exact ⟨by decide, fun returns => absurd returns (by decide)⟩

theorem enclosed :
    ∃ instructions, Instruction.decode code.code = .ok instructions ∧
      Instruction.Enclosed instructions site.returns := by
  obtain ⟨decoded, -, -, -⟩ := CodeBuffer.finish_returns finished.laid.toHolds finished.bytes
  obtain ⟨item, last, ends⟩ := finished.laid.ending finished.ends
  obtain ⟨pc, found⟩ := @Item.getLast_program (CodeBuffer.placeOf b.labels) items item last
  refine ⟨_, decoded, ?_, ?_, ?_, ⟨_, found, endsPath_opcode ends⟩, ?_⟩
  · exact fun i member => finished.branchTarget member
  · exact fun i member => finished.switchTargets member
  · exact fun i member => (finished.opcode_of_mem member).1
  · exact fun i member => (finished.opcode_of_mem member).2

end Finished

def CodeAttribute.Fits (code : CodeAttribute) (isStatic : Bool) (params : List Descriptor)
    (returns : Descriptor) : Prop :=
  (if isStatic then 0 else 1) + Descriptor.totalWidth params ≤ code.maxLocals.toNat ∧
    ∃ instructions, Instruction.decode code.code = .ok instructions ∧ Instruction.Enclosed instructions returns

variable {code : CodeAttribute} {params : List Descriptor} {isStatic : Bool}

theorem CodeAttribute.Fits.verify
    {returns : Descriptor} {d : MethodDescriptor} (fits : code.Fits isStatic params returns)
    (split : d.split? = some (params, returns)) (name : String) : code.verify name d isStatic = .ok () := by
  obtain ⟨room, instructions, decoded, enclosed⟩ := fits
  have matching : ∀ i ∈ instructions, require (!i.opcode.isReturn || i.opcode = returns.kind.returnOpcode)
      (.returnOpcode returns.kind.returnOpcode.returnName i.opcode.returnName) = .ok () := by
    intro i member
    cases isReturn : i.opcode.isReturn with
    | false => rfl
    | true => simp [require, enclosed.returns i member isReturn]
  simp only [CodeAttribute.verify, split, decoded]
  rw [bind_eq_ok]
  refine ⟨(), ?_, forM_eq_ok_iff.2 matching⟩
  simp [require, room]

-- The entry of a method passes the checks of code: its type can be told from its descriptor, and what code it
-- has goes with it.
def MethodInfo.Passes (pool : ConstantPool) (m : MethodInfo) : Prop :=
  ∃ name descriptor params returns, pool.utf8? m.name = some name ∧
    pool.utf8? m.descriptor = some descriptor ∧
    MethodDescriptor.split? ⟨descriptor⟩ = some (params, returns) ∧
    (∀ code ∈ m.code, code.Fits (AccessFlags.has m.flags AccessFlags.isStatic) params returns) ∧
    m.verifyCode name ⟨descriptor⟩ = .ok ()

namespace MethodMade

variable {flags : UInt16} {name : String} {d : MethodDescriptor} {pool : ConstantPool} {info : MethodInfo}
  {params : List Descriptor} {returns : Descriptor}

theorem passes_bodiless (made : MethodMade flags name d none pool info) (split : d.split? = some (params, returns))
    (bodiless : AccessFlags.has flags (AccessFlags.isAbstract ||| AccessFlags.isNative) = true) : info.Passes pool := by
  refine ⟨name, d.text, params, returns, made.named, made.typed, split, by simp [made.code], ?_⟩
  rw [MethodInfo.verifyCode, made.flags, if_pos bodiless, made.code]
  rfl

theorem passes_coded (made : MethodMade flags name d (some code) pool info) (split : d.split? = some (params, returns))
    (bodied : AccessFlags.has flags (AccessFlags.isAbstract ||| AccessFlags.isNative) = false)
    (fits : code.Fits (AccessFlags.has flags AccessFlags.isStatic) params returns) : info.Passes pool := by
  refine ⟨name, d.text, params, returns, made.named, made.typed, split, ?_, ?_⟩
  · rw [made.code, made.flags]
    rintro _ ⟨⟩
    exact fits
  · rw [MethodInfo.verifyCode, made.flags, if_neg (by simp [bodied]), made.code]
    exact fits.verify split name

end MethodMade

theorem Generated.fits {site : Site} {pool : ConstantPool} (generated : Generated site pool code)
    (room : (if isStatic then 0 else 1) + Descriptor.totalWidth params ≤ code.maxLocals.toNat) :
    code.Fits isStatic params site.returns := by
  obtain ⟨b, items, finished⟩ := generated
  exact ⟨room, finished.enclosed⟩

namespace Assembly

variable {t : Target} {pool : ConstantPool} {info : MethodInfo} {flags : UInt16}

theorem MethodOf.passes (checked : Review.Checked t.program t.decl)
    (plain : ∀ e ∈ t.program, IsPlain e.internalName) {m : Method} (member : m ∈ t.decl.methods)
    (bodiless : AccessFlags.has flags (AccessFlags.isAbstract ||| AccessFlags.isNative) = t.isBodiless m)
    (static : t.isBodiless m = false → AccessFlags.has flags AccessFlags.isStatic = m.modifier.has .static)
    (entry : MethodOf t flags m pool info) : info.Passes pool := by
  obtain ⟨d, code, typed, codeOf, made⟩ := entry
  obtain ⟨bounded, valued⟩ := checked.methods m member
  obtain ⟨types, result, returned, split, width⟩ := checked.split plain bounded valued typed
  cases codeOf with
  | bodiless none => exact made.passes_bodiless split (bodiless.trans none)
  | body bodied built resolved generated =>
    cases returned.symm.trans resolved
    refine made.passes_coded split (bodiless.trans bodied) (generated.fits ?_)
    rw [static bodied, width]
    exact built.room

theorem ConstructorOf.passes (checked : Review.Checked t.program t.decl)
    (plain : ∀ e ∈ t.program, IsPlain e.internalName) {c : Constructor}
    (valued : ∀ p ∈ c.params, p.type.IsValued) (modified : c.modifier.check .constructor = .ok ())
    (entry : ConstructorOf t c pool info) : info.Passes pool := by
  obtain ⟨d, code, typed, ⟨room, -⟩, generated, made⟩ := entry
  obtain ⟨types, result, returned, split, width⟩ :=
    checked.split plain (by simp : ∀ p ∈ ([] : List TypeParam), p.IsBounded) valued typed
  cases returned
  have coded : AccessFlags.has (AccessFlags.ofMethod c.modifier)
      (AccessFlags.isAbstract ||| AccessFlags.isNative) = false := by
    rw [AccessFlags.isBodiless_ofMethod, Modifier.has_of_check_constructor modified (by decide),
      Modifier.has_of_check_constructor modified (by decide)]
    rfl
  refine made.passes_coded split coded (generated.fits ?_)
  rw [width]
  unfold entrySize at room
  split_ifs <;> simp at room ⊢ <;> omega

theorem StaticInitOf.passes (entry : StaticInitOf t pool info) : info.Passes pool := by
  obtain ⟨code, generated, made⟩ := entry
  have split : noArguments.split? = some ([], .void) := MethodDescriptor.split_of (by simp) _
  have static : AccessFlags.has AccessFlags.isStatic AccessFlags.isStatic = true := by decide
  refine made.passes_coded split (by decide) (generated.fits ?_)
  rw [static]
  exact Nat.zero_le _

theorem ValueMethodOf.passes {isInitializer : Bool} {name : String} {returns : Descriptor} {step : Build CodeAttribute}
    (valued : ∀ p ∈ params, Descriptor.Valued IsPlain p)
    (coded : AccessFlags.has flags (AccessFlags.isAbstract ||| AccessFlags.isNative) = false)
    (entry : ValueMethodOf t isInitializer flags name params returns step pool info) : info.Passes pool := by
  obtain ⟨code, ⟨room, -⟩, generated, made⟩ := entry
  exact made.passes_coded (MethodDescriptor.split_of valued returns) coded (generated.fits room)

theorem Holds.passes (checked : Review.Checked t.program t.decl) (sound : t.decl.Sound)
    (plain : ∀ e ∈ t.program, IsPlain e.internalName) {fields : List FieldInfo} {methods : List MethodInfo}
    (holds : Holds t pool fields methods) : ∀ m ∈ methods, m.Passes pool := by
  have string : Descriptor.Valued IsPlain .string := .ofClass (by simp [IsPlain])
  have int : Descriptor.Valued IsPlain .int := @Descriptor.Valued.ofPrimitive IsPlain .int (by decide)
  intro info member
  cases holds with
  | plainClass shape declared constructed coded initial =>
    have notInterface : t.decl.isInterface = false := by simp [Decl.isInterface, shape]
    rcases List.mem_append.1 member with member | member
    · rcases List.mem_append.1 member with member | member
      · obtain ⟨c, among, entry⟩ := exists_left_of_forall₂ constructed member
        exact entry.passes checked plain (checked.constructors _ shape c among) (sound.constructors _ shape c among).1
      · obtain ⟨m, among, entry⟩ := exists_left_of_forall₂ coded member
        refine MethodOf.passes checked plain (by simpa [Decl.methods, shape] using among) ?_ ?_ entry
        · simp [AccessFlags.isBodiless_ofMethod, Target.isBodiless, notInterface]
        · exact fun _ => AccessFlags.isStatic_ofMethod _
    · exact (initial info member).passes
  | interface shape coded =>
    have bodiless (m : Method) : t.isBodiless m = true := by
      simp [Target.isBodiless, Decl.isInterface, shape]
    obtain ⟨m, among, entry⟩ := exists_left_of_forall₂ coded member
    refine MethodOf.passes checked plain (by simpa [Decl.methods, shape] using among) ?_ ?_ entry
    · rw [bodiless, AccessFlags.isBodiless_ofInterfaceMethod]
    · rw [bodiless]
      exact fun isFalse => absurd isFalse (by decide)
  | enumeration shape named held listed found made initial =>
    simp only [List.mem_cons, List.not_mem_nil, or_false] at member
    rcases member with rfl | rfl | rfl | rfl
    · exact listed.passes (by simp) (by decide)
    · exact found.passes (by simpa using string) (by decide)
    · exact made.passes (by simpa using ⟨string, int⟩) (by decide)
    · exact initial.passes (by simp) (by decide)
  | @record components fields init accessors types shape declared typed made read =>
    have valued : ∀ f ∈ components, ∀ d, t.scope.descriptor f.type = .ok d → Descriptor.Valued IsPlain d :=
      fun f among d found => Scope.erase_valued isPlain_object
        (Program.usesNamed_of_checked checked plain []) (checked.isBounded (by simp))
        (checked.components _ shape f among) found
    rcases List.mem_cons.1 member with rfl | member
    · refine made.passes (fun d among => ?_) (by decide)
      obtain ⟨c, part, rfl⟩ := List.mem_map.1 among
      obtain ⟨f, among, -, found⟩ := exists_left_of_forall₂ typed part
      exact valued f among c.type found
    · obtain ⟨f, among, d, found, entry⟩ := exists_left_of_forall₂ read member
      exact entry.passes (by simp) (by decide)

end Assembly

theorem Program.assemble_passes_codeChecks {path : Text.SourcePath} {source : String} {program : Program}
    {options : Options} {d : Decl} {c : ClassFile} (plain : ∀ segment ∈ path.directory ++ [path.stem], IsPlain segment)
    (accepted : Program.ofSource path source = .ok program) (member : d ∈ program)
    (assembled : program.assemble options d = .ok c) : ∀ m ∈ c.methods, m.Passes c.pool := by
  obtain ⟨packages, among, known⟩ := ofSource_accepted accepted
  obtain ⟨-, -, -, holds⟩ := assemble_holds assembled
  exact holds.passes (known.checked d member) (known.sound d member) fun e member' =>
    known.isPlain (fun p packaged => plain p (among packaged)) member'

theorem Program.assemble_passes_codeChecks_switch :
    ∃ program d c, Program.ofSource ⟨"p/T.ktj"⟩ ("\n".intercalate [
        "class T \x7b", "int f(int k) \x7b", "switch k \x7b", "case 1 \x7b", "return 2", "\x7d",
        "default \x7b", "return 0", "\x7d", "\x7d", "\x7d", "\x7d"]) = .ok program ∧
      d ∈ program ∧ program.assemble {} d = .ok c ∧ c.methods.length = 2 ∧
      ∀ m ∈ c.methods, m.Passes c.pool := by
  generalize written : "\n".intercalate _ = source
  have run : (compile {} ⟨"p/T.ktj"⟩ source).toOption.map (·.any (·.classFile.methods.length = 2)) = some true := by
    rw [← written]
    decide +kernel
  simp only [Option.map_eq_some_iff, toOption_eq_some, List.any_eq_true, decide_eq_true_eq] at run
  obtain ⟨units, compiled, unit, found, length⟩ := run
  obtain ⟨program, accepted, comes⟩ := compile_eq_ok compiled
  obtain ⟨d, member, comes⟩ := exists_left_of_forall₂ comes found
  exact ⟨program, d, unit.classFile, accepted, member, comes.assembled, length,
    assemble_passes_codeChecks (by decide +kernel) accepted member comes.assembled⟩

end ClassForge
