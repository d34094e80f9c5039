import ClassForge.Proofs.Sizes

set_option autoImplicit false

namespace ClassForge

namespace AccessFlags

theorem isPrivate_ofMember (m : Modifier) : has (ofMember m) isPrivate = decide (m.access = .declarer) := by
  have others : has isFinal isPrivate = false ∧ has isAbstract isPrivate = false ∧
      has isStatic isPrivate = false ∧ has isSynchronized isPrivate = false := by decide
  simp only [ofMember, has_or, has_bitsIf, others, Bool.and_false, Bool.or_false]
  cases m.access <;> decide

theorem isPrivate_ofField (m : Modifier) : has (ofField m) isPrivate = decide (m.access = .declarer) := by
  have others : has isVolatile isPrivate = false ∧ has isTransient isPrivate = false := by decide
  simp only [ofField, has_or, has_bitsIf, others, Bool.and_false, Bool.or_false, isPrivate_ofMember]

theorem isPrivate_ofMethod (m : Modifier) : has (ofMethod m) isPrivate = decide (m.access = .declarer) := by
  have others : has isNative isPrivate = false ∧ has isStrict isPrivate = false := by decide
  simp only [ofMethod, has_or, has_bitsIf, others, Bool.and_false, Bool.or_false, isPrivate_ofMember]

theorem isPrivate_ofInterfaceMethod (m : Modifier) : has (ofInterfaceMethod m) isPrivate = false := by
  have cleared : ~~~(isPrivate ||| isProtected) &&& isPrivate = 0 := by decide
  have others : has isPublic isPrivate = false ∧ has isAbstract isPrivate = false := by decide
  have masked : has (ofMethod m &&& ~~~(isPrivate ||| isProtected)) isPrivate = false := by
    simp [has, UInt16.and_assoc, cleared]
  simp [ofInterfaceMethod, masked, others]

end AccessFlags

variable {c : ClassFile} {name descriptor : String} {opcode : Opcode} {index : UInt16} {owner : String}

namespace ClassFile

def HidesField (c : ClassFile) (name descriptor : String) : Prop :=
  ∃ f ∈ c.fields, c.pool.utf8? f.name = some name ∧ c.pool.utf8? f.descriptor = some descriptor ∧
    AccessFlags.has f.flags AccessFlags.isPrivate = true

def HidesMethod (c : ClassFile) (name descriptor : String) : Prop :=
  ∃ m ∈ c.methods, c.pool.utf8? m.name = some name ∧ c.pool.utf8? m.descriptor = some descriptor ∧
    AccessFlags.has m.flags AccessFlags.isPrivate = true

def methodKey (c : ClassFile) (m : MethodInfo) : Option String × Option String :=
  (c.pool.utf8? m.name, c.pool.utf8? m.descriptor)

theorem nodup_of_verifyMethods {seen : MemberKeys} {methods : List MethodInfo}
    (h : c.verifyMethods seen methods = .ok ()) : (methods.map c.methodKey).Nodup := by
  refine (nodup_of_seen (fun seen methods => c.verifyMethods seen methods = .ok ()) ?_ h).1
  intro seen m rest h
  simp only [verifyMethods, bind_eq_ok, ConstantPool.checkText_eq_ok] at h
  obtain ⟨_, -, name, named, descriptor, typed, _, new, _, -, h⟩ := h
  rw [require_eq_ok, Bool.not_eq_true', ← Bool.not_eq_true, Std.TreeSet.contains_iff_mem] at new
  exact ⟨(name, descriptor), by rw [methodKey, named, typed], new, h⟩

theorem not_hidesField (verified : c.verify = .ok ()) {f : FieldInfo} (present : f ∈ c.fields)
    (named : c.pool.utf8? f.name = some name) (typed : c.pool.utf8? f.descriptor = some descriptor)
    (free : AccessFlags.has f.flags AccessFlags.isPrivate = false) : ¬ c.HidesField name descriptor := by
  rintro ⟨g, present', named', typed', hidden⟩
  simp only [verify, bind_eq_ok] at verified
  obtain ⟨_, -, _, -, _, -, _, -, _, -, _, -, _, checked, -⟩ := verified
  obtain rfl : f = g := List.inj_on_of_nodup_map (nodup_of_verifyFields checked) present present'
    (by rw [fieldKey, fieldKey, named, named', typed, typed'])
  rw [hidden] at free
  cases free

theorem not_hidesMethod (verified : c.verify = .ok ()) {m : MethodInfo} (present : m ∈ c.methods)
    (named : c.pool.utf8? m.name = some name) (typed : c.pool.utf8? m.descriptor = some descriptor)
    (free : AccessFlags.has m.flags AccessFlags.isPrivate = false) : ¬ c.HidesMethod name descriptor := by
  rintro ⟨n, present', named', typed', hidden⟩
  simp only [verify, bind_eq_ok] at verified
  obtain ⟨_, -, _, -, _, -, _, -, _, -, _, -, _, -, checked⟩ := verified
  obtain rfl : m = n := List.inj_on_of_nodup_map (nodup_of_verifyMethods checked) present present'
    (by rw [methodKey, methodKey, named, named', typed, typed'])
  rw [hidden] at free
  cases free

end ClassFile

namespace Assembly.Holds

variable {t : Target} {pool : ConstantPool} {fields : List FieldInfo} {methods : List MethodInfo}
  {values : List String}

theorem openValue_of (holds : Holds t pool fields methods) (shape : t.decl.shape = .enumeration values)
    {value : String} (among : value ∈ values) :
    ∃ info ∈ fields, ∃ flags, FieldMade flags value t.selfType pool info ∧
      AccessFlags.has flags AccessFlags.isPrivate = false := by
  cases holds with
  | plainClass shape' | interface shape' => cases shape.symm.trans shape'
  | enumeration shape' named =>
    cases shape.symm.trans shape'
    obtain ⟨info, present, entry⟩ := exists_right_of_forall₂ named among
    exact ⟨info, by simp [present], _, entry, by decide⟩
  | record shape' => cases shape.symm.trans shape'

theorem private_of (holds : Holds t pool fields methods) (shape : t.decl.shape = .enumeration values)
    {info : MethodInfo} (present : info ∈ methods) (hidden : AccessFlags.has info.flags AccessFlags.isPrivate = true) :
    pool.utf8? info.name = some constructorName := by
  cases holds with
  | plainClass shape' | interface shape' => cases shape.symm.trans shape'
  | enumeration shape' _ _ listed found made initial =>
    obtain ⟨_, -, -, listed⟩ := listed
    obtain ⟨_, -, -, found⟩ := found
    obtain ⟨_, -, -, made⟩ := made
    obtain ⟨_, -, -, initial⟩ := initial
    simp only [List.mem_cons, List.not_mem_nil, or_false] at present
    rcases present with rfl | rfl | rfl | rfl
    · rw [listed.flags] at hidden
      exact absurd hidden (by decide)
    · rw [found.flags] at hidden
      exact absurd hidden (by decide)
    · exact made.named
    · rw [initial.flags] at hidden
      exact absurd hidden (by decide)
  | record shape' => cases shape.symm.trans shape'

end Assembly.Holds

namespace ClassUnit.Comes

variable {program : Program} {options : Options} {d : Decl} {u v : ClassUnit}

theorem unique (first : Comes program options d u) (second : Comes program options d v) : u = v := by
  have same : u.classFile = v.classFile := Except.ok.inj (first.assembled.symm.trans second.assembled)
  cases u
  cases v
  cases first.internalName
  cases second.internalName
  cases same
  rfl

theorem not_hidesField (comes : Comes program options d v) {field : FieldTarget}
    (own : program.ownField? d name = .ok (some field)) (free : field.isPrivate = false) :
    ¬ v.classFile.HidesField field.name field.descriptor.text := by
  obtain ⟨-, rfl, ⟨values, shape, among, self, -⟩ | ⟨f, listed, named, typed, -, isPrivate⟩⟩ :=
    Program.ownField_found own
  · obtain ⟨info, present, flags, entry, shown⟩ := comes.holds.openValue_of shape among
    exact ClassFile.not_hidesField comes.verified present entry.named (self ▸ entry.typed) (entry.flags ▸ shown)
  · obtain ⟨info, present, other, typed', entry⟩ := comes.holds.field_of listed
    obtain rfl : field.descriptor = other := Except.ok.inj (typed.symm.trans typed')
    refine ClassFile.not_hidesField comes.verified present (named ▸ entry.named) entry.typed ?_
    rw [entry.flags, AccessFlags.isPrivate_ofField, ← isPrivate, free]

theorem not_hidesMethod (comes : Comes program options d v) {ms : List MethodTarget}
    {m : MethodTarget} (own : program.ownMethods d name = .ok ms) (member : m ∈ ms)
    (free : m.isPrivate = false) (notConstructor : m.name ≠ constructorName) :
    ¬ v.classFile.HidesMethod m.name m.descriptor.text := by
  obtain ⟨⟨-, rfl, -⟩, origin⟩ := Program.ownMethods_found own member
  rcases origin with ⟨declared, among, named, -, isPrivate, typed⟩ | ⟨values, shape, -, -⟩ |
    ⟨components, f, returns, shape, among, named, typed, descriptor, -, -⟩
  · obtain ⟨info, present, d', code, typed', -, entry⟩ := comes.holds.method_of among
    cases typed.symm.trans typed'
    refine ClassFile.not_hidesMethod comes.verified present (named ▸ entry.named) entry.typed ?_
    rw [entry.flags]
    split_ifs
    · exact AccessFlags.isPrivate_ofInterfaceMethod _
    · rw [AccessFlags.isPrivate_ofMethod, ← isPrivate, free]
  · rintro ⟨info, present, named, -, hidden⟩
    rw [comes.holds.private_of shape present hidden, Option.some_inj] at named
    exact notConstructor named.symm
  · obtain ⟨info, present, code, entry⟩ := comes.holds.accessor_of shape among typed
    refine ClassFile.not_hidesMethod comes.verified present (named ▸ entry.named) (descriptor ▸ entry.typed) ?_
    rw [entry.flags]
    decide

end ClassUnit.Comes

theorem AccessFlags.not_isEnum_ofClass {m : Modifier} {shape : Shape} (other : ∀ values, shape ≠ .enumeration values) :
    has (ofClass m shape) isEnum = false := by
  have bits : has isPublic isEnum = false ∧ has 0 isEnum = false ∧ has isSuper isEnum = false ∧
      has isFinal isEnum = false ∧ has isAbstract isEnum = false ∧ has isInterface isEnum = false := by decide
  unfold ofClass
  cases shape with
  | enumeration values => exact absurd rfl (other values)
  | plainClass body | interface parents methods | record components => split_ifs <;> simp [bits]

-- The private members that an instruction of `u` names are those of `u`. The exceptions are constructors of
-- plain classes, and classes that stand in for those of the platform that generated code relies on.
structure Instruction.Respects (units : List ClassUnit) (u : ClassUnit) (i : Instruction) : Prop where
  field : i.opcode ∈ [Opcode.getstatic, .putstatic, .getfield, .putfield] →
    ∃ index owner name descriptor, i.wordOperand? = some index ∧
      u.classFile.pool.RefersTo .fieldRef index owner name descriptor ∧
      ∀ v ∈ units, v.internalName = owner → v.classFile.HidesField name descriptor → v = u
  call : i.opcode ∈ [Opcode.invokevirtual, .invokespecial, .invokestatic, .invokeinterface] →
    ∃ index owner name descriptor, i.wordOperand? = some index ∧
      u.classFile.pool.RefersTo (if i.opcode = .invokeinterface then .interfaceMethodRef else .methodRef)
        index owner name descriptor ∧
      ∀ v ∈ units, v.internalName = owner → v.classFile.HidesMethod name descriptor → v = u ∨
        name = constructorName ∧ AccessFlags.has v.classFile.flags AccessFlags.isEnum = false ∨
        v.internalName ∈ [Gen.builder, Assembly.Enumeration.base, "java/lang/Object"]

namespace Instruction.Respects

variable {units : List ClassUnit} {u : ClassUnit} {i : Instruction}

theorem of_straight (other : i.opcode.isIn .getstatic .new = false) : i.Respects units u := by
  obtain ⟨notField, notCall, -⟩ := i.opcode.sort_of_straight other
  exact ⟨fun among => absurd among notField, fun among => absurd among notCall⟩

theorem of_field (isStatic : Bool)
    (isAccess : opcode ∈ if isStatic then [Opcode.getstatic, .putstatic] else [.getfield, .putfield])
    (ref : u.classFile.pool.RefersTo .fieldRef index owner name descriptor)
    (own : ∀ v ∈ units, v.internalName = owner → v.classFile.HidesField name descriptor → v = u)
    (place : Label → Nat) (pc : Nat) :
    ((Item.plain opcode (Bytes.u2 index)).instruction place pc).Respects units u where
  field _ := ⟨index, owner, name, descriptor, wordOperand_u2 index [], ref, own⟩
  call among := absurd among (Opcode.sort_of_access isStatic _ isAccess).2.1

theorem of_invoke {args : Nat}
    (isCall : opcode ∈ [Opcode.invokevirtual, .invokespecial, .invokestatic, .invokeinterface])
    (ref : u.classFile.pool.RefersTo
      (if opcode = .invokeinterface then .interfaceMethodRef else .methodRef) index owner name descriptor)
    (own : ∀ v ∈ units, v.internalName = owner → v.classFile.HidesMethod name descriptor → v = u ∨
      name = constructorName ∧ AccessFlags.has v.classFile.flags AccessFlags.isEnum = false ∨
      v.internalName ∈ [Gen.builder, Assembly.Enumeration.base, "java/lang/Object"])
    (place : Label → Nat) (pc : Nat) : ((Item.invoke opcode index args).instruction place pc).Respects units u where
  field among := absurd among (opcode.sort_of_call isCall).1
  call _ := ⟨index, owner, name, descriptor, wordOperand_u2 index _, ref, own⟩

end Instruction.Respects

section File

variable {options : Options} {packages : List String} {program : Program} {units : List ClassUnit}
  {d : Decl} {u v : ClassUnit}

theorem MadeFile.respects (file : MadeFile options packages program units) (among : d ∈ program)
    (come : ClassUnit.Comes program options d u) {site : Site} (same : site.program = program)
    (own : site.scope.decl = d) {item : Item} (emits : Emits site u.classFile.pool item)
    (formed : item.WellFormed) (place : Label → Nat) (pc : Nat) : (item.instruction place pc).Respects units u := by
  subst same own
  have itself (v : ClassUnit) (member : v ∈ units) (named : v.internalName = site.self) : v = u :=
    (file.come_of_name among member named).unique come
  have ofField {field : FieldTarget} (has : site.program.HasField field)
      (allowed : field.isPrivate = true → field.owner = site.self) :
      ∀ v ∈ units, v.internalName = field.owner → v.classFile.HidesField field.name field.descriptor.text → v = u := by
    intro v member named hidden
    obtain ⟨e, known, owned⟩ := has
    have come' := file.come_of_name (Program.mem_of_findInternal known) member
      (by rw [named, Program.internalName_of_found known])
    cases isPrivate : field.isPrivate with
    | false => exact absurd hidden (come'.not_hidesField owned isPrivate)
    | true => exact itself v member (named.trans (allowed isPrivate))
  cases emits with
  | plain free => exact .of_straight (Opcode.not_member_of _ (.inl free))
  | jump opcode target => exact .of_straight (Opcode.not_member_of _ (.inr (.inl formed)))
  | switch default pairs => exact .of_straight rfl
  | ret => exact .of_straight (Opcode.not_member_of _ (.inr (.inr (Kind.isReturn_returnOpcode _))))
  | @read field index has allowed ref | @write field index has allowed _ ref =>
    exact .of_field field.isStatic (by cases field.isStatic <;> decide) ref (ofField has allowed) place pc
  | @setUp field _ _ sets typed ref =>
    exact .of_field (field.modifier.has .static) (by cases field.modifier.has .static <;> decide) ref
      (fun v member named _ => itself v member named) place pc
  | @call m index has allowed ref =>
    obtain ⟨notStatic, notConstructor⟩ := file.method_facts has
    obtain ⟨e, ms, known, owned, listed⟩ := has
    obtain ⟨isCall, interface, -⟩ := m.invokeOpcode_facts notStatic
    refine .of_invoke isCall (by simpa only [interface] using ref) (fun v member named hidden => .inl ?_) place pc
    have come' := file.come_of_name (Program.mem_of_findInternal known) member
      (by rw [named, Program.internalName_of_found known])
    cases isPrivate : m.isPrivate with
    | false => exact absurd hidden (come'.not_hidesMethod owned listed isPrivate notConstructor)
    | true => exact itself v member (named.trans (allowed isPrivate))
  | @construct owner params index has ref =>
    refine .of_invoke (by decide) ref (fun v member named hidden => .inr (.inl ⟨rfl, ?_⟩)) place pc
    obtain ⟨e, known, come'⟩ := file.found member
    rw [come'.flags]
    refine AccessFlags.not_isEnum_ofClass fun values shape => ?_
    rw [named] at known
    rcases has with unknown | ⟨_, candidates, known', makes, -⟩
    · rw [unknown] at known
      cases known
    · cases known.symm.trans known'
      simp [Program.constructorParams, shape] at makes
  | @foreign opcode owner name descriptor index args isCall away special ref =>
    obtain ⟨plain, isCall⟩ := opcode.call_of_plain isCall
    refine .of_invoke isCall (by rwa [if_neg plain]) (fun v member named _ => ?_) place pc
    rcases away with platform | ⟨array, same⟩
    · exact .inr (.inr (named ▸ platform))
    · obtain ⟨e, among', come'⟩ := exists_left_of_forall₂ file.comes member
      exact absurd (come'.internalName.symm.trans (named.trans same)) (file.accepted.ne_array among' array)
  | component isAccess sets shape own typed ref =>
    exact .of_field false isAccess ref (fun v member named _ => itself v member named) place pc
  | value isAccess sets shape own ref =>
    exact .of_field true isAccess ref (fun v member named _ => itself v member named) place pc
  | makeValue shape ref =>
    exact .of_invoke (by decide) ref (fun v member named _ => .inl (itself v member named)) place pc
  | newValue sets shape ref | new can ref =>
    constructor <;> exact fun among => absurd (show Opcode.new ∈ _ from among) (by decide)

end File

theorem Session.compile_respects {s later : Session} {path : Text.SourcePath} {source : String} {count : Nat}
    (compiled : s.compile path source = (.ok count, later)) :
    ∀ u ∈ later.units, ∀ m ∈ u.classFile.methods, ∀ code, m.code = some code →
      ∃ instructions, Instruction.decode code.code = .ok instructions ∧
        ∀ i ∈ instructions, i.Respects later.units u := by
  intro u member m present code coded
  obtain ⟨accepted, comes⟩ := compile_comes compiled
  obtain ⟨packages, -, known⟩ := Program.ofSource_accepted accepted
  obtain ⟨d, among, come⟩ := exists_left_of_forall₂ comes member
  obtain ⟨site, name, -, generated, same, own, -⟩ := come.holds.generated_of present coded
  obtain ⟨instructions, decoded, each⟩ := generated.instructions
  refine ⟨instructions, decoded, fun i instruction => ?_⟩
  obtain ⟨item, place, pc, emits, formed, rfl⟩ := each i instruction
  exact MadeFile.respects ⟨known, comes⟩ among come same own emits formed place pc

theorem Session.compile_respects_constructor :
    ∃ later, ({} : Session).compile ⟨"F.k"⟩ ("\n".intercalate [
        "class A \x7b", "private int x", "private init() \x7b", "x = 1", "\x7d", "\x7d",
        "class B \x7b", "A make() \x7b", "return new A()", "\x7d", "\x7d"]) = (.ok 2, later) ∧
      (∃ v ∈ later.units, v.internalName = "F/A" ∧ v.classFile.HidesMethod constructorName "()V" ∧
        v.classFile.HidesField "x" "I") ∧
      ∀ u ∈ later.units, ∀ m ∈ u.classFile.methods, ∀ code, m.code = some code →
        ∃ instructions, Instruction.decode code.code = .ok instructions ∧
          ∀ i ∈ instructions, i.Respects later.units u := by
  generalize written : "\n".intercalate _ = source
  obtain ⟨later, compiled, hides⟩ : ∃ later, ({} : Session).compile ⟨"F.k"⟩ source = (.ok 2, later) ∧
      ∃ v ∈ later.units, v.internalName = "F/A" ∧ v.classFile.HidesMethod constructorName "()V" ∧
        v.classFile.HidesField "x" "I" := by
    refine compile_returns written ?_
    unfold ClassFile.HidesMethod ClassFile.HidesField
    decide +kernel
  exact ⟨later, compiled, hides, compile_respects compiled⟩

end ClassForge
