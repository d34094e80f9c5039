import ClassForge.Proofs.CodeChecks

set_option autoImplicit false

namespace ClassForge

namespace ClassFile

def DeclaresField (c : ClassFile) (name descriptor : String) (isStatic : Bool) : Prop :=
  ∃ f ∈ c.fields, c.pool.utf8? f.name = some name ∧ c.pool.utf8? f.descriptor = some descriptor ∧
    AccessFlags.has f.flags AccessFlags.isStatic = isStatic

def DeclaresMethod (c : ClassFile) (name descriptor : String) (isStatic : Bool) : Prop :=
  ∃ m ∈ c.methods, c.pool.utf8? m.name = some name ∧ c.pool.utf8? m.descriptor = some descriptor ∧
    AccessFlags.has m.flags AccessFlags.isStatic = isStatic

def InheritsMethod (c : ClassFile) (name descriptor : String) : Prop :=
  AccessFlags.has c.flags AccessFlags.isEnum = true ∧
    (name, descriptor) ∈ [("name", "()Ljava/lang/String;"), ("ordinal", "()I")]

def isInstantiable (c : ClassFile) : Bool :=
  !AccessFlags.has c.flags (AccessFlags.isAbstract ||| AccessFlags.isInterface ||| AccessFlags.isEnum)

end ClassFile

structure Instruction.Links (units : List ClassUnit) (u : ClassUnit) (method : String) (i : Instruction) :
    Prop where
  field : i.opcode ∈ [Opcode.getstatic, .putstatic, .getfield, .putfield] →
    ∃ index owner name descriptor, i.wordOperand? = some index ∧
      u.classFile.pool.RefersTo .fieldRef index owner name descriptor ∧
      ∀ v ∈ units, v.internalName = owner →
        v.classFile.DeclaresField name descriptor (i.opcode ∈ [Opcode.getstatic, .putstatic])
  call : i.opcode ∈ [Opcode.invokevirtual, .invokespecial, .invokestatic, .invokeinterface] →
    ∃ index owner name descriptor, i.wordOperand? = some index ∧
      u.classFile.pool.RefersTo (if i.opcode = .invokeinterface then .interfaceMethodRef else .methodRef)
        index owner name descriptor ∧
      (name = constructorName → i.opcode = .invokespecial) ∧
      ∀ v ∈ units, v.internalName = owner →
        (i.opcode = .invokeinterface ↔ AccessFlags.has v.classFile.flags AccessFlags.isInterface = true) ∧
        if name = constructorName then ∃ isStatic, v.classFile.DeclaresMethod name descriptor isStatic
        else v.classFile.DeclaresMethod name descriptor (i.opcode = .invokestatic) ∨
          i.opcode = .invokevirtual ∧ v.classFile.InheritsMethod name descriptor
  new : i.opcode = .new →
    ∃ index owner, i.wordOperand? = some index ∧ u.classFile.pool.className? index = some owner ∧
      ∀ v ∈ units, v.internalName = owner → v.classFile.isInstantiable = true ∨
        v.internalName = u.internalName ∧ AccessFlags.has v.classFile.flags AccessFlags.isEnum = true ∧
          method = Assembly.staticInitName
  others : i.opcode ≠ .invokedynamic

namespace ClassUnit.Comes

variable {program : Program} {options : Options} {d : Decl} {v : ClassUnit}

theorem holds (comes : ClassUnit.Comes program options d v) :
    Assembly.Holds { program, decl := d, options } v.classFile.pool v.classFile.fields v.classFile.methods :=
  (Program.assemble_holds comes.assembled).2.2.2

theorem flags (comes : ClassUnit.Comes program options d v) :
    v.classFile.flags = AccessFlags.ofClass d.modifier d.shape :=
  (Program.assemble_holds comes.assembled).2.2.1

end ClassUnit.Comes

variable {f : Field} {values : List String} {name : String} {descriptor : Descriptor} {components : List Field}
  {code : CodeAttribute} {c : ClassFile}

namespace Assembly.Holds

variable {t : Target} {pool : ConstantPool} {fields : List FieldInfo} {methods : List MethodInfo}

variable (holds : Holds t pool fields methods)
include holds

theorem field_of (own : f ∈ t.decl.fields) : ∃ info ∈ fields, FieldOf t f pool info := by
  cases holds with
  | plainClass shape declared =>
    exact exists_right_of_forall₂ declared (by simpa [Decl.fields, shape] using own)
  | interface shape | enumeration shape => simp [Decl.fields, shape] at own
  | record shape declared =>
    exact exists_right_of_forall₂ declared (by simpa [Decl.fields, shape] using own)

theorem method_of {m : Method} (own : m ∈ t.decl.methods) :
    ∃ info ∈ methods, MethodOf t (if t.decl.isInterface then AccessFlags.ofInterfaceMethod m.modifier
      else AccessFlags.ofMethod m.modifier) m pool info := by
  cases holds with
  | plainClass shape _ _ coded =>
    obtain ⟨info, present, entry⟩ := exists_right_of_forall₂ coded (by simpa [Decl.methods, shape] using own)
    exact ⟨info, by simp [present], by simpa [Decl.isInterface, shape] using entry⟩
  | interface shape coded =>
    obtain ⟨info, present, entry⟩ := exists_right_of_forall₂ coded (by simpa [Decl.methods, shape] using own)
    exact ⟨info, present, by simpa [Decl.isInterface, shape] using entry⟩
  | enumeration shape | record shape => simp [Decl.methods, shape] at own

theorem constructor_of {body : ClassBody}
    (shape : t.decl.shape = .plainClass body) {c : Constructor} (own : c ∈ body.constructors) :
    ∃ info ∈ methods, ConstructorOf t c pool info := by
  cases holds with
  | plainClass shape' _ constructed =>
    cases shape.symm.trans shape'
    obtain ⟨info, present, entry⟩ := exists_right_of_forall₂ constructed own
    exact ⟨info, by simp [present], entry⟩
  | interface shape' | enumeration shape' | record shape' => cases shape.symm.trans shape'

theorem value_of (shape : t.decl.shape = .enumeration values) (own : (name ∈ values ∧ descriptor = t.selfType) ∨
      (name = Enumeration.valuesField ∧ descriptor = t.selfType.arrayOf)) :
    ∃ info ∈ fields, ∃ flags, FieldMade flags name descriptor pool info ∧
      AccessFlags.has flags AccessFlags.isStatic = true := by
  cases holds with
  | plainClass shape' | interface shape' => cases shape.symm.trans shape'
  | enumeration shape' named held =>
    cases shape.symm.trans shape'
    rcases own with ⟨among, rfl⟩ | ⟨rfl, rfl⟩
    · obtain ⟨info, present, entry⟩ := exists_right_of_forall₂ named among
      exact ⟨info, by simp [present], _, entry, by decide⟩
    · exact ⟨_, by simp, _, held, by decide⟩
  | record shape' => cases shape.symm.trans shape'

theorem valueMethod_of (shape : t.decl.shape = .enumeration values) :
    ∀ entry ∈ [("values", MethodDescriptor.of [] t.selfType.arrayOf, true),
        ("valueOf", .of [.string] t.selfType, true), (constructorName, Enumeration.constructorType, false)],
      ∃ info ∈ methods, ∃ flags code, MethodMade flags entry.1 entry.2.1 code pool info ∧
        AccessFlags.has flags AccessFlags.isStatic = entry.2.2 := by
  cases holds with
  | plainClass shape' | interface shape' => cases shape.symm.trans shape'
  | enumeration shape' _ _ listed found made =>
    obtain ⟨_, -, -, listed⟩ := listed
    obtain ⟨_, -, -, found⟩ := found
    obtain ⟨_, -, -, made⟩ := made
    simp only [List.forall_mem_cons, List.not_mem_nil, false_implies, implies_true, and_true]
    exact ⟨⟨_, by simp, _, _, listed, by decide⟩, ⟨_, by simp, _, _, found, by decide⟩,
      ⟨_, by simp, _, _, made, by decide⟩⟩
  | record shape' => cases shape.symm.trans shape'

theorem accessor_of (shape : t.decl.shape = .record components) (own : f ∈ components) {d : Descriptor}
    (typed : t.scope.descriptor f.type = .ok d) :
    ∃ info ∈ methods, ∃ code, MethodMade AccessFlags.isPublic f.name (.of [] d) code pool info := by
  cases holds with
  | plainClass shape' | interface shape' | enumeration shape' => cases shape.symm.trans shape'
  | record shape' _ _ _ read =>
    cases shape.symm.trans shape'
    obtain ⟨info, present, d', typed', code, -, -, entry⟩ := exists_right_of_forall₂ read own
    cases typed.symm.trans typed'
    exact ⟨info, by simp [present], _, entry⟩

theorem recordConstructor_of (shape : t.decl.shape = .record components) {types : List Descriptor}
    (typed : List.Forall₂ (fun f d => t.scope.descriptor f.type = .ok d) components types) :
    ∃ info ∈ methods, ∃ code, MethodMade AccessFlags.isPublic constructorName (.of types .void) code pool info := by
  cases holds with
  | plainClass shape' | interface shape' | enumeration shape' => cases shape.symm.trans shape'
  | record shape' _ typed' made =>
    cases shape.symm.trans shape'
    obtain ⟨code, -, -, entry⟩ := made
    cases (mapM_eq_ok_iff.2 typed).symm.trans
      (mapM_eq_ok_iff.2 (List.forall₂_map_right_iff.2 (typed'.imp fun _ _ known => known.2)))
    exact ⟨_, by simp, _, entry⟩

theorem generated_of {info : MethodInfo} (present : info ∈ methods)
    (coded : info.code = some code) :
    ∃ site name, pool.utf8? info.name = some name ∧ Generated site pool code ∧
      site.program = t.program ∧ site.scope.decl = t.decl ∧
      (site.isInitializer = true → (∃ values, t.decl.shape = .enumeration values) →
        name = staticInitName) := by
  have coming {flags : UInt16} {name : String} {d : MethodDescriptor} {made : CodeAttribute} {site : Site}
      (entry : MethodMade flags name d (some made) pool info) (generated : Generated site pool made)
      (same : site.program = t.program ∧ site.scope.decl = t.decl)
      (last : site.isInitializer = true → (∃ values, t.decl.shape = .enumeration values) → name = staticInitName) :
      ∃ site name, pool.utf8? info.name = some name ∧ Generated site pool code ∧
        site.program = t.program ∧ site.scope.decl = t.decl ∧
        (site.isInitializer = true → (∃ values, t.decl.shape = .enumeration values) → name = staticInitName) := by
    cases coded.symm.trans entry.code
    exact ⟨_, _, entry.named, generated, same.1, same.2, last⟩
  cases holds with
  | plainClass shape _ constructed methods' initial =>
    rcases List.mem_append.1 present with present | present
    · rcases List.mem_append.1 present with present | present
      · obtain ⟨c, -, d, made, -, -, generated, entry⟩ := exists_left_of_forall₂ constructed present
        exact coming entry generated ⟨rfl, rfl⟩ (by simp [shape])
      · obtain ⟨m, -, d, made, -, codeOf, entry⟩ := exists_left_of_forall₂ methods' present
        cases codeOf with
        | bodiless => cases coded.symm.trans entry.code
        | body bodied _ typed generated => exact coming entry generated ⟨rfl, rfl⟩ (by simp [shape])
    · obtain ⟨made, generated, entry⟩ := initial info present
      exact coming entry generated ⟨rfl, rfl⟩ (by simp [shape])
  | interface shape methods' =>
    obtain ⟨m, -, d, made, -, codeOf, entry⟩ := exists_left_of_forall₂ methods' present
    cases codeOf with
    | bodiless => cases coded.symm.trans entry.code
    | body bodied => simp [Target.isBodiless, Decl.isInterface, shape] at bodied
  | enumeration shape _ _ listed found made initial =>
    obtain ⟨_, -, listing, listed⟩ := listed
    obtain ⟨_, -, finding, found⟩ := found
    obtain ⟨_, -, making, made⟩ := made
    obtain ⟨_, -, setting, initial⟩ := initial
    simp only [List.mem_cons, List.not_mem_nil, or_false] at present
    rcases present with rfl | rfl | rfl | rfl
    · exact coming listed listing ⟨rfl, rfl⟩ (by rintro ⟨⟩)
    · exact coming found finding ⟨rfl, rfl⟩ (by rintro ⟨⟩)
    · exact coming made making ⟨rfl, rfl⟩ (by rintro ⟨⟩)
    · exact coming initial setting ⟨rfl, rfl⟩ fun _ _ => rfl
  | record shape _ _ made read =>
    rcases List.mem_cons.1 present with rfl | present
    · obtain ⟨made, -, generated, entry⟩ := made
      exact coming entry generated ⟨rfl, rfl⟩ (by simp [shape])
    · obtain ⟨f, -, d, -, made, -, generated, entry⟩ := exists_left_of_forall₂ read present
      exact coming entry generated ⟨rfl, rfl⟩ (by simp [shape])

end Assembly.Holds

theorem ClassFile.verifyMethods_flags {seen : MemberKeys} {methods : List MethodInfo}
    (h : c.verifyMethods seen methods = .ok ()) : ∀ m ∈ methods, AccessFlags.verifyMethod c.flags m.flags = .ok () := by
  induction methods generalizing seen with
  | nil => simp
  | cons m rest ih =>
    simp only [ClassFile.verifyMethods, bind_eq_ok] at h
    obtain ⟨_, flags, name, -, descriptor, -, _, -, _, -, more⟩ := h
    exact List.forall_mem_cons.2 ⟨flags, ih more⟩

theorem ClassFile.verify_flags (h : c.verify = .ok ()) :
    ∀ m ∈ c.methods, AccessFlags.verifyMethod c.flags m.flags = .ok () := by
  simp only [ClassFile.verify, bind_eq_ok] at h
  obtain ⟨_, -, _, -, _, -, _, -, _, -, _, -, _, -, methods⟩ := h
  exact verifyMethods_flags methods

theorem require_eq_ok {condition : Bool} {error : VerifyError} :
    require condition error = .ok () ↔ condition = true := by
  cases condition <;> simp [require]

theorem AccessFlags.not_static_of_verifyMethod {classFlags : UInt16} {m : Modifier}
    (h : verifyMethod classFlags (ofInterfaceMethod m) = .ok ()) : m.has .static = false := by
  simp only [verifyMethod, bind_eq_ok, isAbstract_ofInterfaceMethod, if_true] at h
  obtain ⟨_, -, _, excluded, -⟩ := h
  rw [require_eq_ok] at excluded
  simp only [has_or_bits, isStatic_ofInterfaceMethod] at excluded
  cases static : m.has .static with
  | false => rfl
  | true => simp [static] at excluded

variable {m : MethodTarget} {field : FieldTarget} {params : List Descriptor}

namespace ClassUnit.Comes

variable {program : Program} {options : Options} {d : Decl} {v : ClassUnit}

variable (comes : ClassUnit.Comes program options d v)
include comes

theorem declaresOwn (own : f ∈ d.fields) (typed : (program.scopeOf d).descriptor f.type = .ok descriptor) :
    v.classFile.DeclaresField f.name descriptor.text (f.modifier.has .static) := by
  obtain ⟨info, present, other, typed', entry⟩ := comes.holds.field_of own
  cases typed.symm.trans typed'
  exact ⟨info, present, entry.named, entry.typed, by rw [entry.flags, AccessFlags.isStatic_ofField]⟩

theorem declaresValue (shape : d.shape = .enumeration values)
    (own : (name ∈ values ∧ descriptor = .ofClass d.internalName) ∨
      (name = Assembly.Enumeration.valuesField ∧ descriptor = (Descriptor.ofClass d.internalName).arrayOf)) :
    v.classFile.DeclaresField name descriptor.text true := by
  obtain ⟨info, present, flags, entry, static⟩ := comes.holds.value_of shape own
  exact ⟨info, present, entry.named, entry.typed, entry.flags ▸ static⟩

theorem declaresField (h : program.ownField? d name = .ok (some field)) :
    v.classFile.DeclaresField field.name field.descriptor.text field.isStatic := by
  obtain ⟨-, rfl, ⟨values, shape, among, self, static⟩ | ⟨f, own, named, typed, static, -⟩⟩ := Program.ownField_found h
  · rw [self, static]
    exact comes.declaresValue shape (.inl ⟨among, rfl⟩)
  · rw [← named, static]
    exact comes.declaresOwn own typed

theorem not_static_of_isInterface (isInterface : d.isInterface = true) {m : Method} (own : m ∈ d.methods) :
    m.modifier.has .static = false := by
  obtain ⟨info, present, _, _, -, -, entry⟩ := comes.holds.method_of own
  have checked := ClassFile.verify_flags comes.verified info present
  simp only [isInterface, if_true] at entry
  rw [entry.flags] at checked
  exact AccessFlags.not_static_of_verifyMethod checked

theorem declaresMethod {ms : List MethodTarget} (h : program.ownMethods d name = .ok ms) (member : m ∈ ms) :
    v.classFile.DeclaresMethod m.name m.descriptor.text m.isStatic ∨
      m.isStatic = false ∧ m.isPrivate = false ∧ d.isInterface = false ∧
        v.classFile.InheritsMethod m.name m.descriptor.text := by
  have holds := comes.holds
  obtain ⟨⟨-, rfl, -⟩, origin⟩ := Program.ownMethods_found h member
  rcases origin with ⟨own, among, named, static, -, typed⟩ | ⟨values, shape, notPrivate, found⟩ |
    ⟨components, f, returns, shape, among, named, typed, descriptor, static, -⟩
  · obtain ⟨info, present, d', code, typed', -, entry⟩ := holds.method_of among
    cases typed.symm.trans typed'
    refine .inl ⟨info, present, named ▸ entry.named, entry.typed, ?_⟩
    rw [entry.flags, static]
    split_ifs
    · exact AccessFlags.isStatic_ofInterfaceMethod _
    · exact AccessFlags.isStatic_ofMethod _
  · have declared : ∀ entry ∈ [("values", MethodDescriptor.of [] (Descriptor.ofClass d.internalName).arrayOf, true),
        ("valueOf", .of [.string] (.ofClass d.internalName), true)],
        v.classFile.DeclaresMethod entry.1 entry.2.1.text entry.2.2 := by
      intro entry listed
      obtain ⟨info, present, flags, code, made, static⟩ :=
        holds.valueMethod_of shape entry (List.mem_append_left [_] listed)
      exact ⟨info, present, made.named, made.typed, made.flags ▸ static⟩
    have flags : AccessFlags.has v.classFile.flags AccessFlags.isEnum = true := by
      rw [comes.flags, shape]
      exact AccessFlags.isEnum_ofClass _ _
    have notInterface : d.isInterface = false := by simp [Decl.isInterface, shape]
    unfold MethodTarget.ofEnumeration? at found
    split at found
    case h_5 => cases found
    all_goals
      simp only [Option.some_inj, Prod.mk.injEq] at found
      rename_i named
      rw [named, ← found.1, ← found.2]
      first
      | exact .inl (declared _ List.mem_cons_self)
      | exact .inl (declared _ (List.mem_cons_of_mem _ List.mem_cons_self))
      | exact .inr ⟨rfl, notPrivate, notInterface, flags, by decide +kernel⟩
  · obtain ⟨info, present, code, entry⟩ := holds.accessor_of shape among typed
    refine .inl ⟨info, present, named ▸ entry.named, descriptor ▸ entry.typed, ?_⟩
    rw [entry.flags, static]
    decide

theorem declaresValueConstructor (shape : d.shape = .enumeration values) :
    v.classFile.DeclaresMethod constructorName Assembly.Enumeration.constructorType.text false := by
  obtain ⟨info, present, flags, code, made, static⟩ :=
    comes.holds.valueMethod_of shape (constructorName, Assembly.Enumeration.constructorType, false) (by simp)
  exact ⟨info, present, made.named, made.typed, made.flags ▸ static⟩

theorem declaresConstructor {candidates : List (List Descriptor)}
    (h : program.constructorParams d = .ok candidates) (member : params ∈ candidates) :
    d.isInterface = false ∧ ∃ isStatic,
      v.classFile.DeclaresMethod constructorName (MethodDescriptor.of params .void).text isStatic := by
  have holds := comes.holds
  unfold Program.constructorParams at h
  dsimp only at h
  split at h
  next body shape =>
    obtain ⟨c, own, typed⟩ := exists_of_mapM_eq_ok h member
    obtain ⟨info, present, descriptor, code, typed', -, -, entry⟩ := holds.constructor_of shape own
    have same : descriptor = .of params .void := by
      simp only [Scope.methodDescriptor, bind_eq_ok, pure_eq_ok, Scope.resultDescriptor] at typed'
      obtain ⟨types, typed', returns, returned, rfl⟩ := typed'
      cases typed.symm.trans typed'
      cases returned
      rfl
    exact ⟨by simp [Decl.isInterface, shape], _, info, present, entry.named, same ▸ entry.typed, rfl⟩
  next components shape =>
    simp only [bind_eq_ok, pure_eq_ok] at h
    obtain ⟨types, typed, rfl⟩ := h
    rw [List.mem_singleton.1 member]
    obtain ⟨info, present, code, entry⟩ := holds.recordConstructor_of shape (mapM_eq_ok_iff.1 typed)
    exact ⟨by simp [Decl.isInterface, shape], _, info, present, entry.named, entry.typed, rfl⟩
  next => cases h

theorem isInterface_flags : AccessFlags.has v.classFile.flags AccessFlags.isInterface = d.isInterface := by
  rw [comes.flags, Bool.eq_iff_iff, AccessFlags.isInterface_ofClass]
  unfold Decl.isInterface
  cases d.shape <;> simp

theorem isInstantiable_flags (can : (∃ components, d.shape = .record components) ∨
      ∃ body, d.shape = .plainClass body ∧ d.modifier.has .abstract = false) :
    v.classFile.isInstantiable = true := by
  unfold ClassFile.isInstantiable
  rw [comes.flags]
  rcases can with ⟨components, shape⟩ | ⟨body, shape, concrete⟩
  · rw [shape]
    simp only [AccessFlags.ofClass]
    split_ifs <;> decide
  · rw [shape]
    simp only [AccessFlags.ofClass, AccessFlags.bitsIf, concrete, Bool.false_eq_true, if_false]
    split_ifs <;> decide

end ClassUnit.Comes

namespace Opcode

theorem not_member_of : ∀ opcode : Opcode,
    opcode.isFree = true ∨ opcode.isBranch = true ∨ opcode.isReturn = true → opcode.isIn .getstatic .new = false := by
  decide +kernel

theorem sort_of_straight : ∀ opcode : Opcode, opcode.isIn .getstatic .new = false →
    opcode ∉ [Opcode.getstatic, .putstatic, .getfield, .putfield] ∧
      opcode ∉ [Opcode.invokevirtual, .invokespecial, .invokestatic, .invokeinterface] ∧
      opcode ≠ .new ∧ opcode ≠ .invokedynamic := by
  decide +kernel

theorem sort_of_access : ∀ isStatic : Bool,
    ∀ opcode ∈ if isStatic then [Opcode.getstatic, .putstatic] else [.getfield, .putfield],
      decide (opcode ∈ [Opcode.getstatic, .putstatic]) = isStatic ∧
      opcode ∉ [Opcode.invokevirtual, .invokespecial, .invokestatic, .invokeinterface] ∧
      opcode ≠ .new ∧ opcode ≠ .invokedynamic := by
  decide +kernel

theorem sort_of_call : ∀ opcode ∈ [Opcode.invokevirtual, .invokespecial, .invokestatic, .invokeinterface],
    opcode ∉ [Opcode.getstatic, .putstatic, .getfield, .putfield] ∧ opcode ≠ .new ∧ opcode ≠ .invokedynamic := by
  decide +kernel

theorem call_of_plain : ∀ opcode ∈ [Opcode.invokevirtual, .invokespecial, .invokestatic],
    opcode ≠ .invokeinterface ∧ opcode ∈ [Opcode.invokevirtual, .invokespecial, .invokestatic, .invokeinterface] := by
  intro opcode among
  refine ⟨?_, List.mem_append_left [invokeinterface] among⟩
  rintro rfl
  exact absurd among (by decide)

end Opcode

variable {index : UInt16} {owner : String}

namespace Instruction

namespace Links

variable {units : List ClassUnit} {u : ClassUnit} {method : String} {i : Instruction}

theorem of_straight (other : i.opcode.isIn .getstatic .new = false) : i.Links units u method := by
  obtain ⟨notField, notCall, notNew, others⟩ := i.opcode.sort_of_straight other
  exact ⟨fun among => absurd among notField, fun among => absurd among notCall, fun same => absurd same notNew, others⟩

theorem of_field (isStatic : Bool) {descriptor : String}
    (isAccess : i.opcode ∈ if isStatic then [Opcode.getstatic, .putstatic] else [.getfield, .putfield])
    (operand : i.wordOperand? = some index) (ref : u.classFile.pool.RefersTo .fieldRef index owner name descriptor)
    (declared : ∀ v ∈ units, v.internalName = owner → v.classFile.DeclaresField name descriptor isStatic) :
    i.Links units u method := by
  obtain ⟨static, notCall, notNew, others⟩ := Opcode.sort_of_access isStatic _ isAccess
  refine ⟨fun _ => ⟨index, owner, name, descriptor, operand, ref, ?_⟩, fun among => absurd among notCall,
    fun same => absurd same notNew, others⟩
  rw [static]
  exact declared

theorem of_new (isNew : i.opcode = .new)
    (operand : i.wordOperand? = some index) (ref : u.classFile.pool.className? index = some owner)
    (can : ∀ v ∈ units, v.internalName = owner → v.classFile.isInstantiable = true ∨
      v.internalName = u.internalName ∧ AccessFlags.has v.classFile.flags AccessFlags.isEnum = true ∧
        method = Assembly.staticInitName) : i.Links units u method := by
  refine ⟨fun among => ?_, fun among => ?_, fun _ => ⟨index, owner, operand, ref, can⟩, by rw [isNew]; decide⟩
  all_goals
    rw [isNew] at among
    exact absurd among (by decide)

theorem of_invoke {opcode : Opcode} {args : Nat} {descriptor : String}
    (isCall : opcode ∈ [Opcode.invokevirtual, .invokespecial, .invokestatic, .invokeinterface])
    (ref : u.classFile.pool.RefersTo
      (if opcode = .invokeinterface then .interfaceMethodRef else .methodRef) index owner name descriptor)
    (special : name = constructorName → opcode = .invokespecial)
    (declared : ∀ v ∈ units, v.internalName = owner →
      (opcode = .invokeinterface ↔ AccessFlags.has v.classFile.flags AccessFlags.isInterface = true) ∧
      if name = constructorName then ∃ isStatic, v.classFile.DeclaresMethod name descriptor isStatic
      else v.classFile.DeclaresMethod name descriptor (opcode = .invokestatic) ∨
        opcode = .invokevirtual ∧ v.classFile.InheritsMethod name descriptor)
    (place : Label → Nat) (pc : Nat) : ((Item.invoke opcode index args).instruction place pc).Links units u method := by
  obtain ⟨notField, notNew, others⟩ := opcode.sort_of_call isCall
  exact ⟨fun among => absurd among notField,
    fun _ => ⟨index, owner, name, descriptor, wordOperand_u2 index _, ref, special, declared⟩,
    fun same => absurd same notNew, others⟩

end Links

end Instruction

theorem MethodTarget.invokeOpcode_facts (m : MethodTarget) (notStatic : m.onInterface = true → m.isStatic = false) :
    m.invokeOpcode ∈ [Opcode.invokevirtual, .invokespecial, .invokestatic, .invokeinterface] ∧
      (m.invokeOpcode = .invokeinterface ↔ m.onInterface = true) ∧
      decide (m.invokeOpcode = .invokestatic) = m.isStatic := by
  unfold MethodTarget.invokeOpcode
  cases static : m.isStatic <;> cases interface : m.onInterface <;> cases m.isPrivate <;>
    simp_all <;> decide

variable {d : Decl} {site : Site} {path : Text.SourcePath} {count : Nat}

theorem Program.Accepted.ne_array {packages : List String} {program : Program} (accepted : program.Accepted packages)
    (among : d ∈ program) (name : String) : d.internalName ≠ (Descriptor.ofClass name).arrayOf.text := by
  intro array
  have word := (accepted.sound d among).word
  have last : ∃ front, d.internalName = front ++ d.name := by
    cases accepted.named d among with
    | top _ internal | nested _ _ internal => exact ⟨_, internal⟩
  obtain ⟨front, ends⟩ := last
  have same := congrArg (fun text : String => text.toList.getLast?) (ends.symm.trans array)
  simp only [String.toList_append, Descriptor.arrayOf, Descriptor.ofClass] at same
  rw [List.getLast?_append_of_ne_nil _ word.1] at same
  have semicolon : d.name.toList.getLast? = some ';' := by
    rw [same, ← List.append_assoc, List.getLast?_append_of_ne_nil _ (by simp)]
    simp
  exact word.not_mem (by decide) (List.mem_of_getLast? semicolon)

structure MadeFile (options : Options) (packages : List String) (program : Program)
    (units : List ClassUnit) : Prop where
  accepted : program.Accepted packages
  comes : List.Forall₂ (ClassUnit.Comes program options) program units

namespace MadeFile

variable {options : Options} {packages : List String} {program : Program} {units : List ClassUnit}
  {u v : ClassUnit}

variable (file : MadeFile options packages program units)
include file

theorem found (member : v ∈ units) :
    ∃ d, program.findInternal? v.internalName = some d ∧ ClassUnit.Comes program options d v := by
  obtain ⟨d, among, come⟩ := exists_left_of_forall₂ file.comes member
  exact ⟨d, come.internalName ▸ file.accepted.findInternal among, come⟩

theorem come_of_name (among : d ∈ program)
    (member : v ∈ units) (named : v.internalName = d.internalName) : ClassUnit.Comes program options d v := by
  obtain ⟨e, known, come⟩ := file.found member
  have same : e.internalName = d.internalName := by rw [Program.internalName_of_found known, named]
  rwa [← file.accepted.eq_of_internalName (Program.mem_of_findInternal known) among same]

theorem declared_field (member : v ∈ units)
    (has : program.HasField field) (named : v.internalName = field.owner) :
    v.classFile.DeclaresField field.name field.descriptor.text field.isStatic := by
  obtain ⟨d, known, own⟩ := has
  obtain ⟨e, known', come⟩ := file.found member
  rw [named, known, Option.some_inj] at known'
  exact (known' ▸ come).declaresField own

theorem declared_method (member : v ∈ units) (has : program.HasMethod m) (named : v.internalName = m.owner) :
    AccessFlags.has v.classFile.flags AccessFlags.isInterface = m.onInterface ∧
      (m.onInterface = true → m.isStatic = false) ∧ m.name ≠ constructorName ∧
      (v.classFile.DeclaresMethod m.name m.descriptor.text m.isStatic ∨
        m.invokeOpcode = .invokevirtual ∧ v.classFile.InheritsMethod m.name m.descriptor.text) := by
  obtain ⟨d, ms, known, own, among⟩ := has
  obtain ⟨e, known', come⟩ := file.found member
  rw [named, known, Option.some_inj] at known'
  subst known'
  have sound := file.accepted.sound d (Program.mem_of_findInternal known)
  obtain ⟨⟨-, -, -, onInterface⟩, origin⟩ := Program.ownMethods_found own among
  refine ⟨by rw [come.isInterface_flags, onInterface], ?_, ?_, ?_⟩
  · rw [onInterface]
    intro isInterface
    rcases origin with ⟨own, among, -, static, -⟩ | ⟨values, shape, -⟩ | ⟨components, f, returns, shape, -⟩
    · rw [static]
      exact come.not_static_of_isInterface isInterface among
    · simp [Decl.isInterface, shape] at isInterface
    · simp [Decl.isInterface, shape] at isInterface
  · intro same
    have notWord {name : String} (same' : name = m.name) : ¬ IsWord name := by
      intro word
      exact word.not_mem (c := '<') (by decide) (by simp [same', same, constructorName])
    rcases origin with ⟨own, among, named, -, -⟩ | ⟨values, shape, -, found⟩ |
      ⟨components, f, returns, shape, among, named, -⟩
    · exact notWord named (sound.methods own among).1
    · rw [same] at found
      cases found
    · exact notWord named (sound.components components shape f among).1
  · rcases come.declaresMethod own among with declared | ⟨static, notPrivate, notInterface, inherits⟩
    · exact .inl declared
    · refine .inr ⟨?_, inherits⟩
      simp [MethodTarget.invokeOpcode, static, notPrivate, onInterface, notInterface]

theorem declared_constructor (member : v ∈ units)
    (has : program.HasConstructor owner params) (named : v.internalName = owner) :
    AccessFlags.has v.classFile.flags AccessFlags.isInterface = false ∧ ∃ isStatic,
      v.classFile.DeclaresMethod constructorName (MethodDescriptor.of params .void).text isStatic := by
  obtain ⟨e, known', come⟩ := file.found member
  rw [named] at known'
  rcases has with unknown | ⟨d, candidates, known, params, among⟩
  · rw [unknown] at known'
    cases known'
  · rw [known, Option.some_inj] at known'
    subst known'
    rw [come.isInterface_flags]
    exact come.declaresConstructor params among

theorem method_facts
    (has : program.HasMethod m) : (m.onInterface = true → m.isStatic = false) ∧ m.name ≠ constructorName := by
  obtain ⟨d, -, known, -, -⟩ := id has
  obtain ⟨v, member, come⟩ := exists_right_of_forall₂ file.comes (Program.mem_of_findInternal known)
  have named : v.internalName = m.owner := by rw [come.internalName, Program.internalName_of_found known]
  obtain ⟨-, notStatic, notConstructor, -⟩ := file.declared_method member has named
  exact ⟨notStatic, notConstructor⟩

end MadeFile

-- The classes of an accepted file, none of which is named as if it were one of the platform.
structure CompiledFile (options : Options) (packages : List String) (program : Program)
    (units : List ClassUnit) : Prop extends MadeFile options packages program units where
  outside : ∀ u ∈ units, ∀ rest, u.internalName ≠ "java/" ++ rest

namespace CompiledFile

variable {options : Options} {packages : List String} {program : Program} {units : List ClassUnit}
  {u v : ClassUnit}

theorem not_foreign (file : CompiledFile options packages program units) (member : v ∈ units) :
    ¬ IsForeign v.internalName := by
  rintro (platform | ⟨name, array⟩)
  · simp only [List.mem_cons, List.not_mem_nil, or_false] at platform
    rcases platform with same | same | same
    · exact file.outside v member "lang/StringBuilder" same
    · exact file.outside v member "lang/Enum" same
    · exact file.outside v member "lang/Object" same
  · obtain ⟨d, among, come⟩ := exists_left_of_forall₂ file.comes member
    exact file.accepted.ne_array among name (come.internalName ▸ array)

theorem links (file : CompiledFile options packages program units) (among : d ∈ program)
    (come : ClassUnit.Comes program options d u) (same : site.program = program)
    (own : site.scope.decl = d) {method : String}
    (initial : site.isInitializer = true → (∃ values, d.shape = .enumeration values) → method = Assembly.staticInitName)
    {item : Item} (emits : Emits site u.classFile.pool item) (formed : item.WellFormed)
    (place : Label → Nat) (pc : Nat) : (item.instruction place pc).Links units u method := by
  subst same own
  cases emits with
  | plain free => exact .of_straight (Opcode.not_member_of _ (.inl free))
  | jump opcode target => exact .of_straight (Opcode.not_member_of _ (.inr (.inl formed)))
  | switch default pairs => exact .of_straight rfl
  | ret => exact .of_straight (Opcode.not_member_of _ (.inr (.inr (Kind.isReturn_returnOpcode _))))
  | @read field index has _ ref | @write field index has _ _ ref =>
    refine .of_field field.isStatic ?_ (Instruction.wordOperand_u2 index []) ref
      fun v member => file.declared_field member has
    simp only [Item.instruction, Item.opcode]
    cases field.isStatic <;> decide
  | @setUp field descriptor index sets typed ref =>
    refine .of_field (field.modifier.has .static) ?_ (Instruction.wordOperand_u2 index []) ref fun v member named => ?_
    · simp only [Item.instruction, Item.opcode]
      cases field.modifier.has .static <;> decide
    · exact (file.come_of_name among member named).declaresOwn sets.own typed
  | @call m index has allowed ref =>
    obtain ⟨notStatic, notConstructor⟩ := file.method_facts has
    obtain ⟨isCall, interface, static⟩ := m.invokeOpcode_facts notStatic
    refine .of_invoke isCall (by simpa only [interface] using ref)
      (fun same => absurd same notConstructor) (fun v member named => ?_) place pc
    obtain ⟨isInterface, -, -, declared⟩ := file.declared_method member has named
    rw [if_neg notConstructor, static, isInterface]
    exact ⟨interface, declared⟩
  | @construct owner params index has ref =>
    refine .of_invoke (by decide) ref (fun _ => rfl) (fun v member named => ?_) place pc
    obtain ⟨notInterface, declared⟩ := file.declared_constructor member has named
    rw [notInterface, if_pos rfl]
    exact ⟨by decide, declared⟩
  | @foreign opcode owner name descriptor index args isCall away special ref =>
    obtain ⟨plain, isCall⟩ := opcode.call_of_plain isCall
    refine .of_invoke isCall (by rwa [if_neg plain]) special (fun v member named => ?_) place pc
    exact absurd (named ▸ away) (file.not_foreign member)
  | @component opcode components field descriptor index isAccess sets shape own typed ref =>
    refine .of_field false isAccess (Instruction.wordOperand_u2 index []) ref fun v member named => ?_
    have declared := (file.come_of_name among member named).declaresOwn
      (show field ∈ site.scope.decl.fields by simpa [Decl.fields, shape] using own) typed
    rwa [((file.accepted.sound _ among).components components shape field own).2] at declared
  | @value opcode values name descriptor index isAccess sets shape own ref =>
    exact .of_field true isAccess (Instruction.wordOperand_u2 index []) ref fun v member named =>
      (file.come_of_name among member named).declaresValue shape own
  | @makeValue values index args shape ref =>
    refine .of_invoke (by decide) ref (fun _ => rfl) (fun v member named => ?_) place pc
    have come := file.come_of_name among member named
    have notInterface : AccessFlags.has v.classFile.flags AccessFlags.isInterface = false := by
      rw [come.isInterface_flags]
      simp [Decl.isInterface, shape]
    rw [notInterface, if_pos rfl]
    exact ⟨by decide, _, come.declaresValueConstructor shape⟩
  | @newValue values index sets shape ref =>
    refine .of_new rfl (Instruction.wordOperand_u2 index []) ref fun v member named => .inr ?_
    refine ⟨named.trans come.internalName.symm, ?_, initial sets ⟨values, shape⟩⟩
    rw [(file.come_of_name among member named).flags, shape]
    exact AccessFlags.isEnum_ofClass _ _
  | @new owner index can ref =>
    refine .of_new rfl (Instruction.wordOperand_u2 index []) ref fun v member named => .inl ?_
    rcases can with rfl | can
    · exact absurd (.inl (by simp [named])) (file.not_foreign member)
    · obtain ⟨e, known, come⟩ := file.found member
      exact come.isInstantiable_flags (can e (named ▸ known))

end CompiledFile

theorem Session.compile_comes {s later : Session} {source : String}
    (compiled : s.compile path source = (.ok count, later)) : Program.ofSource path source = .ok later.program ∧
      List.Forall₂ (ClassUnit.Comes later.program s.options) later.program later.units := by
  unfold Session.compile at compiled
  dsimp only at compiled
  split at compiled
  next program units run =>
    cases compiled
    simp only [bind_eq_ok, pure_eq_ok, Prod.mk.injEq] at run
    obtain ⟨_, accepted, _, made, rfl, rfl⟩ := run
    exact ⟨accepted, Program.units_come made⟩
  next => cases compiled

theorem Session.compile_returns {s : Session} {text source : String} {P : Session → Prop} (written : text = source)
    (run : (s.compile path text).1.toOption = some count ∧ P (s.compile path text).2) :
    ∃ later, s.compile path source = (.ok count, later) ∧ P later := by
  subst written
  exact ⟨_, Prod.ext (toOption_eq_some.1 run.1) rfl, run.2⟩

theorem Generated.instructions {pool : ConstantPool} (generated : Generated site pool code) :
    ∃ instructions, Instruction.decode code.code = .ok instructions ∧
      ∀ i ∈ instructions, ∃ item place pc, Emits site pool item ∧ item.WellFormed ∧
        i = item.instruction place pc := by
  obtain ⟨b, items, finished⟩ := generated
  obtain ⟨decoded, -⟩ := CodeBuffer.finish_returns finished.laid.toHolds finished.bytes
  refine ⟨_, decoded, fun i member => ?_⟩
  obtain ⟨pc, item, listed, rfl⟩ := Item.mem_program.1 member
  have emitted := Item.mem_of_mem_listing listed
  exact ⟨item, _, pc, finished.emits item emitted, finished.laid.formed item emitted, rfl⟩

theorem Session.compile_links {s later : Session} {path : Text.SourcePath} {source : String} {count : Nat}
    (compiled : s.compile path source = (.ok count, later))
    (outside : ∀ u ∈ later.units, ∀ rest, u.internalName ≠ "java/" ++ rest) :
    ∀ u ∈ later.units, ∀ m ∈ u.classFile.methods, ∀ code, m.code = some code →
      ∃ name instructions, u.classFile.pool.utf8? m.name = some name ∧
        Instruction.decode code.code = .ok instructions ∧
        ∀ i ∈ instructions, i.Links later.units u name := by
  intro u member m present code coded
  obtain ⟨accepted, comes⟩ := compile_comes compiled
  obtain ⟨packages, -, known⟩ := Program.ofSource_accepted accepted
  have file : CompiledFile s.options packages later.program later.units := ⟨⟨known, comes⟩, outside⟩
  obtain ⟨d, among, come⟩ := exists_left_of_forall₂ comes member
  obtain ⟨site, name, named, generated, same, own, initial⟩ := come.holds.generated_of present coded
  obtain ⟨instructions, decoded, each⟩ := generated.instructions
  refine ⟨name, instructions, named, decoded, fun i instruction => ?_⟩
  obtain ⟨item, place, pc, emits, formed, rfl⟩ := each i instruction
  exact file.links among come same own initial emits formed place pc

theorem Session.compile_links_enumeration :
    ∃ later, ({} : Session).compile ⟨"F.k"⟩ ("\n".intercalate [
        "type E = A", "class T \x7b", "int f() \x7b", "return E.A.ordinal()", "\x7d", "\x7d"]) =
          (.ok 2, later) ∧
      later.units.map (·.internalName) = ["F/E", "F/T"] ∧
      ∀ u ∈ later.units, ∀ m ∈ u.classFile.methods, ∀ code, m.code = some code →
        ∃ name instructions, u.classFile.pool.utf8? m.name = some name ∧
          Instruction.decode code.code = .ok instructions ∧
          ∀ i ∈ instructions, i.Links later.units u name := by
  generalize written : "\n".intercalate _ = source
  obtain ⟨later, compiled, names⟩ : ∃ later, ({} : Session).compile ⟨"F.k"⟩ source = (.ok 2, later) ∧
      later.units.map (·.internalName) = ["F/E", "F/T"] := compile_returns written (by decide +kernel)
  refine ⟨later, compiled, names, compile_links compiled fun u member rest same => ?_⟩
  have among : u.internalName ∈ ["F/E", "F/T"] := names ▸ List.mem_map_of_mem member
  have first : u.internalName.toList.head? = some 'j' := by simp [same]
  simp only [List.mem_cons, List.not_mem_nil, or_false] at among
  rcases among with other | other <;> simp [other] at first

end ClassForge
