import ClassForge.Proofs.CodeRequests
import ClassForge.Proofs.Linking

set_option autoImplicit false

namespace ClassForge

inductive FieldType : List Char → Prop
  | letter {c : Char} (among : c ∈ ['Z', 'B', 'C', 'S', 'I', 'J', 'F', 'D']) : FieldType [c]
  | object {name : List Char} (given : name ≠ []) (plain : ∀ c ∈ name, c ∉ [';', '(', ')', '[']) :
      FieldType ('L' :: (name ++ [';']))
  | array {element : List Char} (formed : FieldType element) : FieldType ('[' :: element)

inductive MethodType : List Char → Prop
  | of {params : List (List Char)} {returns : List Char} (formed : ∀ p ∈ params, FieldType p)
      (result : returns = ['V'] ∨ FieldType returns) : MethodType ('(' :: (params.flatten ++ ')' :: returns))

def IsName (name : String) : Prop :=
  name ≠ "" ∧ IsPlain name

theorem Descriptor.Valued.fieldType {d : Descriptor} (valued : d.Valued IsName) : FieldType d.text.toList := by
  induction valued with
  | @ofPrimitive p value =>
    cases p with
    | void => exact absurd rfl value
    | _ => exact .letter (by decide)
  | @ofClass name known =>
    have text : (Descriptor.ofClass name).text.toList = 'L' :: (name.toList ++ [';']) := by simp [Descriptor.ofClass]
    rw [text]
    exact .object (by simpa using known.1) known.2
  | @arrayOf d _ ih =>
    have text : d.arrayOf.text.toList = '[' :: d.text.toList := by simp [Descriptor.arrayOf]
    rw [text]
    exact .array ih

variable {params : List Descriptor} {returns : Descriptor}

theorem MethodType.of_valued
    (valued : ∀ p ∈ params, p.Valued IsName) (result : returns = .void ∨ returns.Valued IsName) :
    MethodType (MethodDescriptor.of params returns).text.toList := by
  rw [MethodDescriptor.toList_of]
  refine .of (fun p member => ?_) ?_
  · obtain ⟨d, among, rfl⟩ := List.mem_map.1 member
    exact (valued d among).fieldType
  · rcases result with rfl | valued
    · exact .inl rfl
    · exact .inr valued.fieldType

def TypeName.IsVoidArray (t : TypeName) : Prop :=
  t.base = "void" ∧ 0 < t.dims

instance (t : TypeName) : Decidable t.IsVoidArray :=
  inferInstanceAs (Decidable (_ ∧ _))

theorem TypeName.isValued_of {t : TypeName} (notVoid : t ≠ .plain "void") (notArray : ¬ t.IsVoidArray) :
    t.IsValued := by
  intro isVoid
  obtain ⟨dims, base⟩ := t
  cases dims with
  | zero => exact notVoid (congrArg TypeName.plain isVoid)
  | succ dims => exact notArray ⟨isVoid, Nat.succ_pos dims⟩

namespace PoolRequest

-- The type that a request names is well formed. Only calls of constructors of other classes may take arguments
-- that have no value.
def IsFormed (away : String → Prop) : PoolRequest → Prop
  | .fieldRef _ _ descriptor => FieldType descriptor.toList
  | .methodRef owner name descriptor => MethodType descriptor.toList ∨ name = constructorName ∧ away owner ∧
      ∃ params, descriptor = (MethodDescriptor.of params .void).text ∧ ∀ p ∈ params, p.Proper IsPlain
  | .interfaceMethodRef _ _ descriptor => MethodType descriptor.toList
  | .nameAndType _ _ => False
  | _ => True

theorem isFormed_of_free {away : String → Prop} {request : PoolRequest} (free : request.named? = none) :
    request.IsFormed away := by
  cases request <;> trivial

end PoolRequest

structure Program.IsTyped (program : Program) : Prop where
  named : ∀ d ∈ program, IsName d.internalName
  checked : ∀ d ∈ program, Review.Checked program d
  fields : ∀ d ∈ program, ∀ f ∈ d.fields, f.type.IsValued
  results : ∀ d ∈ program, ∀ m ∈ d.methods, ∀ t ∈ m.returns, ¬ t.IsVoidArray

theorem isName_object : IsName "java/lang/Object" :=
  ⟨by decide, isPlain_object⟩

theorem Platform.ne_empty {qualified : String} (known : (Platform.isInterface? qualified).isSome) : qualified ≠ "" := by
  rintro rfl
  revert known
  decide +kernel

theorem Scope.descriptor_void {scope : Scope} (bounded : scope.IsBounded) {d : Descriptor}
    (h : scope.descriptor (.plain "void") = .ok d) : d = .void := by
  rcases Scope.erase_kind bounded h with ⟨p, same, rfl⟩ | ⟨-, free | array⟩
  · cases p <;> first | rfl | exact absurd same (by decide)
  · exact absurd free (by decide)
  · exact absurd array (by decide)

variable {m : Method} {type : Descriptor} {descriptor : MethodDescriptor}

namespace Program.IsTyped

variable {program : Program} {d : Decl} (typed : program.IsTyped)
include typed

section

variable (member : d ∈ program)
include member

theorem uses (typeParams : List TypeParam) : ({ program, decl := d, typeParams } : Scope).UsesNamed IsName := by
  have plain :=
    Program.usesNamed_of_checked (typed.checked d member) (fun e among => (typed.named e among).2) typeParams
  intro short qualified used
  refine ⟨?_, plain short qualified used⟩
  change program.internalName qualified ≠ ""
  unfold Program.internalName
  split
  next e found => exact (typed.named e (List.mem_of_find?_eq_some found)).1
  next missing =>
    have known : (Platform.isInterface? qualified).isSome = true := by
      simpa [missing] using (typed.checked d member).uses short qualified used
    intro empty
    have none : qualified.toList = [] := by
      simpa using congrArg String.toList empty
    exact Platform.ne_empty known (by simpa using none)

theorem valued {typeParams : List TypeParam} (bounded : ∀ p ∈ typeParams, p.IsBounded)
    {t : TypeName} (value : t.IsValued)
    (h : ({ program, decl := d, typeParams } : Scope).descriptor t = .ok type) : type.Valued IsName :=
  Scope.erase_valued isName_object (typed.uses member typeParams) ((typed.checked d member).isBounded bounded) value h

theorem field {f : Field} (own : f ∈ d.fields)
    (h : (program.scopeOf d).descriptor f.type = .ok type) : type.Valued IsName :=
  typed.valued member (by simp) (typed.fields d member f own) h

theorem method (own : m ∈ d.methods)
    (h : ({ program.scopeOf d with typeParams := m.typeParams } : Scope).methodDescriptor m.params m.returns =
      .ok descriptor) : MethodType descriptor.text.toList := by
  obtain ⟨bounds, valued⟩ := (typed.checked d member).methods m own
  have bounded := (typed.checked d member).isBounded bounds
  obtain ⟨types, result, returned, rfl, -, valued⟩ :=
    Scope.methodDescriptor_of isName_object (typed.uses member _) bounded valued h
  refine .of_valued valued ?_
  cases returns : m.returns with
  | none =>
    rw [returns] at returned
    exact .inl (Except.ok.inj returned).symm
  | some t =>
    rw [returns] at returned
    by_cases isVoid : t = .plain "void"
    · exact .inl (Scope.descriptor_void bounded (isVoid ▸ returned))
    · have notArray := typed.results d member m own t (by rw [returns]; rfl)
      exact .inr (typed.valued member bounds (TypeName.isValued_of isVoid notArray) returned)

theorem constructor {params : List Param} (valued : ∀ p ∈ params, p.type.IsValued)
    (h : (program.scopeOf d).methodDescriptor params none = .ok descriptor) :
    MethodType descriptor.text.toList := by
  obtain ⟨types, result, returned, rfl, -, valued⟩ := Scope.methodDescriptor_of isName_object
    (typed.uses member _) ((typed.checked d member).isBounded (by simp)) valued h
  exact .of_valued valued (.inl (Except.ok.inj returned).symm)

end

theorem hasField {field : FieldTarget} (has : program.HasField field) : field.descriptor.Valued IsName := by
  obtain ⟨d, found, own⟩ := has
  have member := Program.mem_of_findInternal found
  obtain ⟨-, -, ⟨_, -, -, self, -⟩ | ⟨f, listed, -, known, -⟩⟩ := Program.ownField_found own
  · exact self ▸ .ofClass (typed.named d member)
  · exact typed.field member listed known

theorem hasMethod {m : MethodTarget} (has : program.HasMethod m) : MethodType m.descriptor.text.toList := by
  obtain ⟨d, ms, found, own, among⟩ := has
  have member := Program.mem_of_findInternal found
  have self : (Descriptor.ofClass d.internalName).Valued IsName := .ofClass (typed.named d member)
  have text : Descriptor.string.Valued IsName := .ofClass ⟨by decide, by decide⟩
  obtain ⟨-, origin⟩ := Program.ownMethods_found own among
  rcases origin with ⟨m', declared, -, -, -, known⟩ | ⟨values, -, -, known⟩ |
    ⟨components, f, returns, shape, listed, -, known, descriptor, -, -⟩
  · exact typed.method member declared known
  · unfold MethodTarget.ofEnumeration? at known
    split at known
    case h_5 => cases known
    all_goals
      simp only [Option.some_inj, Prod.mk.injEq] at known
      rw [← known.1]
    · exact .of_valued (by simp) (.inr self.arrayOf)
    · exact .of_valued (by simpa using text) (.inr self)
    · exact .of_valued (by simp) (.inr text)
    · exact .of_valued (by simp) (.inr (.ofPrimitive (p := .int) (by decide)))
  · rw [descriptor]
    refine .of_valued (by simp) (.inr (typed.field member ?_ known))
    rw [Decl.fields, shape]
    exact listed

theorem constructorFor {owner : String} {types : List Descriptor} {instantiates : Bool}
    (h : program.constructorFor owner types instantiates = .ok params) (sane : ∀ t ∈ types, t.IsSane) :
    (PoolRequest.methodRef owner constructorName (MethodDescriptor.of params .void).text).IsFormed
      fun owner => program.findInternal? owner = none := by
  rcases (Program.constructorFor_found h).1 with unknown | ⟨d, candidates, found, known, among⟩
  · -- Nothing is known of the class, so its parameters are taken to be what is passed.
    rw [Program.constructorFor, unknown] at h
    obtain rfl := Except.ok.inj h
    refine .inr ⟨rfl, unknown, _, rfl, fun p member => ?_⟩
    obtain ⟨t, passed, rfl⟩ := List.mem_map.1 member
    split_ifs with isNull
    · exact .ofClass isPlain_object
    · exact (sane t passed).resolve_left isNull
  · have member := Program.mem_of_findInternal found
    refine .inl (.of_valued (fun p listed => ?_) (.inl rfl))
    obtain ⟨t, known, declared⟩ := Program.typed_of_constructorParams known among listed
    refine typed.valued member (by simp) ?_ known
    rcases declared with ⟨body, shape, c, declared, param, own, rfl⟩ | ⟨components, shape, f, own, rfl⟩
    · exact (typed.checked d member).constructors body shape c declared param own
    · exact (typed.checked d member).components components shape f own

theorem allows : program.Allows (PoolRequest.IsFormed fun owner => program.findInternal? owner = none) where
  free request free := PoolRequest.isFormed_of_free free
  field field has := (typed.hasField has).fieldType
  method m has := by
    split_ifs
    · exact typed.hasMethod has
    · exact .inl (typed.hasMethod has)
  constructor owner types params instantiates found sane := typed.constructorFor found sane
  append d argument known := by
    have builder : (Descriptor.ofClass Gen.builder).Valued IsName := .ofClass ⟨by decide, by decide⟩
    have value := Gen.appendType_valued ⟨by decide, by decide⟩ isName_object known
    exact .inl (.of_valued (by simpa using value) (.inr builder))
  build := .inl (.of_valued (by simp) (.inl rfl))
  text := .inl (.of_valued (by simp) (.inr (.ofClass ⟨by decide, by decide⟩)))

theorem isReviewed {site : Site} (same : site.program = program) (own : site.scope.decl ∈ program)
    (bounded : ∀ p ∈ site.scope.typeParams, p.IsBounded) : site.IsReviewed := by
  subst same
  exact ⟨typed.checked, fun d member => (typed.named d member).2, own, bounded⟩

end Program.IsTyped

namespace Build

variable {unknown : String → Prop} {name : String} {options : Options} {generic : Option String} {flags : UInt16}

abbrev Formed {α : Type} (unknown : String → Prop) (step : Build α) : Prop :=
  step.Asks (PoolRequest.IsFormed unknown)

theorem formed_free (request : PoolRequest) (free : request.named? = none) : Formed unknown (pooled request.step) :=
  asks_pooled request (PoolRequest.isFormed_of_free free)

theorem formed_textAttribute {text : String} : Formed unknown (textAttribute name text) :=
  moves_bind (formed_free (.utf8 text) rfl) fun _ => moves_bind (formed_free (.utf8 name) rfl) fun _ => moves_pure _

theorem formed_signature : Formed unknown (signature options generic) := by
  cases generic with
  | none => exact moves_pure _
  | some text => exact moves_ite (fun _ => moves_pure _) fun _ => moves_bind formed_textAttribute fun _ => moves_pure _

theorem formed_field {d : Descriptor} : Formed unknown (field options flags name d generic) :=
  moves_bind (formed_free (.utf8 _) rfl) fun _ => moves_bind (formed_free (.utf8 _) rfl) fun _ =>
    moves_bind formed_signature fun _ => moves_pure _

theorem formed_method {d : MethodDescriptor} {code : Option CodeAttribute} :
    Formed unknown (method options flags name d code generic) :=
  moves_bind (formed_free (.utf8 _) rfl) fun _ => moves_bind (formed_free (.utf8 _) rfl) fun _ =>
    moves_bind formed_signature fun _ => moves_pure _

theorem formed_header {self superclass : String} {interfaces : List String} :
    Formed unknown (header self superclass interfaces) :=
  moves_bind (formed_free (.classRef self) rfl) fun _ => moves_bind (formed_free (.classRef superclass) rfl) fun _ =>
    moves_bind (moves_mapM fun name _ => formed_free (.classRef name) rfl) fun _ => moves_pure _

end Build

variable {pool : ConstantPool} {info : MethodInfo}

namespace Assembly

variable {α β : Type} {t : Target}

abbrev Target.Fits (t : Target) (step : Build α) : Prop :=
  step.Formed fun owner => t.program.findInternal? owner = none

open Build (moves_check formed_header formed_signature formed_field formed_method)
open Gen (asks_then asks_refer asks_emit)

theorem fits_members {line : α → Nat} {step : α → Build β} {items : List α}
    (each : ∀ item ∈ items, t.Fits (step item)) : t.Fits (t.members line step items) :=
  moves_mapM fun item member => Build.moves_located (each item member) _

theorem fits_field (f : Field) : t.Fits (t.field f) :=
  moves_check fun _ _ => moves_check fun _ _ => formed_field

theorem fits_run {step : Gen α}
    (asked : Gen.Asks (PoolRequest.IsFormed fun owner => t.program.findInternal? owner = none) step) :
    t.Fits (Gen.run step) :=
  Build.asks_run (Gen.moves_unlocated asked)

variable (typed : t.program.IsTyped) (own : t.decl ∈ t.program) {flags : UInt16}
include typed own

theorem fits_constructor (c : Constructor) : t.Fits (t.constructor c) := by
  refine moves_check fun _ _ => moves_check fun _ _ => moves_bind ?_ fun _ =>
    formed_method
  refine Program.constructorCode_asks typed.allows (fun f member type known => ?_)
    (typed.isReviewed rfl own (by simp [Program.constructorSite, Program.scopeOf]))
  exact (typed.field own member known).fieldType

theorem fits_method (among : m ∈ t.decl.methods) (flags : UInt16) : t.Fits (t.method m flags) := by
  refine moves_check fun d _ => moves_check fun generic _ => ?_
  have last (code : Option CodeAttribute) : t.Fits (Build.method t.options flags m.name d code generic) :=
    formed_method
  refine moves_ite (fun _ => moves_bind (moves_pure none) last) fun _ => moves_bind (moves_map ?_ some) last
  exact Program.methodCode_asks typed.allows fun returns =>
    typed.isReviewed rfl own ((typed.checked _ own).methods m among).1

theorem fits_staticInit : t.Fits t.staticInit := by
  refine moves_bind (Program.staticInitCode_asks typed.allows
    (fun f member type known => (typed.field own member known).fieldType)
    (typed.isReviewed rfl own (by simp [Program.staticInitSite, Program.scopeOf]))) fun found => ?_
  split
  · exact moves_pure _
  · exact moves_bind formed_method fun _ => moves_pure _

theorem fits_classContents {body : ClassBody} (shape : t.decl.shape = .plainClass body) :
    t.Fits (t.classContents body) := by
  refine moves_check fun _ _ => moves_check fun _ _ => ?_
  refine moves_bind formed_header fun _ => moves_check fun _ _ => ?_
  refine moves_bind formed_signature fun _ => ?_
  refine moves_bind (fits_members fun f _ => fits_field f) fun _ => ?_
  refine moves_bind (fits_members fun c _ => fits_constructor typed own c) fun _ => ?_
  refine moves_bind (fits_members fun m member => fits_method typed own ?_ _) fun _ => ?_
  · rwa [Decl.methods, shape]
  · exact moves_bind (fits_staticInit typed own) fun _ => moves_pure _

theorem fits_interfaceContents {parents : List TypeName} {methods : List Method}
    (shape : t.decl.shape = .interface parents methods) : t.Fits (t.interfaceContents parents methods) := by
  refine moves_check fun _ _ => ?_
  refine moves_bind formed_header fun _ => moves_check fun _ _ => ?_
  refine moves_bind formed_signature fun _ => ?_
  refine moves_bind (fits_members fun m member => fits_method typed own ?_ _) fun _ => moves_pure _
  rwa [Decl.methods, shape]

omit own in
theorem fits_codeOf {maxLocals : Nat} {step : Gen Unit}
    (asked : Gen.Asks (PoolRequest.IsFormed fun owner => t.program.findInternal? owner = none) step) :
    t.Fits (Gen.method maxLocals step) :=
  fits_run (moves_bind asked fun _ => Gen.asks_finish typed.allows _)

theorem self_valued : t.selfType.Valued IsName :=
  .ofClass (typed.named _ own)

namespace Enumeration

theorem fits_valuesCode : t.Fits (valuesCode t) := by
  have self := self_valued typed own
  refine fits_codeOf typed ?_
  refine asks_refer (.fieldRef t.self valuesField t.selfType.arrayOf.text) self.arrayOf.fieldType fun _ => ?_
  refine asks_then fun _ => ?_
  refine asks_refer (.methodRef _ "clone" (MethodDescriptor.of [] .object).text)
    (.inl (.of_valued (by simp) (.inr (.ofClass isName_object)))) fun _ => ?_
  refine asks_then fun _ => ?_
  refine asks_refer (.classRef _) (PoolRequest.isFormed_of_free rfl) fun _ => ?_
  exact asks_then fun _ => asks_emit _

omit own in
theorem fits_valueOfCode : t.Fits (valueOfCode t) := by
  have text : Descriptor.string.Valued IsName := .ofClass ⟨by decide, by decide⟩
  have formed : MethodType (MethodDescriptor.of [.ofClass "java/lang/Class", .string] (.ofClass base)).text.toList :=
    .of_valued (by simpa using ⟨.ofClass ⟨by decide, by decide⟩, text⟩) (.inr (.ofClass ⟨by decide, by decide⟩))
  refine fits_codeOf typed ?_
  refine asks_refer (.classRef t.self) (PoolRequest.isFormed_of_free rfl) fun _ => ?_
  refine asks_then fun _ => asks_then fun _ => ?_
  refine asks_refer (.methodRef base "valueOf" _) (.inl formed) fun _ => ?_
  refine asks_then fun _ => ?_
  exact asks_then fun _ => asks_emit _

omit typed own in
theorem constructorType_formed : MethodType constructorType.text.toList :=
  .of_valued (by simpa using ⟨.ofClass ⟨by decide, by decide⟩, .ofPrimitive (p := .int) (by decide)⟩) (.inl rfl)

omit own in
theorem fits_constructorCode : t.Fits constructorCode := by
  refine fits_codeOf typed ?_
  refine asks_then fun _ => asks_then fun _ => ?_
  refine asks_then fun _ => ?_
  refine asks_refer (.methodRef base constructorName _) (.inl constructorType_formed) fun _ => ?_
  exact asks_then fun _ => asks_emit _

theorem fits_staticInitCode (values : List String) : t.Fits (staticInitCode t values) := by
  have self := self_valued typed own
  refine fits_codeOf typed ?_
  refine asks_refer (.classRef t.self) (PoolRequest.isFormed_of_free rfl) fun class' => ?_
  refine asks_refer (.methodRef t.self constructorName _) (.inl constructorType_formed) fun init => ?_
  refine moves_bind (moves_mapM fun pair _ => ?_) fun fields => ?_
  · refine asks_refer (.fieldRef t.self pair.1 t.selfType.text) self.fieldType fun _ => ?_
    refine asks_then fun _ => asks_then fun _ => ?_
    refine asks_refer (.string pair.1) (PoolRequest.isFormed_of_free rfl) fun _ => ?_
    refine asks_then fun _ => moves_bind (Gen.asks_pushInt typed.allows _) fun _ => ?_
    refine asks_then fun _ => ?_
    exact asks_then fun _ => moves_pure _
  · refine moves_bind (Gen.asks_pushInt typed.allows _) fun _ => asks_then fun _ => ?_
    refine moves_bind (moves_forM fun pair _ => ?_) fun _ => ?_
    · refine asks_then fun _ => moves_bind (Gen.asks_pushInt typed.allows _) fun _ => ?_
      exact asks_then fun _ => asks_emit _
    · refine asks_refer (.fieldRef t.self valuesField _) self.arrayOf.fieldType fun _ => ?_
      exact asks_then fun _ => asks_emit _

theorem fits_contents (values : List String) : t.Fits (contents t values) := by
  refine moves_bind formed_header fun _ => moves_bind formed_signature fun _ => ?_
  refine moves_bind (moves_mapM fun _ _ => formed_field) fun _ => ?_
  refine moves_bind formed_field fun _ => ?_
  refine moves_bind (fits_valuesCode typed own) fun _ => moves_bind formed_method fun _ => ?_
  refine moves_bind (fits_valueOfCode typed) fun _ => moves_bind formed_method fun _ => ?_
  refine moves_bind (fits_constructorCode typed) fun _ => moves_bind formed_method fun _ => ?_
  refine moves_bind (fits_staticInitCode typed own values) fun _ => ?_
  exact moves_bind formed_method fun _ => moves_pure _

end Enumeration

namespace Record

omit typed own in
theorem asks_store {asks : PoolRequest → Prop} {components : List Component}
    (allowed : ∀ c ∈ components, asks (.fieldRef t.self c.name c.type.text)) (slot : Nat) :
    Gen.Asks asks (store t slot components) := by
  induction components generalizing slot with
  | nil => exact moves_pure _
  | cons c rest ih =>
    refine asks_then fun _ => asks_then fun _ => ?_
    refine asks_refer _ (allowed c List.mem_cons_self) fun _ => ?_
    exact asks_then fun _ => ih (fun other member => allowed other (List.mem_cons_of_mem _ member)) _

theorem fits_contents {fields : List Field} (shape : t.decl.shape = .record fields) : t.Fits (contents t fields) := by
  refine moves_bind formed_header fun _ => moves_check fun _ _ => ?_
  refine moves_bind formed_signature fun _ => ?_
  refine moves_bind_of (moves_mapM fun f _ => ?_) fun pool components later run => ?_
  · refine moves_check fun _ _ => moves_check fun _ _ => ?_
    exact moves_bind formed_field fun _ => moves_pure _
  · have formed : ∀ c ∈ components, FieldType c.1.type.text.toList := by
      intro c member
      obtain ⟨f, among, _, _, made⟩ := exists_of_mapM_returns run c member
      simp only [component, Target.checkAt, bind_returns, Build.check_returns, located_eq_ok, pure_returns] at made
      obtain ⟨type, _, ⟨known, -⟩, generic, _, -, _, _, -, rfl, -⟩ := made
      refine (typed.field own ?_ known).fieldType
      rwa [Decl.fields, shape]
    refine moves_bind (fits_run ?_) fun _ => moves_bind formed_method fun _ => ?_
    · refine asks_then fun _ => ?_
      refine asks_refer (.methodRef _ constructorName noArguments.text)
        (.inl (.of_valued (by simp) (.inl rfl))) fun _ => asks_then fun _ => ?_
      refine moves_bind (asks_store (fun c member => ?_) 1) fun _ => ?_
      · obtain ⟨pair, among, rfl⟩ := List.mem_map.1 member
        exact formed pair among
      · exact asks_then fun _ => Gen.asks_finish typed.allows _
    · refine moves_bind (moves_mapM fun c member => ?_) fun _ => moves_pure _
      refine moves_bind (fits_codeOf typed ?_) fun _ => formed_method
      refine asks_then fun _ => ?_
      refine asks_refer (.fieldRef t.self c.1.name c.1.type.text) (formed c member) fun _ => ?_
      exact asks_then fun _ => asks_emit _

end Record

theorem fits_build : t.Fits t.build := by
  refine moves_bind ?_ fun _ => moves_bind ?_ fun _ => moves_pure _
  · unfold Target.contents
    split
    next body shape => exact fits_classContents typed own shape
    next parents methods shape => exact fits_interfaceContents typed own shape
    next values shape => exact Enumeration.fits_contents typed own values
    next fields shape => exact Record.fits_contents typed own shape
  · exact moves_ite (fun _ => moves_pure _) fun _ => moves_bind Build.formed_textAttribute fun _ => moves_pure _

theorem FieldOf.formed {f : Field} (among : f ∈ t.decl.fields) {info : FieldInfo} (made : FieldOf t f pool info) :
    ∃ text, pool.utf8? info.descriptor = some text ∧ FieldType text.toList := by
  obtain ⟨d, known, made⟩ := made
  exact ⟨_, made.typed, (typed.field own among known).fieldType⟩

theorem MethodOf.formed (among : m ∈ t.decl.methods)
    (made : MethodOf t flags m pool info) :
    ∃ text, pool.utf8? info.descriptor = some text ∧ MethodType text.toList := by
  obtain ⟨d, code, known, -, made⟩ := made
  exact ⟨_, made.typed, typed.method own among known⟩

omit typed own in
theorem ValueMethodOf.formed {isInitializer : Bool} {name : String}
    {step : Build CodeAttribute}
    (made : ValueMethodOf t isInitializer flags name params returns step pool info)
    (valued : ∀ p ∈ params, p.Valued IsName) (result : returns = .void ∨ returns.Valued IsName) :
    ∃ text, pool.utf8? info.descriptor = some text ∧ MethodType text.toList := by
  obtain ⟨code, -, -, made⟩ := made
  exact ⟨_, made.typed, .of_valued valued result⟩

variable {pool : ConstantPool} {fields : List FieldInfo} {methods : List MethodInfo}

theorem Holds.fields_formed (holds : Holds t pool fields methods) :
    ∀ info ∈ fields, ∃ text, pool.utf8? info.descriptor = some text ∧ FieldType text.toList := by
  have self := self_valued typed own
  intro info member
  cases holds with
  | plainClass shape declared =>
    obtain ⟨f, among, made⟩ := exists_left_of_forall₂ declared member
    exact FieldOf.formed typed own (by rwa [Decl.fields, shape]) made
  | interface => cases member
  | enumeration shape named held =>
    rcases List.mem_append.1 member with value | array
    · obtain ⟨value, -, made⟩ := exists_left_of_forall₂ named value
      exact ⟨_, made.typed, self.fieldType⟩
    · rw [List.mem_singleton.1 array]
      exact ⟨_, held.typed, self.arrayOf.fieldType⟩
  | record shape declared =>
    obtain ⟨f, among, made⟩ := exists_left_of_forall₂ declared member
    exact FieldOf.formed typed own (by rwa [Decl.fields, shape]) made

theorem Holds.methods_formed (holds : Holds t pool fields methods) :
    ∀ info ∈ methods, ∃ text, pool.utf8? info.descriptor = some text ∧ MethodType text.toList := by
  have self := self_valued typed own
  have text : Descriptor.string.Valued IsName := .ofClass ⟨by decide, by decide⟩
  have int : Descriptor.int.Valued IsName := .ofPrimitive (p := .int) (by decide)
  intro info member
  cases holds with
  | @plainClass body _ _ _ _ shape _ constructed coded initial =>
    rcases List.mem_append.1 member with member | member
    · rcases List.mem_append.1 member with member | member
      · obtain ⟨c, among, d, code, known, -, -, made⟩ := exists_left_of_forall₂ constructed member
        have valued := (typed.checked _ own).constructors body shape c among
        exact ⟨_, made.typed, typed.constructor own valued known⟩
      · obtain ⟨m, among, made⟩ := exists_left_of_forall₂ coded member
        exact MethodOf.formed typed own (by rwa [Decl.methods, shape]) made
    · obtain ⟨code, -, made⟩ := initial info member
      exact ⟨_, made.typed, .of_valued (by simp) (.inl rfl)⟩
  | interface shape coded =>
    obtain ⟨m, among, made⟩ := exists_left_of_forall₂ coded member
    exact MethodOf.formed typed own (by rwa [Decl.methods, shape]) made
  | enumeration _ _ _ listed found made initial =>
    simp only [List.mem_cons, List.not_mem_nil, or_false] at member
    rcases member with rfl | rfl | rfl | rfl
    · exact listed.formed (by simp) (.inr self.arrayOf)
    · exact found.formed (by simpa using text) (.inr self)
    · exact made.formed (by simpa using ⟨text, int⟩) (.inl rfl)
    · exact initial.formed (by simp) (.inl rfl)
  | @record components _ _ _ _ shape _ types made read =>
    have valued {f : Field} (among : f ∈ components) {d : Descriptor}
        (known : t.scope.descriptor f.type = .ok d) : d.Valued IsName :=
      typed.field own (by rwa [Decl.fields, shape]) known
    rcases List.mem_cons.1 member with rfl | member
    · refine made.formed (fun p listed => ?_) (.inl rfl)
      obtain ⟨c, part, rfl⟩ := List.mem_map.1 listed
      obtain ⟨f, among, -, known⟩ := exists_left_of_forall₂ types part
      exact valued among known
    · obtain ⟨f, among, d, known, made⟩ := exists_left_of_forall₂ read member
      exact made.formed (by simp) (.inr (valued among known))

end Assembly

theorem Program.Accepted.isTyped {packages : List String} {program : Program} (accepted : program.Accepted packages)
    (plain : ∀ p ∈ packages, IsPlain p)
    (elements : ∀ d ∈ program, (∀ f ∈ d.fields, ¬ f.type.IsVoidArray) ∧
      ∀ m ∈ d.methods, ∀ t ∈ m.returns, ¬ t.IsVoidArray) : program.IsTyped where
  named d member := by
    refine ⟨fun empty => (accepted.sound d member).word.1 ?_, accepted.isPlain plain member⟩
    cases accepted.named d member with
    | top _ internal | nested outer _ internal => simp_all
  checked := accepted.checked
  fields d member f own := by
    cases shape : d.shape with
    | plainClass body =>
      refine TypeName.isValued_of ?_ ((elements d member).1 f own)
      rw [Decl.fields, shape] at own
      exact (accepted.sound d member).typed body shape f own
    | record components =>
      rw [Decl.fields, shape] at own
      exact (accepted.checked d member).components components shape f own
    | _ =>
      rw [Decl.fields, shape] at own
      cases own
  results d member m own := (elements d member).2 m own

theorem ClassUnit.Comes.asked {program : Program} {options : Options} {d : Decl} {u : ClassUnit}
    (come : ClassUnit.Comes program options d u) (typed : program.IsTyped) (own : d ∈ program) :
    ∃ requests, PoolRequest.Answered {} requests u.classFile.pool ∧
      ∀ request ∈ requests, request.IsFormed fun owner => program.findInternal? owner = none := by
  have assembled := come.assembled
  unfold Program.assemble at assembled
  split at assembled
  next contents pool built =>
    have asked := Assembly.fits_build (t := { program, decl := d, options }) typed own _ _ _ built
    rw [← Except.ok.inj assembled]
    exact asked
  next => cases assembled

-- Descriptors of a compiled file are well formed where the file has no arrays of void. The one exception are
-- constructors of classes of other files, which take whatever is passed to them.
theorem Session.compile_descriptors {s later : Session} {path : Text.SourcePath} {source : String} {count : Nat}
    (compiled : s.compile path source = (.ok count, later))
    (plain : ∀ segment ∈ path.directory ++ [path.stem], IsPlain segment)
    (elements : ∀ d ∈ later.program, (∀ f ∈ d.fields, ¬ f.type.IsVoidArray) ∧
      ∀ m ∈ d.methods, ∀ t ∈ m.returns, ¬ t.IsVoidArray) :
    ∀ u ∈ later.units,
      (∀ f ∈ u.classFile.fields, ∃ text, u.classFile.pool.utf8? f.descriptor = some text ∧
        FieldType text.toList) ∧
      (∀ m ∈ u.classFile.methods, ∃ text, u.classFile.pool.utf8? m.descriptor = some text ∧
        MethodType text.toList) ∧
      ∀ i n t, u.classFile.pool.get? i = some (.nameAndType n t) →
        ∃ name text, u.classFile.pool.utf8? n = some name ∧ u.classFile.pool.utf8? t = some text ∧
          (FieldType text.toList ∨ MethodType text.toList ∨ name = constructorName ∧
            ∃ j owner params, u.classFile.pool.RefersTo .methodRef j owner name text ∧
              (∀ v ∈ later.units, v.internalName ≠ owner) ∧
              text = (MethodDescriptor.of params .void).text ∧ ∀ p ∈ params, p.Proper IsPlain) := by
  intro u member
  obtain ⟨accepted, comes⟩ := compile_comes compiled
  obtain ⟨packages, among, known⟩ := Program.ofSource_accepted accepted
  have typed := known.isTyped (fun p listed => plain p (among listed)) elements
  obtain ⟨d, own, come⟩ := exists_left_of_forall₂ comes member
  refine ⟨come.holds.fields_formed typed own, come.holds.methods_formed typed own, fun i n t present => ?_⟩
  obtain ⟨requests, answered, formed⟩ := come.asked typed own
  rcases answered.named ConstantPool.tidy_empty present with old | ⟨request, asked, name, text, about, named, spelled⟩
  · simp [ConstantPool.get?] at old
  · refine ⟨name, text, named, spelled, ?_⟩
    obtain ⟨j, stands⟩ := answered.standsAt ConstantPool.tidy_empty request asked
    have fits := formed request asked
    cases request with
    | nameAndType => exact fits.elim
    | fieldRef owner =>
      cases about
      exact .inl fits
    | interfaceMethodRef owner =>
      cases about
      exact .inr (.inl fits)
    | methodRef owner =>
      cases about
      refine .inr (fits.imp_right ?_)
      rintro ⟨isInit, away, params, rfl, proper⟩
      refine ⟨isInit, j, owner, params, stands, fun v listed same => ?_, rfl, proper⟩
      obtain ⟨e, declared, come'⟩ := exists_left_of_forall₂ comes listed
      rw [← same, come'.internalName, known.findInternal declared] at away
      cases away
    | _ => cases about

theorem Session.compile_descriptors_argument :
    ∃ later, ({} : Session).compile ⟨"F.k"⟩ ("\n".intercalate [
        "type E = A", "class T \x7b", "int[] x", "void f() \x7b", "\x7d",
        "Object g() \x7b", "return new Object(f())", "\x7d", "\x7d"]) = (.ok 2, later) ∧
      (∃ u ∈ later.units, u.internalName = "F/T" ∧
        ∃ j ∈ List.range 30, u.classFile.pool.memberRef? (UInt16.ofNat j) =
          some ("java/lang/Object", constructorName, "(V)V")) ∧
      ∀ u ∈ later.units,
        (∀ f ∈ u.classFile.fields, ∃ text, u.classFile.pool.utf8? f.descriptor = some text ∧
          FieldType text.toList) ∧
        (∀ m ∈ u.classFile.methods, ∃ text, u.classFile.pool.utf8? m.descriptor = some text ∧
          MethodType text.toList) ∧
        ∀ i n t, u.classFile.pool.get? i = some (.nameAndType n t) →
          ∃ name text, u.classFile.pool.utf8? n = some name ∧ u.classFile.pool.utf8? t = some text ∧
            (FieldType text.toList ∨ MethodType text.toList ∨ name = constructorName ∧
              ∃ j owner params, u.classFile.pool.RefersTo .methodRef j owner name text ∧
                (∀ v ∈ later.units, v.internalName ≠ owner) ∧
                text = (MethodDescriptor.of params .void).text ∧ ∀ p ∈ params, p.Proper IsPlain) := by
  generalize written : "\n".intercalate _ = source
  obtain ⟨later, compiled, passed, elements⟩ : ∃ later, ({} : Session).compile ⟨"F.k"⟩ source = (.ok 2, later) ∧
      (∃ u ∈ later.units, u.internalName = "F/T" ∧
        ∃ j ∈ List.range 30, u.classFile.pool.memberRef? (UInt16.ofNat j) =
          some ("java/lang/Object", constructorName, "(V)V")) ∧
      ∀ d ∈ later.program, (∀ f ∈ d.fields, ¬ f.type.IsVoidArray) ∧ ∀ m ∈ d.methods, ∀ t ∈ m.returns, ¬ t.IsVoidArray :=
    compile_returns written (by decide +kernel)
  exact ⟨later, compiled, passed, compile_descriptors compiled (by decide +kernel) elements⟩

end ClassForge
