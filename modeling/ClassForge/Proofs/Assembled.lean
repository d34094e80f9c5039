import ClassForge.Proofs.AssemblyGrowth

set_option autoImplicit false

namespace ClassForge

def Attribute.IsBrief (attributes : List Attribute) : Prop :=
  attributes.length ≤ 1 ∧ ∀ a ∈ attributes, a.info.length = 2

namespace Build

variable {α β : Type} {P P' : ConstantPool → α → Prop} {Q : ConstantPool → β → Prop} {x : Build α} {f : α → Build β}

def Makes (known : ConstantPool → α → Prop) (step : Build α) : Prop :=
  ∀ pool a later, pool.Valid → step pool = .ok a later →
    later.Valid ∧ pool.Extends later ∧ ∀ final, later.Extends final → known final a

theorem makes_pure {a : α} (known : ∀ pool, P pool a) : Makes P (pure a) := by
  intro pool b later valid h
  obtain ⟨rfl, rfl⟩ := pure_returns.1 h
  exact ⟨valid, .refl _, fun final _ => known final⟩

theorem makes_bind_of (first : Makes P x)
    (second : ∀ a pool, P pool a → Makes (fun pool b => P pool a → Q pool b) (f a)) : Makes Q (x >>= f) := by
  intro pool b later valid h
  obtain ⟨a, mid, run, h⟩ := bind_returns.1 h
  obtain ⟨valid1, grown1, known1⟩ := first _ _ _ valid run
  obtain ⟨valid2, grown2, known2⟩ := second a mid (known1 mid (.refl _)) _ _ _ valid1 h
  exact ⟨valid2, grown1.trans grown2, fun final more => known2 final more (known1 final (grown2.trans more))⟩

theorem makes_bind (first : Makes P x) (second : ∀ a, Makes (fun pool b => P pool a → Q pool b) (f a)) :
    Makes Q (x >>= f) :=
  makes_bind_of first fun a _ _ => second a

theorem Makes.imp (makes : Makes P x) (weaker : ∀ pool a, P pool a → P' pool a) : Makes P' x := by
  intro pool a later valid h
  obtain ⟨valid', grown, known⟩ := makes pool a later valid h
  exact ⟨valid', grown, fun final more => weaker final a (known final more)⟩

theorem makes_check {location : Location} {result : Except Cause α} (next : ∀ a, result = .ok a → Makes Q (f a)) :
    Makes Q (check (ClassForge.located location result) >>= f) := by
  intro pool b later valid h
  obtain ⟨a, _, found, h⟩ := bind_returns.1 h
  obtain ⟨known, rfl⟩ := check_returns.1 found
  exact next a (located_eq_ok.1 known) pool b later valid h

theorem makes_ite {p : Prop} [Decidable p] {y : Build α} (yes : p → Makes P x) (no : ¬ p → Makes P y) :
    Makes P (if p then x else y) := by
  split_ifs with h
  · exact yes h
  · exact no h

theorem makes_mapM {items : List α} {step : α → Build β} {known : α → ConstantPool → β → Prop}
    (makes : ∀ item ∈ items, Makes (known item) (step item)) :
    Makes (fun pool results => List.Forall₂ (fun item result => known item pool result) items results)
      (items.mapM step) := by
  induction items with
  | nil => exact makes_pure fun _ => .nil
  | cons item rest ih =>
    obtain ⟨first, makes⟩ := List.forall_mem_cons.1 makes
    rw [List.mapM_cons]
    exact makes_bind first fun _ => makes_bind (ih makes) fun _ => makes_pure fun _ others own => .cons own others

theorem utf8_makes (text : String) :
    Makes (fun pool index => pool.utf8? index = some text) (Build.pooled (.utf8 text)) := by
  intro pool index later valid h
  obtain ⟨valid', grown, named⟩ := Pooled.utf8_returns valid (pooled_returns.1 h)
  exact ⟨valid', grown, fun _ more => more.utf8? named⟩

theorem classRef_makes (name : String) :
    Makes (fun pool index => pool.className? index = some name) (Build.pooled (.classRef name)) := by
  intro pool index later valid h
  obtain ⟨valid', grown, named⟩ := Pooled.classRef_returns valid (pooled_returns.1 h)
  exact ⟨valid', grown, fun _ more => more.className? named⟩

theorem textAttribute_makes (name text : String) : Makes (fun _ a => Attribute.IsBrief [a]) (textAttribute name text) :=
  makes_bind (utf8_makes text) fun _ => makes_bind (utf8_makes name) fun _ =>
    makes_pure fun _ _ _ => ⟨Nat.le_refl _, by simp [Bytes.u2]⟩

theorem attribute_makes {p : Prop} [Decidable p] (name text : String) :
    Makes (fun _ attributes => Attribute.IsBrief attributes)
      (if p then return [] else do return [← textAttribute name text]) :=
  makes_ite (fun _ => makes_pure fun _ => ⟨Nat.zero_le _, by simp⟩) fun _ =>
    makes_bind (textAttribute_makes name text) fun _ => makes_pure fun _ brief => brief

theorem signature_makes (options : Options) (generic : Option String) :
    Makes (fun _ attributes => Attribute.IsBrief attributes) (signature options generic) := by
  cases generic with
  | none => exact makes_pure fun _ => ⟨Nat.zero_le _, by simp⟩
  | some text => exact attribute_makes _ text

end Build

structure FieldMade (flags : UInt16) (name : String) (d : Descriptor) (pool : ConstantPool)
    (info : FieldInfo) : Prop where
  flags : info.flags = flags
  named : pool.utf8? info.name = some name
  typed : pool.utf8? info.descriptor = some d.text
  brief : Attribute.IsBrief info.attributes

structure MethodMade (flags : UInt16) (name : String) (d : MethodDescriptor) (code : Option CodeAttribute)
    (pool : ConstantPool) (info : MethodInfo) : Prop where
  flags : info.flags = flags
  named : pool.utf8? info.name = some name
  typed : pool.utf8? info.descriptor = some d.text
  code : info.code = code
  brief : Attribute.IsBrief info.attributes

theorem Build.field_makes (options : Options) (flags : UInt16) (name : String) (d : Descriptor)
    (generic : Option String) : Makes (FieldMade flags name d) (Build.field options flags name d generic) :=
  makes_bind (utf8_makes name) fun _ => makes_bind (utf8_makes d.text) fun _ =>
    makes_bind (signature_makes options generic) fun _ => makes_pure fun _ brief typed named =>
      ⟨rfl, named, typed, brief⟩

theorem Build.method_makes (options : Options) (flags : UInt16) (name : String) (d : MethodDescriptor)
    (code : Option CodeAttribute) (generic : Option String) :
    Makes (MethodMade flags name d code) (Build.method options flags name d code generic) :=
  makes_bind (utf8_makes name) fun _ => makes_bind (utf8_makes d.text) fun _ =>
    makes_bind (signature_makes options generic) fun _ =>
      makes_pure fun _ brief typed named => ⟨rfl, named, typed, rfl, brief⟩

variable {program : Program} {d : Decl} {pool later : ConstantPool} {options : Options} {step : Build CodeAttribute}
  {components : List Field} {units : List ClassUnit}

namespace Assembly

variable {t : Target}

def FieldOf (t : Target) (f : Field) (pool : ConstantPool) (info : FieldInfo) : Prop :=
  ∃ d, t.scope.descriptor f.type = .ok d ∧ FieldMade (AccessFlags.ofField f.modifier) f.name d pool info

def Target.methodScope (t : Target) (m : Method) : Scope :=
  { t.scope with typeParams := m.typeParams }

def Target.isBodiless (t : Target) (m : Method) : Bool :=
  t.decl.isInterface || m.modifier.has .abstract || m.modifier.has .native

structure CodeMade (step : Build CodeAttribute) (size : Nat) (pool : ConstantPool) (code : CodeAttribute) : Prop where
  room : size ≤ code.maxLocals.toNat
  made : ∃ before mid, before.Valid ∧ step before = .ok code mid ∧ mid.Extends pool

theorem code_makes {site : Site} {size : Nat}
    (generated : ∀ pool code later, pool.Valid → step pool = .ok code later → later.Valid ∧ pool.Extends later ∧
      size ≤ code.maxLocals.toNat ∧ Generated site later code) :
    Build.Makes (fun pool code => CodeMade step size pool code ∧ Generated site pool code) step := by
  intro pool code later valid run
  obtain ⟨valid', grown, room, made⟩ := generated pool code later valid run
  exact ⟨valid', grown, fun _ more => ⟨⟨room, pool, later, valid, run, more⟩, made.mono more⟩⟩

inductive CodeOf (t : Target) (m : Method) (pool : ConstantPool) : Option CodeAttribute → Prop
  | bodiless (bodiless : t.isBodiless m = true) : CodeOf t m pool none
  | body {code : CodeAttribute} {returns : Descriptor} (bodied : t.isBodiless m = false)
      (built : CodeMade (t.program.methodCode t.decl m) (entrySize (m.modifier.has .static) m.params) pool code)
      (typed : (t.methodScope m).resultDescriptor m.returns = .ok returns)
      (generated : Generated (t.program.methodSite t.decl m returns) pool code) :
      CodeOf t m pool (some code)

def MethodOf (t : Target) (flags : UInt16) (m : Method) (pool : ConstantPool) (info : MethodInfo) : Prop :=
  ∃ d code, (t.methodScope m).methodDescriptor m.params m.returns = .ok d ∧ CodeOf t m pool code ∧
    MethodMade flags m.name d code pool info

def ConstructorOf (t : Target) (c : Constructor) (pool : ConstantPool) (info : MethodInfo) : Prop :=
  ∃ d code, t.scope.methodDescriptor c.params none = .ok d ∧
    CodeMade (t.program.constructorCode t.decl c t.options.superclass) (entrySize false c.params) pool code ∧
    Generated (t.program.constructorSite t.decl) pool code ∧
    MethodMade (AccessFlags.ofMethod c.modifier) constructorName d (some code) pool info

def StaticInitOf (t : Target) (pool : ConstantPool) (info : MethodInfo) : Prop :=
  ∃ code, Generated (t.program.staticInitSite t.decl) pool code ∧
    MethodMade AccessFlags.isStatic staticInitName noArguments (some code) pool info

open Build (makes_pure makes_bind makes_bind_of makes_check makes_ite makes_mapM)

theorem field_makes (f : Field) : Build.Makes (FieldOf t f) (t.field f) :=
  makes_check fun d typed => makes_check fun _ _ => (Build.field_makes _ _ _ d _).imp fun _ _ made => ⟨d, typed, made⟩

theorem methodCode_makes {m : Method} (bodied : ¬ t.isBodiless m = true) :
    Build.Makes (CodeOf t m) (some <$> t.program.methodCode t.decl m) := by
  intro pool code later valid h
  obtain ⟨body, run, rfl⟩ := map_returns.1 h
  obtain ⟨valid', grown, room, returns, result, generated⟩ := Program.methodCode_generated valid run
  exact ⟨valid', grown, fun _ more =>
    .body (Bool.eq_false_iff.2 bodied) ⟨room, pool, later, valid, run, more⟩ result (generated.mono more)⟩

theorem method_makes (m : Method) (flags : UInt16) : Build.Makes (MethodOf t flags m) (t.method m flags) := by
  refine makes_check fun d typed => makes_check fun generic _ => ?_
  have entry (code : Option CodeAttribute) : Build.Makes
    (fun pool info => CodeOf t m pool code → MethodOf t flags m pool info)
      (Build.method t.options flags m.name d code generic) :=
    (Build.method_makes _ _ _ d code _).imp fun _ _ made codeOf => ⟨d, code, typed, codeOf, made⟩
  exact makes_ite (fun bodiless => makes_bind (makes_pure fun _ => .bodiless bodiless) entry) fun bodied =>
    makes_bind (methodCode_makes bodied) entry

theorem constructor_makes (c : Constructor) : Build.Makes (ConstructorOf t c) (t.constructor c) :=
  makes_check fun d typed => makes_check fun _ _ =>
    makes_bind (code_makes fun _ _ _ valid run => Program.constructorCode_generated valid run) fun code =>
      (Build.method_makes _ _ _ d _ _).imp fun _ _ made coded => ⟨d, code, typed, coded.1, coded.2, made⟩

theorem staticInitCode_makes : Build.Makes
    (fun pool found => ∀ code ∈ found, Generated (t.program.staticInitSite t.decl) pool code)
    (t.program.staticInitCode t.decl) := by
  intro pool found later valid h
  cases found with
  | none =>
    obtain rfl := Program.staticInitCode_none h
    exact ⟨valid, .refl _, by simp⟩
  | some code =>
    obtain ⟨valid', grown, generated⟩ := Program.staticInitCode_generated valid h
    exact ⟨valid', grown, fun _ more => by simpa using generated.mono more⟩

theorem staticInit_makes : Build.Makes (fun pool infos => ∀ info ∈ infos, StaticInitOf t pool info) t.staticInit := by
  refine makes_bind staticInitCode_makes fun found => ?_
  cases found with
  | none => exact makes_pure fun _ _ => by simp
  | some code =>
    refine makes_bind (Build.method_makes _ _ _ _ _ _) fun info => makes_pure fun _ made coded => ?_
    exact List.forall_mem_singleton.2 ⟨code, coded code rfl, made⟩

def ValueMethodOf (t : Target) (isInitializer : Bool) (flags : UInt16) (name : String)
    (params : List Descriptor) (returns : Descriptor) (step : Build CodeAttribute) (pool : ConstantPool)
    (info : MethodInfo) : Prop :=
  ∃ code, CodeMade step ((if AccessFlags.has flags AccessFlags.isStatic then 0 else 1) +
      Descriptor.totalWidth params) pool code ∧
    Generated (t.site isInitializer returns) pool code ∧
    MethodMade flags name (.of params returns) (some code) pool info

inductive Holds (t : Target) (pool : ConstantPool) : List FieldInfo → List MethodInfo → Prop
  | plainClass {body : ClassBody} {fields : List FieldInfo} {constructors methods inits : List MethodInfo}
      (shape : t.decl.shape = .plainClass body)
      (declared : List.Forall₂ (fun f info => FieldOf t f pool info) body.fields fields)
      (constructed : List.Forall₂ (fun m info => ConstructorOf t m pool info) body.constructors constructors)
      (coded : List.Forall₂ (fun m info => MethodOf t (AccessFlags.ofMethod m.modifier) m pool info)
        body.methods methods)
      (initial : ∀ info ∈ inits, StaticInitOf t pool info) :
      Holds t pool fields (constructors ++ methods ++ inits)
  | interface {parents : List TypeName} {declared : List Method} {methods : List MethodInfo}
      (shape : t.decl.shape = .interface parents declared)
      (coded : List.Forall₂ (fun m info => MethodOf t (AccessFlags.ofInterfaceMethod m.modifier) m pool info)
        declared methods) : Holds t pool [] methods
  | enumeration {values : List String} {fields : List FieldInfo} {array : FieldInfo}
      {all valueOf init staticInit : MethodInfo} (shape : t.decl.shape = .enumeration values)
      (named : List.Forall₂ (fun value info => FieldMade
        (AccessFlags.isPublic ||| AccessFlags.isStatic ||| AccessFlags.isFinal ||| AccessFlags.isEnum)
        value t.selfType pool info) values fields)
      (held : FieldMade
        (AccessFlags.isPrivate ||| AccessFlags.isStatic ||| AccessFlags.isFinal ||| AccessFlags.isSynthetic)
        Enumeration.valuesField t.selfType.arrayOf pool array)
      (listed : ValueMethodOf t false (AccessFlags.isPublic ||| AccessFlags.isStatic) "values" []
        t.selfType.arrayOf (Enumeration.valuesCode t) pool all)
      (found : ValueMethodOf t false (AccessFlags.isPublic ||| AccessFlags.isStatic) "valueOf" [.string]
        t.selfType (Enumeration.valueOfCode t) pool valueOf)
      (made : ValueMethodOf t false AccessFlags.isPrivate constructorName [.string, .int] .void
        Enumeration.constructorCode pool init)
      (initial : ValueMethodOf t true AccessFlags.isStatic staticInitName [] .void
        (Enumeration.staticInitCode t values) pool staticInit) :
      Holds t pool (fields ++ [array]) [all, valueOf, init, staticInit]
  | record {components : List Field} {fields : List FieldInfo} {init : MethodInfo}
      {accessors : List MethodInfo} {parts : List Record.Component} (shape : t.decl.shape = .record components)
      (declared : List.Forall₂ (fun f info => FieldOf t f pool info) components fields)
      (typed : List.Forall₂ (fun f (c : Record.Component) => c.name = f.name ∧ t.scope.descriptor f.type = .ok c.type)
        components parts)
      (made : ValueMethodOf t true AccessFlags.isPublic constructorName (parts.map (·.type)) .void
        (Record.constructorCode t parts) pool init)
      (read : List.Forall₂ (fun f info => ∃ d, t.scope.descriptor f.type = .ok d ∧
        ValueMethodOf t false AccessFlags.isPublic f.name [] d
          (Record.accessorCode t { name := f.name, type := d, generic := none }) pool info) components accessors) :
      Holds t pool fields (init :: accessors)

theorem header_makes (self superclass : String) (interfaces : List String) :
    Build.Makes (fun pool c => pool.className? c.thisClass = some self ∧ c.fields = [])
      (Build.header self superclass interfaces) :=
  makes_bind (Build.classRef_makes self) fun _ => makes_bind (Build.classRef_makes superclass) fun _ =>
    makes_bind (makes_mapM fun name _ => Build.classRef_makes name) fun _ => makes_pure fun _ _ _ named => ⟨named, rfl⟩

theorem members_makes {α β : Type} {line : α → Nat} {step : α → Build β} {items : List α}
    {known : α → ConstantPool → β → Prop} (makes : ∀ item, Build.Makes (known item) (step item)) :
    Build.Makes (fun pool results => List.Forall₂ (fun item result => known item pool result) items results)
      (t.members line step items) :=
  makes_mapM fun item _ pool b later valid h => makes item pool b later valid (Build.located_returns.1 h)

structure Describes (t : Target) (pool : ConstantPool) (c : Contents) : Prop where
  named : pool.className? c.thisClass = some t.self
  brief : Attribute.IsBrief c.attributes
  holds : Holds t pool c.fields c.methods

theorem classContents_makes {body : ClassBody} (shape : t.decl.shape = .plainClass body) :
    Build.Makes (Describes t) (t.classContents body) :=
  makes_check fun _ _ => makes_check fun _ _ => makes_bind (header_makes _ _ _) fun _ => makes_check fun _ _ =>
    makes_bind (Build.signature_makes _ _) fun _ => makes_bind (members_makes field_makes) fun _ =>
    makes_bind (members_makes constructor_makes) fun _ =>
    makes_bind (members_makes fun m => method_makes m (AccessFlags.ofMethod m.modifier)) fun _ =>
    makes_bind staticInit_makes fun _ => makes_pure fun _ initial coded constructed declared brief head =>
      ⟨head.1, brief, .plainClass shape declared constructed coded initial⟩

theorem interfaceContents_makes {parents : List TypeName} {methods : List Method}
    (shape : t.decl.shape = .interface parents methods) :
    Build.Makes (Describes t) (t.interfaceContents parents methods) :=
  makes_check fun _ _ => makes_bind (header_makes _ _ _) fun _ => makes_check fun _ _ =>
    makes_bind (Build.signature_makes _ _) fun _ =>
    makes_bind (members_makes fun m => method_makes m (AccessFlags.ofInterfaceMethod m.modifier)) fun _ =>
    makes_pure fun _ coded brief head => ⟨head.1, brief, head.2 ▸ .interface shape coded⟩

theorem valueMethod_makes (t : Target) (isInitializer : Bool) {flags : UInt16} {name : String}
    {params : List Descriptor} {returns : Descriptor} {generic : Option String} {α : Type} {f : MethodInfo → Build α}
    {Q : ConstantPool → α → Prop}
    (generated : ∀ pool code later, pool.Valid → step pool = .ok code later → later.Valid ∧ pool.Extends later ∧
      (if AccessFlags.has flags AccessFlags.isStatic then 0 else 1) + Descriptor.totalWidth params ≤
        code.maxLocals.toNat ∧ Generated (t.site isInitializer returns) later code)
    (next : ∀ info, Build.Makes (fun pool a =>
      ValueMethodOf t isInitializer flags name params returns step pool info → Q pool a) (f info)) :
    Build.Makes Q (step >>= fun code => Build.method options flags name (.of params returns)
      (some code) generic >>= f) :=
  makes_bind (code_makes generated) fun code => makes_bind (Build.method_makes _ _ _ _ _ _) fun info =>
    (next info).imp fun _ _ known made coded => known ⟨code, coded.1, coded.2, made⟩

theorem enumerationContents_makes {values : List String} (shape : t.decl.shape = .enumeration values) :
    Build.Makes (Describes t) (Enumeration.contents t values) := by
  refine makes_bind (header_makes _ _ _) fun _ => makes_bind (Build.signature_makes _ _) fun _ =>
    makes_bind (makes_mapM fun _ _ => Build.field_makes _ _ _ _ _) fun _ =>
      makes_bind (Build.field_makes _ _ _ _ _) fun _ =>
    valueMethod_makes t false (fun pool code later valid run => ?_) fun _ =>
    valueMethod_makes t false (fun pool code later valid run => ?_) fun _ =>
    valueMethod_makes t false (fun pool code later valid run => ?_) fun _ =>
    valueMethod_makes t true (fun pool code later valid run => ?_) fun _ =>
    makes_pure fun _ initial made found listed held named brief head =>
      ⟨head.1, brief, .enumeration shape named held listed found made initial⟩
  · obtain ⟨valid', grown, locals, generated⟩ := Enumeration.valuesCode_generated shape valid run
    exact ⟨valid', grown, by rw [locals]; decide, generated⟩
  · obtain ⟨valid', grown, locals, generated⟩ := Enumeration.valueOfCode_generated valid run
    exact ⟨valid', grown, by rw [locals]; decide, generated⟩
  · obtain ⟨valid', grown, locals, generated⟩ := Enumeration.constructorCode_generated valid run
    exact ⟨valid', grown, by rw [locals]; decide, generated⟩
  · obtain ⟨valid', grown, locals, generated, -⟩ := Enumeration.staticInitCode_spells shape valid run
    exact ⟨valid', grown, by rw [locals]; decide, generated⟩

def ComponentOf (t : Target) (f : Field) (pool : ConstantPool) (made : Record.Component × FieldInfo) :
    Prop :=
  made.1.name = f.name ∧ t.scope.descriptor f.type = .ok made.1.type ∧ FieldOf t f pool made.2

theorem component_makes (f : Field) : Build.Makes (ComponentOf t f) (Record.component t f) :=
  makes_check fun d typed => makes_check fun _ _ => makes_bind (Build.field_makes _ _ _ d _) fun _ =>
    makes_pure fun _ made => ⟨rfl, typed, d, typed, made⟩

theorem ComponentOf.declares {fields : List Field} {made : List (Record.Component × FieldInfo)}
    (known : List.Forall₂ (fun f made => ComponentOf t f pool made) fields made) :
    ∀ c ∈ made.map (·.1), Record.Declares t fields c := by
  intro c member
  obtain ⟨pair, among, rfl⟩ := List.mem_map.1 member
  obtain ⟨f, among, named, typed, -⟩ := exists_left_of_forall₂ known among
  exact ⟨f, among, named, typed⟩

theorem accessor_makes (shape : t.decl.shape = .record components)
    {c : Record.Component} (declares : Record.Declares t components c) : Build.Makes
      (ValueMethodOf t false AccessFlags.isPublic c.name [] c.type (Record.accessorCode t c))
        (Record.accessor t c) := by
  refine makes_bind (code_makes fun pool code later valid run => ?_) fun code =>
    (Build.method_makes _ _ _ _ _ _).imp fun _ _ made coded => ⟨code, coded.1, coded.2, made⟩
  obtain ⟨valid', grown, locals, generated⟩ := Record.accessorCode_generated shape declares valid run
  exact ⟨valid', grown, by rw [locals]; decide, generated⟩

theorem recordContents_makes (shape : t.decl.shape = .record components) :
    Build.Makes (Describes t) (Record.contents t components) := by
  refine makes_bind (header_makes _ _ _) fun _ => makes_check fun _ _ => makes_bind (Build.signature_makes _ _) fun _ =>
    makes_bind_of (makes_mapM fun f _ => component_makes f) fun made pool known => ?_
  have declares := ComponentOf.declares known
  simp only [← Function.comp_def (fun c : Record.Component => c.type), ← List.map_map]
  refine valueMethod_makes t true (fun pool code later valid run => ?_) fun _ =>
    makes_bind (makes_mapM fun c member => accessor_makes shape (declares c.1 (List.mem_map_of_mem member))) fun _ =>
    makes_pure fun _ read made known brief head => ⟨head.1, brief, .record shape ?_ ?_ made ?_⟩
  · obtain ⟨valid', grown, locals, generated, -⟩ := Record.constructorCode_spells shape declares valid run
    exact ⟨valid', grown, by rw [locals, if_neg (by decide)], generated⟩
  · exact List.forall₂_map_right_iff.2 (known.imp fun _ _ made => made.2.2)
  · exact List.forall₂_map_right_iff.2 (known.imp fun _ _ made => ⟨made.1, made.2.1⟩)
  · refine (forall₂_comp known read).imp fun f info => ?_
    rintro ⟨c, ⟨named, typed, -⟩, made⟩
    exact ⟨c.1.type, typed, named ▸ made⟩

theorem sourceFile_makes : Build.Makes (fun _ attributes => Attribute.IsBrief attributes) t.sourceFile :=
  Build.attribute_makes _ _

theorem contents_makes : Build.Makes (Describes t) t.contents := by
  unfold Target.contents
  split
  next shape => exact classContents_makes shape
  next shape => exact interfaceContents_makes shape
  next shape => exact enumerationContents_makes shape
  next shape => exact recordContents_makes shape

theorem build_makes : Build.Makes (fun pool c => pool.className? c.thisClass = some t.self ∧
    (c.attributes.length ≤ 2 ∧ ∀ a ∈ c.attributes, a.info.length = 2) ∧ Holds t pool c.fields c.methods) t.build := by
  refine makes_bind contents_makes fun _ => makes_bind sourceFile_makes fun _ => makes_pure fun _ last made => ?_
  refine ⟨made.named, ⟨?_, List.forall_mem_append.2 ⟨made.brief.2, last.2⟩⟩, made.holds⟩
  rw [List.length_append]
  exact Nat.add_le_add made.brief.1 last.1

end Assembly

theorem Program.assemble_holds {c : ClassFile} (h : program.assemble options d = .ok c) :
    c.pool.Valid ∧ (c.thisName? = some d.internalName ∧ c.attributes.length ≤ 2 ∧
      ∀ a ∈ c.attributes, a.info.length = 2) ∧
      c.flags = AccessFlags.ofClass d.modifier d.shape ∧
      Assembly.Holds { program, decl := d, options } c.pool c.fields c.methods := by
  unfold assemble at h
  split at h
  next contents pool built =>
    cases h
    obtain ⟨valid, -, known⟩ := Assembly.build_makes _ _ _ ConstantPool.valid_empty built
    obtain ⟨named, brief, holds⟩ := known pool (.refl _)
    exact ⟨valid, ⟨named, brief⟩, rfl, holds⟩
  next => cases h

structure ClassUnit.Comes (program : Program) (options : Options) (d : Decl) (u : ClassUnit) : Prop where
  internalName : u.internalName = d.internalName
  assembled : program.assemble options d = .ok u.classFile
  verified : u.classFile.verify = .ok ()

theorem Program.units_come
    (h : program.units options = .ok units) : List.Forall₂ (ClassUnit.Comes program options) program units := by
  refine (mapM_eq_ok_iff.1 h).imp fun d u built => ?_
  simp only [Program.unit, bind_eq_ok, located_eq_ok, pure_eq_ok] at built
  obtain ⟨c, assembled, _, verified, rfl⟩ := built
  refine ⟨rfl, assembled, ?_⟩
  unfold ClassFile.verified at verified
  split at verified
  next passed => exact passed
  next => cases verified

theorem compile_eq_ok {path : Text.SourcePath} {source : String}
    (h : compile options path source = .ok units) :
    ∃ program, Program.ofSource path source = .ok program ∧
      List.Forall₂ (ClassUnit.Comes program options) program units := by
  simp only [compile, bind_eq_ok] at h
  obtain ⟨program, accepted, made⟩ := h
  exact ⟨program, accepted, Program.units_come made⟩

end ClassForge
