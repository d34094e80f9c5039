import ClassForge.Proofs.Steps

set_option autoImplicit false

namespace ClassForge

variable {name owner : String} {d : Decl} {field : FieldTarget} {arguments : List Descriptor}

namespace Program

variable {program : Program}

theorem internalName_of_found (h : program.findInternal? name = some d) : d.internalName = name := by
  simpa using List.find?_some h

theorem mem_of_findInternal (h : program.findInternal? name = some d) : d ∈ program :=
  List.mem_of_find?_eq_some h

def HasField (program : Program) (field : FieldTarget) : Prop :=
  ∃ d, program.findInternal? field.owner = some d ∧ program.ownField? d field.name = .ok (some field)

def HasMethod (program : Program) (m : MethodTarget) : Prop :=
  ∃ d ms, program.findInternal? m.owner = some d ∧ program.ownMethods d m.name = .ok ms ∧ m ∈ ms

def HasConstructor (program : Program) (owner : String) (params : List Descriptor) : Prop :=
  program.findInternal? owner = none ∨
    ∃ d candidates, program.findInternal? owner = some d ∧
      program.constructorParams d = .ok candidates ∧ params ∈ candidates

theorem ownField_found (h : program.ownField? d name = .ok (some field)) :
    field.owner = d.internalName ∧ field.name = name ∧
      ((∃ values, d.shape = .enumeration values ∧ name ∈ values ∧ field.descriptor = .ofClass d.internalName ∧
          field.isStatic = true) ∨
        ∃ f ∈ d.fields, f.name = name ∧ (program.scopeOf d).descriptor f.type = .ok field.descriptor ∧
          field.isStatic = f.modifier.has .static ∧ field.isPrivate = decide (f.modifier.access = .declarer)) := by
  unfold ownField? at h
  split_ifs at h with value
  · cases h
    cases shape : d.shape with
    | enumeration values => exact ⟨rfl, rfl, .inl ⟨values, rfl, by simpa [Decl.values, shape] using value, rfl, rfl⟩⟩
    | _ => simp [Decl.values, shape] at value
  · split at h
    next => cases h
    next f found =>
      simp only [bind_eq_ok, pure_eq_ok, Option.some_inj] at h
      obtain ⟨_, typed, rfl⟩ := h
      have named : f.name = name := by simpa using List.find?_some found
      exact ⟨rfl, rfl, .inr ⟨f, List.mem_of_find?_eq_some found, named, typed, rfl, rfl⟩⟩

theorem searchField_found {fuel : Nat} (h : program.searchField name fuel owner = .ok (some field)) :
    program.HasField field ∧ field.name = name := by
  induction fuel generalizing owner with
  | zero => simp [searchField] at h
  | succ fuel ih =>
    unfold searchField at h
    split at h
    · cases h
    next d found =>
      simp only [bind_eq_ok] at h
      obtain ⟨own, owned, h⟩ := h
      split at h
      next here =>
        simp only [pure_eq_ok, Option.some_inj] at h
        subst h
        obtain ⟨owns, named, -⟩ := ownField_found owned
        refine ⟨⟨d, ?_, ?_⟩, named⟩
        · rw [owns, internalName_of_found found]
          exact found
        · rw [named]
          exact owned
      next =>
        split at h
        · simp at h
        · simp only [bind_eq_ok] at h
          obtain ⟨parent, -, h⟩ := h
          exact ih h

theorem findField_found (h : program.findField owner name = .ok (some field)) :
    program.HasField field ∧ field.name = name :=
  searchField_found h

theorem select_found {α : Type} {params : α → List Descriptor} {candidates : List α}
    {c : α} (h : program.select? params candidates arguments = some c) :
    c ∈ candidates ∧ (params c = arguments ∨ program.accepts (params c) arguments = true) := by
  rcases Option.or_eq_some_iff.1 h with exact' | ⟨-, accepted⟩
  · exact ⟨List.mem_of_find?_eq_some exact', .inl (by simpa using List.find?_some exact')⟩
  · exact ⟨List.mem_of_find?_eq_some accepted, .inr (by simpa using List.find?_some accepted)⟩

theorem length_of_select {α : Type} {params : α → List Descriptor} {candidates : List α}
    {c : α} (h : program.select? params candidates arguments = some c) : (params c).length = arguments.length := by
  rcases (select_found h).2 with same | accepted
  · rw [same]
  · unfold accepts at accepted
    simp only [Bool.and_eq_true, decide_eq_true_eq] at accepted
    exact accepted.1

end Program

variable {m : MethodTarget} {ms : List MethodTarget} {params : List Descriptor}

theorem MethodTarget.make_returns {descriptor : MethodDescriptor} {isStatic isPrivate onInterface : Bool}
    (h : MethodTarget.make owner name descriptor isStatic isPrivate onInterface = .ok m) :
    descriptor.split? = some (m.params, m.returns) ∧
      m = { owner, name, descriptor, params := m.params, returns := m.returns, isStatic, isPrivate,
            onInterface } := by
  unfold MethodTarget.make at h
  split at h
  next params returns split =>
    cases h
    exact ⟨split, rfl⟩
  next => cases h

namespace Program

variable {program : Program}

theorem ownMethods_found (h : program.ownMethods d name = .ok ms) (member : m ∈ ms) :
    (m.owner = d.internalName ∧ m.name = name ∧ m.descriptor.split? = some (m.params, m.returns) ∧
      m.onInterface = d.isInterface) ∧
    ((∃ own ∈ d.methods, own.name = name ∧ m.isStatic = own.modifier.has .static ∧
        m.isPrivate = decide (own.modifier.access = .declarer) ∧
        ({ program.scopeOf d with typeParams := own.typeParams } : Scope).methodDescriptor own.params
          own.returns = .ok m.descriptor) ∨
      (∃ values, d.shape = .enumeration values ∧ m.isPrivate = false ∧
        MethodTarget.ofEnumeration? d.internalName name = some (m.descriptor, m.isStatic)) ∨
      ∃ components f returns, d.shape = .record components ∧ f ∈ components ∧ f.name = name ∧
        (program.scopeOf d).descriptor f.type = .ok returns ∧ m.descriptor = .of [] returns ∧
        m.isStatic = false ∧ m.isPrivate = false) := by
  unfold ownMethods at h
  split at h
  next values shape =>
    split at h
    next descriptor isStatic found =>
      simp only [bind_eq_ok, pure_eq_ok] at h
      obtain ⟨target, made, rfl⟩ := h
      obtain ⟨split, same⟩ := MethodTarget.make_returns made
      rw [List.mem_singleton.1 member, same]
      exact ⟨⟨rfl, rfl, split, by simp [Decl.isInterface, shape]⟩, .inr (.inl ⟨values, shape, rfl, found⟩)⟩
    next =>
      cases h
      cases member
  next components shape =>
    split at h
    next component found =>
      simp only [bind_eq_ok, pure_eq_ok] at h
      obtain ⟨returns, typed, target, made, rfl⟩ := h
      obtain ⟨split, same⟩ := MethodTarget.make_returns made
      rw [List.mem_singleton.1 member, same]
      exact ⟨⟨rfl, rfl, split, by simp [Decl.isInterface, shape]⟩, .inr (.inr ⟨components, component, returns, shape,
        List.mem_of_find?_eq_some found, by simpa using List.find?_some found, typed, rfl, rfl, rfl⟩)⟩
    next =>
      cases h
      cases member
  next =>
    obtain ⟨own, among, found⟩ := exists_of_mapM_eq_ok h member
    simp only [methodTarget, bind_eq_ok] at found
    obtain ⟨descriptor, typed, made⟩ := found
    obtain ⟨split, same⟩ := MethodTarget.make_returns made
    have named : own.name = name := by simpa using (List.mem_filter.1 among).2
    rw [same]
    exact ⟨⟨rfl, named, split, rfl⟩, .inl ⟨own, List.mem_of_mem_filter among, named, rfl, rfl, typed⟩⟩

theorem searchMethod_found {owners : List String} (h : program.searchMethod name arguments owners = .ok (some m)) :
    program.HasMethod m ∧ m.name = name ∧ m.params.length = arguments.length ∧
      (m.params = arguments ∨ program.accepts m.params arguments = true) := by
  induction owners with
  | nil => simp [searchMethod] at h
  | cons owner rest ih =>
    unfold searchMethod at h
    split at h
    next => exact ih h
    next d found =>
      simp only [bind_eq_ok] at h
      obtain ⟨candidates, own, h⟩ := h
      split at h
      next chosen selected =>
        simp only [pure_eq_ok, Option.some_inj] at h
        subst h
        obtain ⟨member, fits⟩ := select_found selected
        obtain ⟨⟨owns, named, -⟩, -⟩ := ownMethods_found own member
        refine ⟨⟨d, candidates, ?_, ?_, member⟩, named, length_of_select selected, fits⟩
        · rw [owns, internalName_of_found found]
          exact found
        · rw [named]
          exact own
      next => exact ih h

def Instantiable (program : Program) (owner : String) : Prop :=
  ∀ d, program.findInternal? owner = some d →
    (∃ components, d.shape = .record components) ∨ ∃ body, d.shape = .plainClass body ∧ d.modifier.has .abstract = false

theorem constructorFor_found {instantiates : Bool}
    (h : program.constructorFor owner arguments instantiates = .ok params) :
    program.HasConstructor owner params ∧ params.length = arguments.length ∧
      (instantiates = true → program.Instantiable owner) := by
  unfold constructorFor at h
  split at h
  next unknown =>
    cases h
    exact ⟨.inl unknown, by simp, fun _ d found => by simp [unknown] at found⟩
  next d found =>
    split_ifs at h with isAbstract
    · cases h
    · simp only [bind_eq_ok] at h
      obtain ⟨candidates, known, h⟩ := h
      split at h
      next chosen selected =>
        simp only [pure_eq_ok] at h
        subst h
        refine ⟨.inr ⟨d, candidates, found, known, (select_found selected).1⟩, length_of_select selected, ?_⟩
        rintro rfl d' found'
        obtain rfl : d = d' := by simpa [found] using found'
        unfold constructorParams at known
        split at known
        next body shape =>
          refine .inr ⟨body, shape, ?_⟩
          simpa [Decl.classBody?, shape] using isAbstract
        next components shape => exact .inl ⟨components, shape⟩
        next => cases known
      next => simp at h

theorem typed_of_constructorParams {candidates : List (List Descriptor)} {p : Descriptor}
    (known : program.constructorParams d = .ok candidates) (among : params ∈ candidates) (listed : p ∈ params) :
    ∃ t, (program.scopeOf d).descriptor t = .ok p ∧
      ((∃ body, d.shape = .plainClass body ∧ ∃ c ∈ body.constructors, ∃ param ∈ c.params, param.type = t) ∨
        ∃ components, d.shape = .record components ∧ ∃ f ∈ components, f.type = t) := by
  unfold constructorParams at known
  split at known
  next body shape =>
    obtain ⟨c, declared, typed⟩ := exists_of_mapM_eq_ok known among
    obtain ⟨param, own, typed⟩ := exists_of_mapM_eq_ok typed listed
    exact ⟨_, typed, .inl ⟨body, shape, c, declared, param, own, rfl⟩⟩
  next components shape =>
    simp only [bind_eq_ok, pure_eq_ok] at known
    obtain ⟨fields, typed, rfl⟩ := known
    rw [List.mem_singleton.1 among] at listed
    obtain ⟨f, own, typed⟩ := exists_of_mapM_eq_ok typed listed
    exact ⟨_, typed, .inr ⟨components, shape, f, own, rfl⟩⟩
  next => cases known

end Program

theorem Descriptor.className_ofClass (name : String) : (Descriptor.ofClass name).className? = some name := by
  simp [Descriptor.className?, Descriptor.ofClass]

-- The name a use starts with; a call on the current declaration starts from its receiver.
def Head.root (head : Head) : String :=
  head.parts.headD "this"

variable {place : Place} {base : Option Referent} {previous : Option Descriptor} {head : Head}
  {methods : List MethodTarget}

namespace Context

variable {ctx : Context}

structure MayUse (ctx : Context) (field : FieldTarget) : Prop where
  has : ctx.program.HasField field
  allowed : field.isPrivate = true → field.owner = ctx.self

structure MayCall (ctx : Context) (m : MethodTarget) : Prop where
  has : ctx.program.HasMethod m
  allowed : m.isPrivate = true → m.owner = ctx.self

-- A use that starts with the name reaches the place. A name that is not bound stands for a field of the receiver.
inductive Reaches (ctx : Context) (name : String) : Place → Prop
  | this (isInstance : ctx.isStatic = false) (own : name = "this" ∨ ctx.slots.lookup? name = none) :
      Reaches ctx name .this
  | bound {b : Binding} (named : name ≠ "this") (found : ctx.slots.lookup? name = some b) :
      Reaches ctx name (.variable name b.offset (b.descriptor.getD .object) b.isFinal)
  | staticField {field : FieldTarget} (use : ctx.MayUse field) (isStatic : field.isStatic = true) :
      Reaches ctx name (.staticField field)
  | field {receiver : Place} {field : FieldTarget} (reached : Reaches ctx name receiver)
      (isObject : (ctx.descriptorOf receiver).className?.isSome = true) (use : ctx.MayUse field)
      (isInstance : field.isStatic = false) : Reaches ctx name (.field receiver field)
  | length {array : Place} (reached : Reaches ctx name array)
      (isArray : (ctx.descriptorOf array).element?.isSome = true) : Reaches ctx name (.length array)

theorem checkField_returns {checked : FieldTarget} (h : ctx.checkField field = .ok checked) :
    checked = field ∧ (field.isPrivate = true → field.owner = ctx.self) := by
  unfold checkField at h
  split_ifs at h with denied
  cases h
  refine ⟨rfl, fun isPrivate => ?_⟩
  simpa [isPrivate] using denied

theorem ownPlace_reached (unbound : ctx.slots.lookup? name = none)
    (has : ctx.program.HasField field) (h : ctx.ownPlace name field = .ok place) : ctx.Reaches name place := by
  simp only [ownPlace, bind_eq_ok] at h
  obtain ⟨checked, found, h⟩ := h
  obtain ⟨rfl, allowed⟩ := checkField_returns found
  split_ifs at h with isStatic inStatic
  · simp only [pure_eq_ok] at h
    exact h ▸ .staticField ⟨has, allowed⟩ isStatic
  · simp at h
  · simp only [pure_eq_ok] at h
    refine h ▸ .field (.this (by simpa using inStatic) (.inr unbound)) ?_ ⟨has, allowed⟩ (by simpa using isStatic)
    rw [descriptorOf, Descriptor.className_ofClass]
    rfl

theorem resolveName_reached (h : ctx.resolveName name = .ok (.value place)) : ctx.Reaches name place := by
  unfold resolveName at h
  split_ifs at h with isThis inStatic
  · cases h
    exact .this (by simpa using inStatic) (.inl isThis)
  · split at h
    next b found =>
      cases h
      exact .bound isThis found
    next unbound =>
      simp only [bind_eq_ok] at h
      obtain ⟨found, search, h⟩ := h
      split at h
      next field =>
        simp only [bind_eq_ok, pure_eq_ok] at h
        obtain ⟨own, owned, same⟩ := h
        cases same
        exact ownPlace_reached unbound (Program.findField_found search).1 owned
      next =>
        split at h
        · simp at h
        · simp at h

theorem fieldOf_returns (h : ctx.fieldOf owner name = .ok field) : ctx.MayUse field := by
  simp only [fieldOf, bind_eq_ok] at h
  obtain ⟨found, search, h⟩ := h
  split at h
  next candidate =>
    obtain ⟨rfl, allowed⟩ := checkField_returns h
    exact ⟨(Program.findField_found search).1, allowed⟩
  next => cases h

theorem resolveMember_reached {root : String} {base : Referent}
    (known : ∀ receiver, base = .value receiver → ctx.Reaches root receiver)
    (h : ctx.resolveMember name base = .ok place) : ctx.Reaches root place := by
  cases base with
  | type owner =>
    simp only [resolveMember, bind_eq_ok] at h
    obtain ⟨field, found, h⟩ := h
    split_ifs at h with isStatic
    · simp only [pure_eq_ok] at h
      exact h ▸ .staticField (fieldOf_returns found) isStatic
  | value receiver =>
    have reached := known receiver rfl
    simp only [resolveMember] at h
    split_ifs at h with isLength
    · simp only [pure_eq_ok] at h
      exact h ▸ .length reached isLength.1
    · split at h
      · simp at h
      next owner isClass =>
        simp only [bind_eq_ok, pure_eq_ok] at h
        obtain ⟨field, found, same⟩ := h
        have use := fieldOf_returns found
        split_ifs at same with isStatic
        · exact same ▸ .staticField use isStatic
        · exact same ▸ .field reached (by rw [isClass]; rfl) use (by simpa using isStatic)

theorem resolveHead_reached (h : ctx.resolveHead head = .ok (some (.value place))) : ctx.Reaches head.root place := by
  cases head with
  | implicit => simp [resolveHead] at h
  | self =>
    simp only [resolveHead, bind_eq_ok, pure_eq_ok, Option.some_inj] at h
    obtain ⟨base, found, rfl⟩ := h
    exact resolveName_reached found
  | named id =>
    simp only [resolveHead, bind_eq_ok, pure_eq_ok, Option.some_inj] at h
    obtain ⟨base, found, rfl⟩ := h
    exact resolveName_reached found
  | member owner id =>
    simp only [resolveHead, bind_eq_ok, pure_eq_ok, Option.some_inj] at h
    obtain ⟨base, named, reached, found, same⟩ := h
    cases same
    refine resolveMember_reached ?_ found
    rintro receiver rfl
    exact resolveName_reached named

theorem root_of_implicit (h : ctx.resolveHead head = .ok none) : head.root = "this" := by
  cases head with
  | implicit => rfl
  | _ => simp [resolveHead, bind_eq_ok] at h

theorem methodOf_returns (h : ctx.methodOf owner name arguments = .ok m) :
    ctx.MayCall m ∧ m.params.length = arguments.length ∧
      (m.params = arguments ∨ ctx.program.accepts m.params arguments = true) := by
  simp only [methodOf, bind_eq_ok] at h
  obtain ⟨found, search, h⟩ := h
  split at h
  next => simp at h
  next candidate =>
    split_ifs at h with denied
    · simp at h
    · simp only [pure_eq_ok] at h
      subst h
      obtain ⟨has, -, length, fits⟩ := Program.searchMethod_found search
      refine ⟨⟨has, fun isPrivate => ?_⟩, length, fits⟩
      simpa [isPrivate] using denied

theorem firstMethod_returns (h : ctx.firstMethod base name arguments = .ok m) :
    (∃ owner, ctx.headClass name base = .ok owner ∧ ctx.methodOf owner name arguments = .ok m) ∧
      (ctx.needsStatic base = true → m.isStatic = true) := by
  simp only [firstMethod, bind_eq_ok] at h
  obtain ⟨owner, inClass, found, method, h⟩ := h
  split_ifs at h with denied
  · cases h
  · simp only [pure_eq_ok] at h
    subst h
    refine ⟨⟨owner, inClass, method⟩, fun needs => ?_⟩
    simpa [needs] using denied

theorem nextMethod_returns {previous : Descriptor} (h : ctx.nextMethod previous name arguments = .ok m) :
    ∃ owner, previous.className? = some owner ∧ ctx.methodOf owner name arguments = .ok m := by
  simp only [nextMethod, bind_eq_ok] at h
  obtain ⟨owner, found, method⟩ := h
  refine ⟨owner, ?_, method⟩
  unfold receiverClass at found
  split at found
  next isClass => cases found; exact isClass
  next => cases found

def linkMethod (ctx : Context) (base : Option Referent) (previous : Option Descriptor) (name : String)
    (arguments : List Descriptor) : Except Cause MethodTarget :=
  match previous with
  | none => ctx.firstMethod base name arguments
  | some d => ctx.nextMethod d name arguments

theorem linkMethod_mayCall (h : ctx.linkMethod base previous name arguments = .ok m) :
    ctx.MayCall m ∧ m.params.length = arguments.length := by
  cases previous with
  | none =>
    obtain ⟨⟨owner, -, method⟩, -⟩ := firstMethod_returns h
    obtain ⟨may, length, -⟩ := methodOf_returns method
    exact ⟨may, length⟩
  | some d =>
    obtain ⟨owner, -, method⟩ := nextMethod_returns h
    obtain ⟨may, length, -⟩ := methodOf_returns method
    exact ⟨may, length⟩

end Context

theorem Call.methodsIn_cons {ctx : Context} {arguments : List Expr} {rest : List Call} :
    Call.methodsIn ctx base previous (.call name arguments :: rest) = .ok methods ↔
      ∃ types m others, Expr.typesIn ctx arguments = .ok types ∧
        ctx.linkMethod base previous name types = .ok m ∧
        Call.methodsIn ctx base (some m.returns) rest = .ok others ∧ methods = m :: others := by
  rw [Call.methodsIn]
  cases previous <;>
    simp only [bind_eq_ok, pure_eq_ok, Context.linkMethod, eq_comm (a := methods), exists_and_left]

theorem Call.mayCall_of_methodsIn {ctx : Context} {links : List Call}
    (h : Call.methodsIn ctx base previous links = .ok methods) : ∀ m ∈ methods, ctx.MayCall m := by
  induction links generalizing previous methods with
  | nil =>
    rw [Call.methodsIn] at h
    cases h
    simp
  | cons link rest ih =>
    obtain ⟨name, arguments⟩ := link
    obtain ⟨types, m, others, -, found, next, rfl⟩ := Call.methodsIn_cons.1 h
    exact List.forall_mem_cons.2 ⟨(Context.linkMethod_mayCall found).1, ih next⟩

end ClassForge
