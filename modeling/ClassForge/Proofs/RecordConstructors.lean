import ClassForge.Proofs.Sizes

set_option autoImplicit false

namespace ClassForge

namespace Assembly

namespace Record

variable {t : Target} {cs : List Component} {pool : ConstantPool} {indices : List UInt16}

theorem fits_storing {slot : Nat} (valued : ∀ c ∈ cs, c.type.kind ≠ .void)
    (small : slot + Descriptor.totalWidth (cs.map (·.type)) ≤ 65535) :
    ∀ operation ∈ storing t slot cs, operation.Fits := by
  induction cs generalizing slot with
  | nil => simp [storing]
  | cons c rest ih =>
    obtain ⟨first, valued⟩ := List.forall_mem_cons.1 valued
    simp only [List.map_cons, Descriptor.totalWidth, List.foldr_cons] at small ih
    have others := @ih (slot + c.type.width) valued (by omega)
    simpa [storing, Operation.Fits, first] using ⟨by omega, others⟩

theorem width_le_two (d : Descriptor) : d.width ≤ 2 := by
  unfold Descriptor.width
  cases d.kind <;> decide

theorem peakFrom_le {floor : Nat} (low : floor ≤ 3) (cs : List Component) : peakFrom floor cs ≤ 3 := by
  induction cs generalizing floor with
  | nil => exact low
  | cons c rest ih =>
    have := width_le_two c.type
    exact @ih (max floor (1 + c.type.width)) (by omega)

theorem names_of_refs
    (refs : List.Forall₂ (fun c index => pool.RefersTo .fieldRef index t.self c.name c.type.text) cs indices) :
    ∃ names, List.Forall₂ (fun name index => pool.utf8? index = some name) (cs.map (·.name)) names := by
  induction refs with
  | nil => exact ⟨[], .nil⟩
  | cons ref _ ih =>
    obtain ⟨_, _, _, name, _, -, -, -, -, spelled, -⟩ := ConstantPool.memberRef?_eq_some_iff.1 ref.2
    obtain ⟨names, others⟩ := ih
    exact ⟨name :: names, .cons spelled others⟩

theorem length_le_pool
    (distinct : (cs.map (·.name)).Nodup) (refs : List.Forall₂ (fun c index =>
      pool.RefersTo .fieldRef index t.self c.name c.type.text) cs indices) :
    2 * cs.length ≤ pool.slots.size := by
  obtain ⟨names, spelled⟩ := names_of_refs refs
  have refer : List.Forall₂ (fun name index => (pool.memberRef? index).map (·.2.1) = some name)
      (cs.map (·.name)) indices := by
    rw [List.forall₂_map_left_iff]
    exact refs.imp fun c index ref => by rw [ref.2]; rfl
  have isRef : ∀ index ∈ indices, ∃ owner member, pool.get? index = some (.fieldRef owner member) := by
    intro index member
    obtain ⟨c, -, ref⟩ := exists_left_of_forall₂ refs member
    exact ref.1
  have isText : ∀ index ∈ names, ∃ text, pool.get? index = some (.utf8 text) := by
    intro index member
    obtain ⟨name, -, found⟩ := exists_left_of_forall₂ spelled member
    exact ⟨name, ConstantPool.utf8?_eq_some_iff.1 found⟩
  have apart : (indices ++ names).Nodup := by
    refine List.nodup_append.2 ⟨ConstantPool.nodup_of_named distinct refer,
      ConstantPool.nodup_of_named distinct spelled, fun index first other second same => ?_⟩
    obtain ⟨_, _, found⟩ := isRef index first
    obtain ⟨_, found'⟩ := isText other second
    rw [← same, found] at found'
    cases found'
  have few := ConstantPool.length_indices_le apart fun index member => by
    rcases List.mem_append.1 member with first | second
    · obtain ⟨owner, name, found⟩ := isRef index first
      exact ⟨_, found⟩
    · obtain ⟨text, found⟩ := isText index second
      exact ⟨_, found⟩
  rw [List.length_append, ← refs.length_eq, ← spelled.length_eq, List.length_map] at few
  omega

theorem store_take (slot count : Nat) (cs : List Component) :
    store t slot cs = (do let next ← store t slot (cs.take count); store t next (cs.drop count)) := by
  induction cs generalizing slot count with
  | nil => simp [store]
  | cons c rest ih =>
    cases count with
    | zero => simp [store]
    | succ count =>
      rw [store, ih _ count]
      simp [store]

-- The class up to where the first `count` components are stored; the answer is the slot after them.
def slotAfter (t : Target) (fields : List Field) (count : Nat) : Build Nat := do
  let _ ← Build.header t.self "java/lang/Object" []
  let generic ← t.check (t.scope.classSignature none [])
  let _ ← Build.signature t.options generic
  let components ← fields.mapM (component t)
  Gen.run do
    Gen.emit (.load .reference 0)
    let init ← Gen.pooled (.methodRef "java/lang/Object" constructorName noArguments.text)
    Gen.emit (.invoke .invokespecial init 0 0)
    store t 1 ((components.map (·.1)).take count)

theorem slotAfter_le {fields : List Field} {count slot : Nat} {later : ConstantPool}
    (shape : t.decl.shape = .record fields) (distinct : (fields.map (·.name)).Nodup)
    (h : slotAfter t fields count {} = .ok slot later) : slot ≤ 65535 := by
  simp only [slotAfter, Target.check, bind_returns, Build.check_returns, located_eq_ok, Gen.run, Lower.run_returns,
    Gen.unlocated_returns, Gen.pooled_returns] at h
  obtain ⟨_, p₁, run₁, _, _, ⟨-, rfl⟩, _, p₂, run₂, made, p₃, run₃, w, ⟨_, w₁, load, init, _, ⟨p₄, added, rfl⟩, _, w₂,
    call, stored⟩, rfl⟩ := h
  obtain ⟨valid₁, -⟩ := header_makes _ _ _ _ _ _ ConstantPool.valid_empty run₁
  obtain ⟨valid₂, -⟩ := Build.signature_makes _ _ _ _ _ valid₁ run₂
  obtain ⟨valid₃, -, known⟩ := Build.makes_mapM (fun f _ => component_makes f) _ _ _ valid₂ run₃
  replace known := known p₃ (.refl _)
  have declares := ComponentOf.declares known
  obtain ⟨spells, rfl, indices, refs⟩ := store_spells shape
    (fun c member => declares c (List.mem_of_mem_take member)) (opening_spells valid₃ load added call) stored
  have names : (made.map (·.1)).map (·.name) = fields.map (·.name) := by
    rw [List.map_map]
    exact map_eq_map_of_forall₂ (known.imp fun _ _ known => known.1)
  have apart : (((made.map (·.1)).take count).map (·.name)).Nodup := by
    rw [List.map_take, names]
    exact distinct.sublist (List.take_sublist _ _)
  have few := length_le_pool apart refs
  have room := spells.valid.room
  have widths := totalWidth_le (((made.map (·.1)).take count).map (·.type))
  rw [List.length_map] at widths
  omega

theorem constructor_stores {components : List Field} (shape : t.decl.shape = .record components)
    (distinct : (components.map (·.name)).Nodup)
    (valued : ∀ f ∈ components, ∀ type, t.scope.descriptor f.type = .ok type → type.kind ≠ .void) :
    (∀ file, t.program.assemble t.options t.decl = .ok file →
      ∃ (parts : List Component) (init : MethodInfo) (accessors : List MethodInfo) (code : CodeAttribute),
        List.Forall₂ (fun f c => c.name = f.name ∧ t.scope.descriptor f.type = .ok c.type) components parts ∧
        file.methods = init :: accessors ∧ file.pool.utf8? init.name = some "<init>" ∧
        file.pool.utf8? init.descriptor = some ("(" ++ String.join (parts.map (·.type.text)) ++ ")V") ∧
        init.code = some code ∧ code.Reads file.pool (constructing t parts) ∧
        code.maxLocals.toNat = 1 + Descriptor.totalWidth (parts.map (·.type)) ∧
        code.maxStack.toNat = (parts.map (1 + ·.type.width)).foldl max 1) ∧
    (∀ count slot pool, slotAfter t components count {} = .ok slot pool → slot ≤ 65535) ∧
    ∀ first count parts, store t first parts = (do
      let next ← store t first (parts.take count)
      store t next (parts.drop count)) := by
  refine ⟨fun file assembled => ?_, fun count slot pool => slotAfter_le shape distinct, store_take⟩
  obtain ⟨-, -, -, holds⟩ := Program.assemble_holds assembled
  generalize file.fields = fields at holds
  generalize file.methods = methods at holds ⊢
  cases holds with
  | plainClass shape' | interface shape' | enumeration shape' => cases shape.symm.trans shape'
  | @record _ _ init accessors parts shape' _ typed made =>
    cases shape.symm.trans shape'
    obtain ⟨code, built, -, entry⟩ := made
    obtain ⟨before, mid, valid, run, grown⟩ := built.made
    have declares : ∀ c ∈ parts, Declares t components c := by
      intro c member
      obtain ⟨f, among, known⟩ := exists_left_of_forall₂ typed member
      exact ⟨f, among, known⟩
    obtain ⟨-, -, locals, -, spelled⟩ := constructorCode_spells shape declares valid run
    have fits : ∀ operation ∈ storing t 1 parts, operation.Fits := by
      refine fits_storing (fun c member => ?_) ?_
      · obtain ⟨f, among, -, known⟩ := exists_left_of_forall₂ typed member
        exact valued f among c.type known
      · have := code.maxLocals.toNat_lt
        omega
    refine ⟨parts, init, accessors, code, typed, rfl, entry.named, ?_, entry.code, ?_, locals, ?_⟩
    · rw [entry.typed]
      simp [MethodDescriptor.of, Descriptor.void, Function.comp_def, String.append_assoc]
    · refine spelled.reads _ grown ?_
      simpa [constructing, Operation.Fits, or_imp, forall_and] using fits
    · have low := peakFrom_le (by decide : 1 ≤ 3) parts
      rw [spelled.deepest, UInt16.toNat_ofNat_of_lt' (by simp only [UInt16.size]; omega)]
      rfl

theorem constructor_stores_two :
    let x : Field := ⟨"x", .plain "int", {}, 1, none⟩
    let y : Field := ⟨"y", .plain "long", {}, 1, none⟩
    let t : Target := ⟨[], ⟨⟨"P", "P", "P", none, {}, [], [], [], ⟨"P.ktj"⟩, 1⟩, .record [x, y]⟩, {}⟩
    ∃ file, t.program.assemble t.options t.decl = .ok file ∧ ∃ init ∈ file.methods, ∃ code,
      file.pool.utf8? init.descriptor = some "(IJ)V" ∧ init.code = some code ∧ code.maxLocals.toNat = 4 ∧
      code.Reads file.pool [.load .reference 0, .special "java/lang/Object" "<init>" "()V",
        .load .reference 0, .load .int 1, .access .putfield "P" "x" "I",
        .load .reference 0, .load .long 2, .access .putfield "P" "y" "J", .leave] := by
  intro x y t
  have done : (t.program.assemble t.options t.decl).isOk = true := by decide +kernel
  have int : t.scope.descriptor (.plain "int") = .ok .int := by decide +kernel
  have long : t.scope.descriptor (.plain "long") = .ok .long := by decide +kernel
  have valued : ∀ f ∈ [x, y], ∀ type, t.scope.descriptor f.type = .ok type → type.kind ≠ .void := by
    intro f member type known
    rcases List.mem_pair.1 member with rfl | rfl
    · rw [← Except.ok.inj (int.symm.trans known)]
      decide
    · rw [← Except.ok.inj (long.symm.trans known)]
      decide
  cases made : t.program.assemble t.options t.decl with
  | error error => simp [made, Except.isOk, Except.toBool] at done
  | ok file =>
    obtain ⟨parts, init, accessors, code, typed, methods, -, descriptor, coded, reads, locals, -⟩ :=
      (@constructor_stores t [x, y] rfl (by decide) valued).1 file made
    obtain ⟨c, rest, ⟨first, known⟩, others, rfl⟩ := List.forall₂_cons_left_iff.1 typed
    obtain ⟨c', rest, ⟨second, known'⟩, none, rfl⟩ := List.forall₂_cons_left_iff.1 others
    obtain rfl := List.forall₂_nil_left_iff.1 none
    obtain ⟨name, type, generic⟩ := c
    obtain ⟨name', type', generic'⟩ := c'
    cases first
    cases second
    cases int.symm.trans known
    cases long.symm.trans known'
    have superType : noArguments.text = "()V" := by decide +kernel
    have total : Descriptor.totalWidth [.int, .long] = 3 := by decide +kernel
    simp only [constructing, storing, superType, List.cons_append, List.nil_append] at reads
    replace locals := locals.trans (congrArg (1 + ·) total)
    exact ⟨file, rfl, init, by simp [methods], code, descriptor, coded, locals, reads⟩

end Record

end Assembly

end ClassForge
