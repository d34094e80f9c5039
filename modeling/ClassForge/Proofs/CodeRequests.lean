import ClassForge.Proofs.NameUses
import ClassForge.Proofs.Requests

set_option autoImplicit false

namespace ClassForge

-- Requests that code may make: all that name no member, and those for members that it finds.
structure Program.Allows (program : Program) (asks : PoolRequest → Prop) : Prop where
  free : ∀ request, request.named? = none → asks request
  field : ∀ field, program.HasField field → asks (.fieldRef field.owner field.name field.descriptor.text)
  method : ∀ m, program.HasMethod m →
    asks (if m.onInterface then .interfaceMethodRef m.owner m.name m.descriptor.text
      else .methodRef m.owner m.name m.descriptor.text)
  constructor : ∀ owner types params instantiates,
    program.constructorFor owner types instantiates = .ok params → (∀ d ∈ types, d.IsSane) →
      asks (.methodRef owner constructorName (MethodDescriptor.of params .void).text)
  append : ∀ d argument, Gen.appendType d = .ok argument →
    asks (.methodRef Gen.builder "append" (MethodDescriptor.of [argument] (.ofClass Gen.builder)).text)
  build : asks (.methodRef Gen.builder constructorName (MethodDescriptor.of [] .void).text)
  text : asks (.methodRef Gen.builder "toString" (MethodDescriptor.of [] .string).text)

namespace Gen

variable {program : Program} {asks : PoolRequest → Prop}

theorem asks_free (allows : program.Allows asks) (request : PoolRequest) (free : request.named? = none) :
    Asks asks (pooled request.step) :=
  asks_pooled request (allows.free request free)

theorem asks_constant (allows : program.Allows asks) (request : PoolRequest) (free : request.named? = none)
    (width : Nat) : Asks asks (do emit (.constant (← pooled request.step) width)) :=
  moves_bind (asks_free allows request free) fun _ => asks_emit _

theorem asks_pushInt (allows : program.Allows asks) (value : Int) : Asks asks (pushInt value) := by
  refine asks_then fun short => ?_
  cases short with
  | true => exact moves_pure ()
  | false => exact asks_constant allows (.integer (Int32.ofInt value)) rfl 1

theorem asks_invokeMethod {owner name : String} {params : List Descriptor} {returns : Descriptor}
    (allowed : asks (.methodRef owner name (MethodDescriptor.of params returns).text)) (opcode : Opcode) :
    Asks asks (invokeMethod opcode owner name params returns) :=
  asks_refer (.methodRef owner name _) allowed fun _ => asks_emit _

theorem asks_access (allows : program.Allows asks) {field : FieldTarget} (has : program.HasField field)
    (opcode : Opcode) : Asks asks (place.access opcode field) :=
  asks_refer (.fieldRef field.owner field.name field.descriptor.text) (allows.field field has) fun _ => asks_emit _

theorem asks_invoke (allows : program.Allows asks) {m : MethodTarget} (has : program.HasMethod m) :
    Asks asks (invoke m) := by
  have allowed := allows.method m has
  unfold invoke
  refine moves_bind ?_ fun _ => asks_emit _
  split_ifs at allowed ⊢
  · exact asks_pooled (.interfaceMethodRef m.owner m.name m.descriptor.text) allowed
  · exact asks_pooled (.methodRef m.owner m.name m.descriptor.text) allowed

end Gen

theorem Site.asks_tracks (site : Site) {asks : PoolRequest → Prop} (allows : site.program.Allows asks)
    (reviewed : site.IsReviewed) : site.Tracks Slots.IsSane fun _ => Workspace.Asked asks where
  same pool _ := by
    rw [Workspace.Asked, pool]
    exact Std.Refl.refl _
  trans := IsTrans.trans _ _ _
  among _ := id
  emit _ := Gen.asks_emit _
  leaf slots leaf := by
    cases leaf with
    | constant request free width => exact Gen.asks_constant allows request free width
    | ofClass family name => exact moves_bind (Gen.asks_free allows (.classRef name) rfl) fun _ => Gen.asks_emit _
    | @new owner can => exact moves_bind (Gen.asks_free allows (.classRef owner) rfl) fun _ => Gen.asks_emit _
    | read use => exact Gen.asks_access allows use.has _
    | call may => exact Gen.asks_invoke allows may.has
    | construct typed found =>
      exact Gen.asks_invokeMethod (allows.constructor _ _ _ _ found (Expr.typesIn_sane reviewed slots typed)) _
    | build => exact Gen.asks_invokeMethod allows.build _
    | append typed => exact Gen.asks_invokeMethod (allows.append _ _ typed) _
    | text => exact Gen.asks_invokeMethod allows.text _
    | _ => exact Gen.asks_emit _
  put use := Gen.asks_access allows use.has _
  bind _ sane _ typed _ _ := by
    refine List.forall_mem_cons.2 ⟨?_, sane⟩
    rintro _ ⟨⟩
    exact reviewed.descriptor typed
  free sane bindings _ := by rwa [Slots.IsSane, bindings]

section Members

variable {program : Program} {d : Decl} {asks : PoolRequest → Prop} (allows : program.Allows asks)
include allows

theorem Gen.asks_finish (maxLocals : Nat) : Gen.Asks asks (Gen.finish maxLocals) := by
  refine moves_get fun w => ?_
  dsimp only
  split
  · exact moves_throw _
  · exact moves_bind (asks_free allows (.utf8 "Code") rfl) fun _ => moves_pure _

theorem Ending.asked {w : Workspace} {code : CodeAttribute} {later : ConstantPool} (ending : Ending w code later) :
    w.pool.Asked asks later := by
  obtain ⟨w₁, w₂, ret, finish, rfl⟩ := ending.run
  have first : Workspace.Asked asks w w₁ := Gen.asks_emit _ _ _ _ ret
  exact IsTrans.trans _ _ _ first (Gen.asks_finish allows _ _ _ _ finish)

namespace Program

theorem methodCode_asks {m : Method} (reviewed : ∀ returns, (program.methodSite d m returns).IsReviewed) :
    Build.Asks asks (program.methodCode d m) := by
  intro pool code later h
  obtain ⟨_, statements, slots, returns, w, -, -, taken, -, lowered, -, ending⟩ := methodCode_run h
  have tracks := Site.asks_tracks (program.methodSite d m returns) allows (reviewed returns)
  have sane := Scope.paramSlots_sane (reviewed returns).uses taken
  obtain ⟨-, -, asked⟩ := tracks.lowerAll statements _ _ _ lowered sane
  exact IsTrans.trans pool w.pool later asked (ending.asked allows)

section Fields

variable (own : ∀ f ∈ d.fields, ∀ type, (program.scopeOf d).descriptor f.type = .ok type →
  asks (.fieldRef d.internalName f.name type.text))
include own

theorem constructorCode_asks {c : Constructor} {defaultSuperclass : String}
    (reviewed : (program.constructorSite d).IsReviewed) :
    Build.Asks asks (program.constructorCode d c defaultSuperclass) := by
  intro pool code later h
  obtain ⟨body, slots, statements, superclass, w1, w2, w3, shape, taken, -, run1, run2, run3, ending⟩ :=
    constructorCode_run h
  have tracks := Site.asks_tracks (program.constructorSite d) allows reviewed
  have sane := Scope.paramSlots_sane reviewed.uses taken
  obtain ⟨sane, -, called⟩ := tracks.superCall rfl superclass _ _ _ _ run1 sane
  obtain ⟨sane, -, set⟩ := tracks.lowerInits (fun _ _ _ => rfl) (fun f member type typed opcode _ =>
    Gen.asks_refer (.fieldRef _ _ _) (own f (by
      rw [Decl.fields, shape]
      exact List.mem_of_mem_filter member) type typed) fun _ => Gen.asks_emit _) _ _ _ run2 sane
  obtain ⟨-, -, last⟩ := tracks.lowerAll statements _ _ _ run3 sane
  have whole : Workspace.Asked asks { pool, slots } w3 := IsTrans.trans _ _ _ (IsTrans.trans _ _ _ called set) last
  exact IsTrans.trans pool w3.pool later whole (ending.asked allows)

theorem staticInitCode_asks (reviewed : (program.staticInitSite d).IsReviewed) :
    Build.Asks asks (program.staticInitCode d) := by
  intro pool code? later h
  cases code? with
  | none =>
    obtain rfl := staticInitCode_none h
    exact Std.Refl.refl _
  | some code =>
    obtain ⟨body, w, shape, run, ending⟩ := staticInitCode_run h
    have tracks := Site.asks_tracks (program.staticInitSite d) allows reviewed
    have statics (f : Field) (member : f ∈ d.fields.filter fun f => f.modifier.has .static && f.init.isSome)
        (isInstance : f.modifier.has .static = false) : (program.staticInitSite d).isStatic = false := by
      have isStatic := (List.mem_filter.1 member).2
      simp [isInstance] at isStatic
    obtain ⟨-, -, set⟩ := tracks.lowerInits statics (fun f member type typed opcode _ =>
      Gen.asks_refer (.fieldRef _ _ _) (own f (List.mem_of_mem_filter member) type typed) fun _ => Gen.asks_emit _)
      _ _ _ run fun _ member => absurd member List.not_mem_nil
    exact IsTrans.trans pool w.pool later set (ending.asked allows)

end Fields

end Program

end Members

end ClassForge
