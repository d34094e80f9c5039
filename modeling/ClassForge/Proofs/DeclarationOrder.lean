import ClassForge.Proofs.AlikeSites
import ClassForge.Proofs.Faces

set_option autoImplicit false

namespace ClassForge

namespace Program

theorem find?_of_perm {p q : List Decl} (order : q.Perm p) (key : Decl → String) (distinct : (p.map key).Nodup)
    (name : String) : q.find? (key · = name) = p.find? (key · = name) := by
  have found {d : Decl} (h : q.find? (key · = name) = some d) : p.find? (key · = name) = some d := by
    have member := order.subset (List.mem_of_find?_eq_some h)
    have named : key d = name := by simpa using List.find?_some h
    cases other : p.find? (key · = name) with
    | none => exact absurd (List.find?_eq_none.1 other d member) (by simpa using named)
    | some e =>
      have same : key e = key d := by simpa [named] using List.find?_some other
      rw [List.inj_on_of_nodup_map distinct (List.mem_of_find?_eq_some other) member same]
  cases first : q.find? (key · = name) with
  | some d => exact (found first).symm
  | none =>
    refine (List.find?_eq_none.2 fun d member => ?_).symm
    exact List.find?_eq_none.1 first d (order.symm.subset member)

theorem Answers.of_perm {p q : Program} (order : q.Perm p) (keys : (p.map (·.qualified)).Nodup)
    (names : (p.map (·.internalName)).Nodup) : p.Answers q where
  find name := by
    unfold find?
    rw [find?_of_perm order (·.qualified) keys]
    cases List.find? _ p <;> constructor
    rfl
  internal name := by
    unfold findInternal?
    rw [find?_of_perm order (·.internalName) names]
    cases List.find? _ p <;> constructor
    rfl
  length := order.length_eq
  total weight := order.foldr_eq' (fun _ _ _ _ _ => by omega) 1

end Program

def Site.over (site : Site) (q : Program) : Site :=
  { site with scope := { site.scope with program := q } }

section Code

variable {site : Site} {q : Program} (alike : site.program.Answers q)
include alike

omit alike in
theorem Site.matches_self (site : Site) : site.Matches Eq id site :=
  ⟨fun _ => .refl _, rfl, rfl, fun _ _ => rfl⟩

theorem Site.matches_over : site.Matches Eq id (site.over q) where
  alike slots := @Context.alike_of ⟨site, slots⟩ q site.scope.decl alike (.refl _)
  returns := rfl
  isInitializer := rfl
  errors _ _ := rfl

theorem Stmt.lowerAll_over (stmts : List Stmt) : Stmt.lowerAll (site.over q) stmts = Stmt.lowerAll site stmts :=
  (Stmt.lowerAll_matches (site.over q).matches_self stmts).eq.trans
    (Stmt.lowerAll_matches (Site.matches_over alike) stmts).eq.symm

theorem Gen.superCall_over (superclass : String) (arguments : List Expr) :
    superCall (site.over q) superclass arguments = superCall site superclass arguments :=
  (superCall_matches (site.over q).matches_self superclass arguments).symm.trans
    (superCall_matches (Site.matches_over alike) superclass arguments)

theorem Field.lowerInits_over (fields : List Field) :
    Field.lowerInits (site.over q) fields = Field.lowerInits site fields :=
  (lowerInits_matches (site.over q).matches_self fields).eq.trans
    (lowerInits_matches (Site.matches_over alike) fields).eq.symm

end Code

namespace Program.Answers

open Assembly

variable {p q : Program} (alike : p.Answers q) (d : Decl) (options : Options)
include alike

theorem methodCode (m : Method) : q.methodCode d m = p.methodCode d m := by
  have lowered (returns : Descriptor) :=
    @Stmt.lowerAll_over ⟨⟨p, d, m.typeParams⟩, m.modifier.has .static, false, returns⟩ q alike
  simp only [Site.over] at lowered
  simp only [Program.methodCode, alike.paramSlots (.refl d), alike.resultDescriptor (.refl d), lowered]

theorem constructorCode (c : Constructor) (superclass : String) :
    q.constructorCode d c superclass = p.constructorCode d c superclass := by
  have lowered := @Stmt.lowerAll_over ⟨⟨p, d, []⟩, false, true, .void⟩ q alike
  have called := @Gen.superCall_over ⟨⟨p, d, []⟩, false, true, .void⟩ q alike
  have set := @Field.lowerInits_over ⟨⟨p, d, []⟩, false, true, .void⟩ q alike
  simp only [Site.over] at lowered called set
  simp only [Program.constructorCode, scopeOf, alike.paramSlots (.refl d), alike.className (.refl d), lowered,
    called, set]

theorem staticInitCode : q.staticInitCode d = p.staticInitCode d := by
  have set := @Field.lowerInits_over ⟨⟨p, d, []⟩, true, true, .void⟩ q alike
  simp only [Site.over] at set
  simp only [Program.staticInitCode, scopeOf, set]

theorem contents : Target.contents ⟨q, d, options⟩ = Target.contents ⟨p, d, options⟩ := by
  have scope : Target.scope ⟨q, d, options⟩ = ⟨q, d, []⟩ := rfl
  have scope' : Target.scope ⟨p, d, options⟩ = ⟨p, d, []⟩ := rfl
  have check {α : Type} (x : Except Cause α) : Target.check ⟨q, d, options⟩ x = Target.check ⟨p, d, options⟩ x := rfl
  have checkAt {α : Type} (line : Nat) (x : Except Cause α) :
      Target.checkAt ⟨q, d, options⟩ line x = Target.checkAt ⟨p, d, options⟩ line x := rfl
  have members {α β : Type} (line : α → Nat) (step : α → Build β) (items : List α) :
      Target.members ⟨q, d, options⟩ line step items = Target.members ⟨p, d, options⟩ line step items := rfl
  have field : Target.field ⟨q, d, options⟩ = Target.field ⟨p, d, options⟩ :=
    funext fun f => by simp only [Target.field, scope, scope', checkAt, alike.descriptor (.refl d),
      alike.fieldSignature (.refl d)]
  have constructor : Target.constructor ⟨q, d, options⟩ = Target.constructor ⟨p, d, options⟩ := funext fun c => by
    simp only [Target.constructor, scope, scope', checkAt, alike.methodDescriptor (.refl d),
      alike.methodSignature (.refl d), alike.constructorCode]
  have method : Target.method ⟨q, d, options⟩ = Target.method ⟨p, d, options⟩ := funext fun m => funext fun flags => by
    simp only [Target.method, scope, scope', checkAt, alike.methodDescriptor (.refl d), alike.methodSignature
      (.refl d), alike.methodCode]
  have names : Scope.internalName ⟨q, d, []⟩ = Scope.internalName ⟨p, d, []⟩ := funext (alike.className (.refl d) [])
  unfold Target.contents
  cases d.shape with
  | plainClass body =>
    simp only [Target.classContents, Target.staticInit, Target.self, scope, scope', check, members, names, field,
      constructor, method, alike.classSignature (.refl d), alike.staticInitCode]
  | interface parents methods =>
    simp only [Target.interfaceContents, Target.self, scope, scope', check, members, names, method,
      alike.classSignature (.refl d)]
  | enumeration values =>
    rfl
  | record components =>
    have component : Record.component ⟨q, d, options⟩ = Record.component ⟨p, d, options⟩ :=
      funext fun f => by simp only [Record.component, scope, scope', checkAt, alike.descriptor (.refl d),
        alike.fieldSignature (.refl d)]
    have store (slot : Nat) (parts : List Record.Component) :
        Record.store ⟨q, d, options⟩ slot parts = Record.store ⟨p, d, options⟩ slot parts := by
      induction parts generalizing slot with
      | nil => rfl
      | cons part rest ih => simp only [Record.store, Target.self, ih]
    simp only [Record.contents, Record.constructorCode, Record.accessor, Record.accessorCode, Target.self,
      scope, scope',
      check, component, store, alike.classSignature (.refl d)]

end Program.Answers

theorem Program.assemble_of_perm {program other : Program} (order : other.Perm program)
    (keys : (program.map (·.qualified)).Nodup) (names : (program.map (·.internalName)).Nodup) (options : Options)
    (d : Decl) : other.assemble options d = program.assemble options d := by
  have contents := (Answers.of_perm order keys names).contents d options
  simp only [assemble, Assembly.Target.build, contents]
  rfl

theorem Program.assemble_of_perm_reversed : ∃ program,
    Program.ofSource ⟨"F.k"⟩ ("\n".intercalate [
      "class A \x7b", "int x = 1", "int get() \x7b", "return x", "\x7d", "\x7d",
      "class B extends A \x7b", "int twice() \x7b", "return get() + x", "\x7d", "\x7d",
      "class C \x7b", "int sum(B b) \x7b", "return b.twice() + b.x", "\x7d", "\x7d"]) = .ok program ∧
      program.map (·.name) = ["A", "B", "C"] ∧
      ∀ d ∈ program, (program.assemble {} d).isOk = true ∧
        assemble program.reverse {} d = program.assemble {} d := by
  generalize written : "\n".intercalate _ = source
  have run : (Program.ofSource ⟨"F.k"⟩ source).toOption.map (fun program => (program.map (·.name),
      program.map (·.qualified), program.map (·.internalName), program.map fun d => (program.assemble {} d).isOk)) =
      some (["A", "B", "C"], ["F.A", "F.B", "F.C"], ["F/A", "F/B", "F/C"], [true, true, true]) := by
    rw [← written]
    decide +kernel
  simp only [Option.map_eq_some_iff, toOption_eq_some, Prod.mk.injEq] at run
  obtain ⟨program, accepted, named, keys, names, made⟩ := run
  refine ⟨program, accepted, named, fun d member => ⟨?_, ?_⟩⟩
  · have present := List.mem_map_of_mem (f := fun d => (program.assemble {} d).isOk) member
    rw [made] at present
    simpa using present
  · exact assemble_of_perm (List.reverse_perm program) (keys ▸ by decide) (names ▸ by decide) {} d

end ClassForge
