import ClassForge.Proofs.Steps

set_option autoImplicit false

namespace ClassForge

variable {d : Descriptor}

namespace Descriptor

inductive Proper (named : String → Prop) : Descriptor → Prop
  | ofPrimitive (p : Primitive) : Proper named (ofPrimitive p)
  | ofClass {name : String} (known : named name) : Proper named (ofClass name)
  | arrayOf {d : Descriptor} (element : Proper named d) : Proper named d.arrayOf

variable {named : String → Prop}

@[simp]
theorem kind_ofClass (name : String) : (ofClass name).kind = .reference := by
  simp [kind, ofClass]

@[simp]
theorem kind_arrayOf (d : Descriptor) : d.arrayOf.kind = .reference := by
  simp [kind, arrayOf]

@[simp]
theorem kind_void : void.kind = .void := by
  decide

theorem Proper.kind_void (proper : Proper named d) (isVoid : d.kind = .void) : d = void := by
  cases proper with
  | ofPrimitive p => cases p <;> first | rfl | cases isVoid
  | ofClass | arrayOf => simp at isVoid

theorem brackets_succ (dims : Nat) (text : String) :
    Scope.brackets (dims + 1) ++ text = "[" ++ (Scope.brackets dims ++ text) := by
  apply String.toList_inj.1
  simp [Scope.brackets, List.replicate_succ]

theorem Proper.brackets (proper : Proper named d) (dims : Nat) : Proper named ⟨Scope.brackets dims ++ d.text⟩ := by
  induction dims with
  | zero => simpa [Scope.brackets] using proper
  | succ dims ih =>
    rw [brackets_succ]
    exact .arrayOf ih

end Descriptor

variable {t : TypeName}

namespace Scope

variable {scope : Scope} {named : String → Prop}

theorem resolve_known {ref : TypeRef} (h : scope.resolve t = .ok ref) :
    ref.dims = t.dims ∧
      match ref.base with
      | .primitive p => Primitive.ofKeyword? t.base = some p
      | .param _ bound =>
        Primitive.ofKeyword? t.base = none ∧ ∃ p, scope.typeParam? t.base = some p ∧ p.bounds.head? = bound
      | .named qualified =>
        Primitive.ofKeyword? t.base = none ∧ scope.typeParam? t.base = none ∧
          scope.decl.uses.find? t.base = some qualified := by
  unfold resolve at h
  split at h
  next found => cases h; exact ⟨rfl, found⟩
  next p free found => cases h; exact ⟨rfl, free, p, found, rfl⟩
  next free unbound used => cases h; exact ⟨rfl, free, unbound, used⟩
  next => cases h

-- Erasure without a limit: a type parameter goes on with its first bound.
inductive Erases (scope : Scope) : TypeName → Descriptor → Prop
  | primitive {t : TypeName} {dims : Nat} {p : Primitive}
      (resolved : scope.resolve t = .ok { dims, base := .primitive p }) :
      Erases scope t ⟨brackets dims ++ (Descriptor.ofPrimitive p).text⟩
  | named {t : TypeName} {dims : Nat} {qualified : String}
      (resolved : scope.resolve t = .ok { dims, base := .named qualified }) :
      Erases scope t ⟨brackets dims ++ (Descriptor.ofClass (scope.program.internalName qualified)).text⟩
  | unbounded {t : TypeName} {dims : Nat} {name : String}
      (resolved : scope.resolve t = .ok { dims, base := .param name none }) :
      Erases scope t ⟨brackets dims ++ Descriptor.object.text⟩
  | bounded {t bound : TypeName} {dims : Nat} {name : String} {d : Descriptor}
      (resolved : scope.resolve t = .ok { dims, base := .param name (some bound) })
      (rest : Erases scope bound d) : Erases scope t ⟨brackets dims ++ d.text⟩

theorem erases_of_erase {fuel : Nat} (h : scope.erase fuel t = .ok d) : scope.Erases t d := by
  induction fuel generalizing t d with
  | zero => cases h
  | succ fuel ih =>
    simp only [erase, bind_eq_ok] at h
    obtain ⟨⟨dims, base⟩, resolved, h⟩ := h
    split at h <;> rename_i same <;> cases same <;> simp only [bind_eq_ok, pure_eq_ok, exists_eq_left'] at h
    · exact h ▸ .primitive resolved
    · exact h ▸ .named resolved
    · exact h ▸ .unbounded resolved
    · obtain ⟨base, found, rfl⟩ := h
      exact .bounded resolved (ih found)

def UsesNamed (scope : Scope) (named : String → Prop) : Prop :=
  ∀ short qualified, scope.decl.uses.find? short = some qualified → named (scope.program.internalName qualified)

theorem erase_proper (root : named "java/lang/Object") (uses : scope.UsesNamed named) {fuel : Nat}
    (h : scope.erase fuel t = .ok d) : d.Proper named := by
  replace h := erases_of_erase h
  induction h with
  | primitive => exact .brackets (.ofPrimitive _) _
  | named resolved => exact .brackets (.ofClass (uses _ _ (resolve_known resolved).2.2.2)) _
  | unbounded => exact .brackets (.ofClass root) _
  | bounded _ _ ih => exact .brackets ih _

theorem width_pos (h : scope.descriptor t = .ok d) (value : d ≠ .void) : 0 < d.width := by
  have proper : d.Proper (fun _ => True) := erase_proper trivial (fun _ _ _ => trivial) h
  have notVoid : d.kind ≠ .void := fun isVoid => value (proper.kind_void isVoid)
  unfold Descriptor.width
  cases kind : d.kind with
  | void => exact absurd kind notVoid
  | _ => decide

end Scope

end ClassForge
