import ClassForge.Proofs.ExprTyping

set_option autoImplicit false

namespace ClassForge

namespace Descriptor

variable {d : Descriptor}

def IsVoidArray (d : Descriptor) : Prop :=
  ∃ n, d = ⟨Scope.brackets (n + 1) ++ "V"⟩

theorem Valued.mono {named named' : String → Prop} (weaker : ∀ name, named name → named' name)
    (valued : d.Valued named) : d.Valued named' := by
  induction valued with
  | ofPrimitive value => exact .ofPrimitive value
  | ofClass known => exact .ofClass (weaker _ known)
  | arrayOf _ ih => exact .arrayOf ih

end Descriptor

namespace Context

variable {ctx : Context}

end Context

end ClassForge
