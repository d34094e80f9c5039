import ClassForge.ClassFile.Flags
import ClassForge.Proofs.Steps

set_option autoImplicit false

namespace ClassForge

namespace AccessFlags

@[simp]
theorem has_or (flags more bits : UInt16) : has (flags ||| more) bits = (has flags bits || has more bits) := by
  have split : (flags ||| more) &&& bits = flags &&& bits ||| more &&& bits := by
    apply UInt16.toBitVec_inj.1
    simp [BitVec.and_or_distrib_right]
  simp only [has, split, ne_eq, UInt16.or_eq_zero_iff, decide_not, Bool.decide_and, Bool.not_and]

theorem has_or_bits (flags bits more : UInt16) : has flags (bits ||| more) = (has flags bits || has flags more) := by
  have swap (a b : UInt16) : has a b = has b a := by simp [has, UInt16.and_comm]
  rw [swap, has_or, swap bits, swap more]

@[simp]
theorem has_bitsIf (m : Modifier) (flag : Flag) (bits tested : UInt16) :
    has (bitsIf m flag bits) tested = (m.has flag && has bits tested) := by
  unfold bitsIf
  cases m.has flag <;> simp [has]

theorem has_ofMember {bits : UInt16} (apart : has (isPublic ||| isPrivate ||| isProtected ||| isFinal |||
    isSynchronized) bits = false) (m : Modifier) :
    has (ofMember m) bits = (m.has .abstract && has isAbstract bits || m.has .static && has isStatic bits) := by
  simp only [has_or, Bool.or_eq_false_iff] at apart
  obtain ⟨⟨⟨⟨isPublic, isPrivate⟩, isProtected⟩, isFinal⟩, isSynchronized⟩ := apart
  have access : has (ofAccess m.access) bits = false := by
    cases m.access with
    | everyone => exact isPublic
    | declarer => exact isPrivate
    | family => exact isProtected
    | package => simp [has, ofAccess]
  simp [ofMember, access, isFinal, isSynchronized]

theorem isBodiless_ofMethod (m : Modifier) :
    has (ofMethod m) (isAbstract ||| isNative) = (m.has .abstract || m.has .native) := by
  have shared := @has_ofMember (isAbstract ||| isNative) (by decide) m
  simp only [ofMethod, has_or, has_bitsIf, shared]
  cases m.has .abstract <;> cases m.has .static <;> cases m.has .native <;> cases m.has .strict <;> decide

theorem isStatic_ofMethod (m : Modifier) : has (ofMethod m) isStatic = m.has .static := by
  simp only [ofMethod, has_or, has_bitsIf, @has_ofMember isStatic (by decide) m]
  cases m.has .abstract <;> cases m.has .static <;> cases m.has .native <;> cases m.has .strict <;> decide

theorem isStatic_ofField (m : Modifier) : has (ofField m) isStatic = m.has .static := by
  simp only [ofField, has_or, has_bitsIf, @has_ofMember isStatic (by decide) m]
  cases m.has .abstract <;> cases m.has .static <;> cases m.has .volatile <;> cases m.has .transient <;>
    decide

theorem isStatic_ofInterfaceMethod (m : Modifier) : has (ofInterfaceMethod m) isStatic = m.has .static := by
  have kept : ~~~(isPrivate ||| isProtected) &&& isStatic = isStatic := by decide
  have masked : has (ofMethod m &&& ~~~(isPrivate ||| isProtected)) isStatic = has (ofMethod m) isStatic := by
    simp only [has, UInt16.and_assoc, kept]
  have others : has isPublic isStatic = false ∧ has isAbstract isStatic = false := by decide
  simp [ofInterfaceMethod, masked, isStatic_ofMethod, others]

theorem isAbstract_ofInterfaceMethod (m : Modifier) : has (ofInterfaceMethod m) isAbstract = true := by
  have itself : has isAbstract isAbstract = true := by decide
  simp [ofInterfaceMethod, itself]

theorem isBodiless_ofInterfaceMethod (m : Modifier) : has (ofInterfaceMethod m) (isAbstract ||| isNative) = true := by
  rw [has_or_bits, isAbstract_ofInterfaceMethod, Bool.true_or]

theorem isInterface_ofClass (m : Modifier) (shape : Shape) :
    has (ofClass m shape) isInterface = true ↔ ∃ parents methods, shape = .interface parents methods := by
  unfold ofClass
  cases shape with
  | interface parents methods =>
    have itself : has isInterface isInterface = true := by decide
    simp [itself]
  | plainClass body =>
    have others : has isPublic isInterface = false ∧ has 0 isInterface = false ∧
        has isSuper isInterface = false ∧ has isFinal isInterface = false ∧
        has isAbstract isInterface = false := by decide
    split_ifs <;> simp [others]
  | enumeration values | record components => split_ifs <;> simp <;> decide

theorem isEnum_ofClass (m : Modifier) (values : List String) : has (ofClass m (.enumeration values)) isEnum = true := by
  have itself : has isEnum isEnum = true := by decide
  simp [ofClass, itself]

end AccessFlags

theorem Modifier.has_of_check_constructor {m : Modifier} (checked : m.check .constructor = .ok ())
    {flag : Flag} (other : flag ≠ .static) : m.has flag = false := by
  unfold check at checked
  split at checked
  next => cases checked
  next none =>
    have free := List.find?_eq_none.1 none flag (by cases flag <;> decide)
    simpa [Construct.forbids, other] using free

end ClassForge
