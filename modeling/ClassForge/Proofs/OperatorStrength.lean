import ClassForge.Proofs.ExprReading

set_option autoImplicit false

namespace ClassForge

namespace Expr

def inOrder : Expr → List (Expr ⊕ BinaryOp)
  | .binary op left right false => left.inOrder ++ .inr op :: right.inOrder
  | tree => [.inl tree]

def sequence (operand : Expr) (steps : List (BinaryOp × Expr)) : List (Expr ⊕ BinaryOp) :=
  .inl operand :: steps.flatMap fun step => [.inr step.1, .inl step.2]

theorem alone_inOrder {tree : Expr} (alone : tree.root? = none) : tree.Ordered ∧ tree.inOrder = [.inl tree] := by
  rcases tree with ⟨arg, grouped⟩ | ⟨op, left, right, _ | _⟩
  · exact ⟨trivial, rfl⟩
  · cases alone
  · exact ⟨trivial, rfl⟩

theorem inOrder_eq_sequence (tree : Expr) : tree.inOrder = sequence tree.first tree.steps := by
  fun_induction inOrder tree with
  | case1 op left right ihl ihr => simp [first, steps, sequence, ihl, ihr]
  | case2 tree other =>
    rcases tree with ⟨arg, grouped⟩ | ⟨op, left, right, _ | _⟩
    · rfl
    · exact absurd rfl (other op left right)
    · rfl

theorem sequence_inj {operand operand' : Expr} {steps steps' : List (BinaryOp × Expr)}
    (same : sequence operand steps = sequence operand' steps') : operand = operand' ∧ steps = steps' := by
  induction steps generalizing operand operand' steps' with
  | nil => cases steps' <;> simp_all [sequence]
  | cons step steps ih =>
    cases steps' with
    | nil => simp [sequence] at same
    | cons step' steps' =>
      simp only [sequence, List.flatMap_cons, List.cons_append, List.nil_append, List.cons.injEq, Sum.inl.injEq,
        Sum.inr.injEq] at same
      obtain ⟨first, sameOp, sameOperand, rest⟩ := same
      obtain ⟨-, sameSteps⟩ := ih (congrArg₂ List.cons (congrArg Sum.inl sameOperand) rest)
      exact ⟨first, by rw [Prod.ext sameOp sameOperand, sameSteps]⟩

section Push

variable {tree rhs : Expr} {op : BinaryOp}

theorem inOrder_push (alone : rhs.root? = none) : (tree.push op rhs).inOrder = tree.inOrder ++ [.inr op, .inl rhs] := by
  fun_induction push tree op rhs with
  | case1 | case2 => simp [joinRight, inOrder, (alone_inOrder alone).2]
  | case3 own left right op rhs stronger ih => simp [inOrder, ih alone]
  | case4 => simp [joinRight, inOrder, (alone_inOrder alone).2]

-- An operator goes down the right side past weaker ones only, so the strength below each of them stays above its own.
theorem Ordered.push (ordered : tree.Ordered) (alone : rhs.root? = none) : (tree.push op rhs).Ordered := by
  have joined {tree : Expr} {op : BinaryOp} (ordered : tree.Ordered) (notWeaker : op.precedence ≤ tree.strength)
      {rhs : Expr} (alone : rhs.root? = none) : (joinRight tree op rhs).Ordered := by
    have weaker : op.precedence < rhs.strength := strength_of_root?_none alone ▸ precedence_lt op
    exact binary_iff.2 ⟨ordered, (alone_inOrder alone).1, notWeaker, weaker⟩
  fun_induction Expr.push tree op rhs with
  | case1 | case2 => exact joined ordered (precedence_lt _).le alone
  | case3 own left right op rhs stronger ih =>
    obtain ⟨orderedLeft, orderedRight, leftStrong, rightStrong⟩ := binary_iff.1 ordered
    exact binary_iff.2 ⟨orderedLeft, ih orderedRight alone, leftStrong, lt_strength_push rightStrong stronger rhs⟩
  | case4 own left right op rhs notStronger => exact joined ordered (Nat.not_lt.1 notStronger) alone

end Push

theorem pushAll_ordered {tree : Expr} {steps : List (BinaryOp × Expr)} (ordered : tree.Ordered)
    (alone : ∀ step ∈ steps, step.2.root? = none) :
    (tree.pushAll steps).Ordered ∧
      (tree.pushAll steps).inOrder = tree.inOrder ++ steps.flatMap fun step => [.inr step.1, .inl step.2] := by
  induction steps generalizing tree with
  | nil => simp [pushAll, ordered]
  | cons step steps ih =>
    obtain ⟨first, rest⟩ := List.forall_mem_cons.1 alone
    obtain ⟨orderedAll, inOrderAll⟩ := ih (ordered.push first) rest
    refine ⟨orderedAll, ?_⟩
    calc (pushAll tree (step :: steps)).inOrder = (tree.push step.1 step.2).inOrder ++ _ := inOrderAll
      _ = tree.inOrder ++ (step :: steps).flatMap _ := by simp [inOrder_push first]

-- Reads operators of at least the given strength: the right side of each takes all stronger ones that follow
-- it, then the next one has everything before it on its left.
def climb (least : Nat) (left : Expr) (steps : List (BinaryOp × Expr)) :
    Expr × { rest : List (BinaryOp × Expr) // rest.length ≤ steps.length } :=
  match steps with
  | [] => (left, ⟨[], Nat.le_refl _⟩)
  | (op, rhs) :: steps =>
    if op.precedence < least then (left, ⟨(op, rhs) :: steps, Nat.le_refl _⟩)
    else
      let (right, ⟨rest, fewer⟩) := climb (op.precedence + 1) rhs steps
      let (tree, ⟨rest', fewer'⟩) := climb least (.binary op left right false) rest
      (tree, ⟨rest', by rw [List.length_cons]; omega⟩)
termination_by steps.length

-- What the recursive call for a right side takes is stronger than the operator before it, so pushing it goes below
-- that operator; what it leaves is not, so it is joined above.
theorem climb_eq_pushAll (least : Nat) (left : Expr) (steps : List (BinaryOp × Expr))
    (notStronger : ∀ step ∈ steps.head?, step.1.precedence ≤ left.strength)
    (alone : ∀ step ∈ steps, step.2.root? = none) :
    ∃ taken, steps = taken ++ (climb least left steps).2.1 ∧ (climb least left steps).1 = left.pushAll taken ∧
      (∀ step ∈ taken, least ≤ step.1.precedence) ∧
      ∀ step ∈ (climb least left steps).2.1.head?, step.1.precedence < least := by
  fun_induction climb least left steps with
  | case1 => exact ⟨[], rfl, rfl, by simp, by simp⟩
  | case2 least left op rhs steps weaker => exact ⟨[], rfl, rfl, by simp, by simpa using weaker⟩
  | case3 least left op rhs steps notWeaker right rest fewer inner tree rest' fewer' outer ihInner ihOuter =>
    obtain ⟨rhsAlone, stepsAlone⟩ := List.forall_mem_cons.1 alone
    obtain ⟨taken, splits, built, strong, weak⟩ := ihInner
      (fun step _ => strength_of_root?_none rhsAlone ▸ (precedence_lt step.1).le) stepsAlone
    simp only [inner] at splits built weak
    subst splits built
    have nextWeak : ∀ step ∈ rest.head?, step.1.precedence ≤ op.precedence :=
      fun step member => Nat.lt_succ_iff.1 (weak step member)
    obtain ⟨more, splits', built', strong', weak'⟩ := ihOuter nextWeak
      fun step member => stepsAlone step (List.mem_append_right _ member)
    simp only [outer] at splits' built' weak'
    subst splits' built'
    have joined : left.push op rhs = .binary op left rhs false :=
      push_eq_joinRight (notStronger (op, rhs) rfl) rhs
    refine ⟨(op, rhs) :: (taken ++ more), by simp, ?_, ?_, weak'⟩
    · calc pushAll (.binary op left (rhs.pushAll taken) false) more
          = pushAll (pushAll (.binary op left rhs false) taken) more := by
            rw [pushAll_right fun step member => strong step member]
        _ = pushAll left ((op, rhs) :: (taken ++ more)) := by simp [pushAll, joined]
    · have least_le : least ≤ op.precedence := Nat.not_lt.1 notWeaker
      intro step member
      rcases List.mem_cons.1 member with rfl | later
      · exact least_le
      · rcases List.mem_append.1 later with inside | after
        · exact least_le.trans ((Nat.le_succ _).trans (strong step inside))
        · exact strong' step after

-- Joining operators with their operands one after the other gives the one ordered tree with these operands and
-- operators from left to right, which is also what precedence climbing gives.
theorem pushAll_unique (operand : Expr) (steps : List (BinaryOp × Expr)) (alone : operand.root? = none)
    (allAlone : ∀ step ∈ steps, step.2.root? = none) :
    (∀ tree : Expr, tree.inOrder = sequence operand steps ∧ tree.Ordered ↔ tree = operand.pushAll steps) ∧
      (climb 0 operand steps).1 = operand.pushAll steps ∧ (climb 0 operand steps).2.1 = [] := by
  obtain ⟨ordered, single⟩ := alone_inOrder alone
  constructor
  · intro tree
    constructor
    · rintro ⟨shown, treeOrdered⟩
      obtain ⟨rfl, rfl⟩ := sequence_inj ((inOrder_eq_sequence tree).symm.trans shown)
      exact treeOrdered.pushAll_steps.symm
    · rintro rfl
      obtain ⟨allOrdered, shown⟩ := pushAll_ordered ordered allAlone
      exact ⟨by rw [shown, single]; rfl, allOrdered⟩
  · obtain ⟨taken, splits, built, -, weak⟩ := climb_eq_pushAll 0 operand steps
      (fun step _ => strength_of_root?_none alone ▸ (precedence_lt step.1).le) allAlone
    have nothingLeft : (climb 0 operand steps).2.1 = [] := by
      cases left : (climb 0 operand steps).2.1 with
      | nil => rfl
      | cons step rest => exact absurd (weak step (by simp [left])) (Nat.not_lt_zero _)
    rw [nothingLeft, List.append_nil] at splits
    exact ⟨by rw [built, ← splits], nothingLeft⟩

theorem pushAll_unique_mixed :
    let name (id : String) := leaf (.atom (.load (.named id) []) none)
    let grouped : Expr := .binary .sub (name "c") (name "d") true
    let steps := [(BinaryOp.sub, name "b"), (.mul, grouped), (.sub, name "e"), (.or, name "f")]
    let first : Expr := .binary .sub (name "a") (.binary .mul (name "b") grouped false) false
    let read : Expr := .binary .or (.binary .sub first (name "e") false) (name "f") false
    (name "a").root? = none ∧ (∀ step ∈ steps, step.2.root? = none) ∧
      (∀ tree : Expr, tree.inOrder = sequence (name "a") steps ∧ tree.Ordered ↔ tree = read) ∧
      (climb 0 (name "a") steps).1 = read ∧ (climb 0 (name "a") steps).2.1 = [] := by
  intro name grouped steps first read
  have alone : ∀ step ∈ steps, step.2.root? = none := by simp [steps, name, grouped, leaf, root?]
  have built : (name "a").pushAll steps = read := rfl
  exact ⟨rfl, alone, built ▸ pushAll_unique (name "a") steps rfl alone⟩

end Expr

end ClassForge
