import ClassForge.Proofs.SideBySide
import ClassForge.Proofs.MemberGrowth

set_option autoImplicit false

namespace ClassForge

namespace Gen

variable {α β ε : Type} {pair : Pairing} {scope : List (Label × Label)} {live mid last : Nat → Prop} {opcode : Opcode}
  {m : Meaning} {use : UInt16 → Emit Unit}

-- From workspaces that have come equally far, both steps give the same and come equally far again. They know
-- the labels in scope. Where control may have left by a label that is live, it may then by one of the others.
def Repeats (pair : Pairing) (scope : List (Label × Label)) (live last : Nat → Prop)
    (x x' : EStateM ε Workspace α) : Prop :=
  ∀ ⦃s : Script⦄ ⦃w w' : Workspace⦄ ⦃a a' : α⦄ ⦃v v' : Workspace⦄, pair.Abreast s w w' →
    (∀ t ∈ scope, ∃ k < s.labels, t = pair.label k) → x w = .ok a v → x' w' = .ok a' v' →
    a' = a ∧ ∃ s', pair.Abreast s' v v' ∧ s.labels ≤ s'.labels ∧ (s.Steady live → s'.Steady last)

abbrev Twice (pair : Pairing) (scope : List (Label × Label)) (live : Nat → Prop) (x : EStateM ε Workspace α) : Prop :=
  Repeats pair scope live live x x

theorem repeats_pure (a : α) : Twice pair scope live (pure a : EStateM ε Workspace α) := by
  intro s w w' _ _ v v' abreast _ h h'
  obtain ⟨rfl, rfl⟩ := pure_returns.1 h
  obtain ⟨rfl, rfl⟩ := pure_returns.1 h'
  exact ⟨rfl, s, abreast, Nat.le_refl _, id⟩

theorem repeats_throw (error : ε) {x' : EStateM ε Workspace α} : Repeats pair scope live last (throw error) x' := by
  intro s w w' _ _ v v' _ _ h
  exact (throw_returns.1 h).elim

theorem repeats_bind_of {x x' : EStateM ε Workspace α} {f f' : α → EStateM ε Workspace β}
    (first : Repeats pair scope live mid x x')
    (second : ∀ w a v, x w = .ok a v → Repeats pair scope mid last (f a) (f' a)) :
    Repeats pair scope live last (x >>= f) (x' >>= f') := by
  intro s w w' b b' v v' abreast known h h'
  obtain ⟨a, _, run, h⟩ := bind_returns.1 h
  obtain ⟨a', _, run', h'⟩ := bind_returns.1 h'
  obtain ⟨rfl, s₁, abreast, more, steady⟩ := first abreast known run run'
  obtain ⟨same, s₂, abreast, more', steady'⟩ := second w a' _ run abreast
    (fun t member => (known t member).imp fun k ⟨old, tied⟩ => ⟨Nat.lt_of_lt_of_le old more, tied⟩) h h'
  exact ⟨same, s₂, abreast, Nat.le_trans more more', steady' ∘ steady⟩

theorem repeats_bind {x x' : EStateM ε Workspace α} {f f' : α → EStateM ε Workspace β}
    (first : Repeats pair scope live mid x x') (second : ∀ a, Repeats pair scope mid last (f a) (f' a)) :
    Repeats pair scope live last (x >>= f) (x' >>= f') :=
  repeats_bind_of first fun _ a _ _ => second a

theorem Repeats.mono {x x' : EStateM ε Workspace α} {more : List (Label × Label)} {less : Nat → Prop}
    (repeats : Repeats pair scope live last x x') (sub : scope ⊆ more) (weaker : ∀ k, less k → live k) :
    Repeats pair more less last x x' := by
  intro s w w' a a' v v' abreast known h h'
  obtain ⟨same, s', abreast, more, steady⟩ := repeats abreast (fun t member => known t (sub member)) h h'
  exact ⟨same, s', abreast, more, fun before => steady (before.mono weaker)⟩

theorem repeats_check {result : Except Cause α} {f f' : α → Gen β}
    (next : ∀ a, result = .ok a → Repeats pair scope live last (f a) (f' a)) :
    Repeats pair scope live last (check result >>= f) (check result >>= f') := by
  cases result with
  | ok a => exact next a rfl
  | error cause => exact repeats_throw cause

theorem repeats_ite {p : Prop} [Decidable p] {x x' y y' : EStateM ε Workspace α}
    (yes : p → Repeats pair scope live last x x') (no : ¬ p → Repeats pair scope live last y y') :
    Repeats pair scope live last (if p then x else y) (if p then x' else y') := by
  by_cases h : p
  · simpa only [if_pos h] using yes h
  · simpa only [if_neg h] using no h

section Items

theorem repeats_written {s : Script} {w w' : Workspace} {item item' : Item} {c c' : CodeBuffer}
    {pops pops' pushes pushes' : Nat} (abreast : pair.Abreast s w w')
    (written : CodeBuffer.Written item pops pushes w.code c)
    (written' : CodeBuffer.Written item' pops' pushes' w'.code c')
    (means : item.Means pair.first.labels.size w.pool m) (means' : item'.Means pair.second.labels.size w'.pool m)
    (formed : item.WellFormed) (formed' : item'.WellFormed) (known : ∀ k, m.label? = some k → k < s.labels ∧ live k) :
    ∃ s', pair.Abreast s' { w with code := c } { w' with code := c' } ∧ s.labels ≤ s'.labels ∧
      (s.Steady live → s'.Steady live) := by
  obtain ⟨agree, ⟨_, first⟩, _, second⟩ := abreast
  have old (k : Nat) (target : m.label? = some k) := (known k target).1
  exact ⟨s.write m, ⟨agree, first.written written means formed old, second.written written' means' formed' old⟩,
    (s.labels_write m).ge, fun steady => steady.write fun k target => (known k target).2⟩

theorem repeats_alone {step : Emit α} {operands : List UInt8} {result : α}
    (puts : step.Puts (.plain opcode operands) result) (isAlone : opcode.isAlone = true) :
    Twice pair scope live (emit step) := by
  intro s w w' a a' v v' abreast _ h h'
  obtain ⟨c, run, rfl⟩ := emit_returns.1 h
  obtain ⟨c', run', rfl⟩ := emit_returns.1 h'
  obtain ⟨rfl, _, _, written⟩ := puts.returns _ _ _ run
  obtain ⟨rfl, _, _, written'⟩ := puts.returns _ _ _ run'
  exact ⟨rfl, repeats_written abreast written written' (.alone operands isAlone) (.alone operands isAlone)
    puts.formed puts.formed (by simp [Meaning.label?])⟩

theorem repeats_op (bare : opcode.isBare = true) (notThrow : opcode ≠ .athrow) : Twice pair scope live (op opcode) := by
  have alone := (Opcode.alone_or_refers _).1 bare notThrow
  simp only [Opcode.isBare, Bool.and_eq_true, decide_eq_true_eq] at bare
  exact repeats_alone (Emit.puts_op bare.2) alone

theorem repeats_smallInt (value : Int) : Twice pair scope live (emit (.smallInt value)) := by
  by_cases small : -32768 ≤ value ∧ value ≤ 32767
  · obtain ⟨opcode, operands, same, family, -⟩ := Item.smallInt_plain value
    refine repeats_alone (same ▸ Emit.puts_smallInt small) ?_
    fin_cases family <;> rfl
  · intro s w w' a a' v v' abreast _ h h'
    obtain ⟨c, run, rfl⟩ := emit_returns.1 h
    obtain ⟨c', run', rfl⟩ := emit_returns.1 h'
    obtain ⟨rfl, rfl, -⟩ := (Emit.smallInt_returns run).resolve_right fun written => small written.2.1
    obtain ⟨rfl, rfl, -⟩ := (Emit.smallInt_returns run').resolve_right fun written => small written.2.1
    exact ⟨rfl, s, abreast, Nat.le_refl _, id⟩

theorem repeats_load (kind : Kind) (slot : Nat) : Twice pair scope live (emit (.load kind slot)) := by
  obtain ⟨opcode, operands, same, isAlone⟩ : ∃ opcode operands,
      Item.load kind slot = .plain opcode operands ∧ opcode.isAlone = true := by
    unfold Item.load Item.access
    split_ifs with short byte
    · refine ⟨_, _, rfl, ?_⟩
      cases kind <;> interval_cases slot <;> rfl
    · refine ⟨_, _, rfl, ?_⟩
      cases kind <;> rfl
    · exact ⟨_, _, rfl, rfl⟩
  exact repeats_alone (same ▸ Emit.puts_load kind slot) isAlone

theorem repeats_pooled (request : PoolRequest) {item : UInt16 → Item}
    (puts : ∀ index, (use index).Puts (item index) ()) (free : m.label? = none)
    (means : ∀ base pool index, request.StandsAt pool index → (item index).Means base pool m) :
    Twice pair scope live (do emit (use (← pooled request.step))) := by
  intro s w w' _ _ v v' abreast _ h h'
  obtain ⟨agree, ⟨_, first⟩, _, second⟩ := abreast
  simp only [bind_returns, pooled_returns, emit_returns] at h h'
  obtain ⟨index, _, ⟨pool, asked, rfl⟩, c, run, rfl⟩ := h
  obtain ⟨index', _, ⟨pool', asked', rfl⟩, c', run', rfl⟩ := h'
  obtain ⟨valid, grown, stands⟩ := PoolRequest.step_returns first.valid asked
  obtain ⟨valid', grown', stands'⟩ := PoolRequest.step_returns second.valid asked'
  obtain ⟨-, _, _, written⟩ := (puts _).returns _ _ _ run
  obtain ⟨-, _, _, written'⟩ := (puts _).returns _ _ _ run'
  exact ⟨rfl, repeats_written ⟨agree, ⟨_, first.pooled valid grown⟩, _, second.pooled valid' grown'⟩ written written'
    (means _ _ _ stands) (means _ _ _ stands') (puts _).formed (puts _).formed (by simp [free])⟩

theorem repeats_constant (request : PoolRequest) (width : Nat) :
    Twice pair scope live (do emit (.constant (← pooled request.step) width)) :=
  repeats_pooled request (fun _ => Emit.puts_constant) rfl fun _ _ _ stands => .constant width stands

theorem repeats_reference (request : PoolRequest) (refers : opcode.refers = true)
    (puts : ∀ index, (use index).Puts (.plain opcode (Bytes.u2 index)) ()) :
    Twice pair scope live (do emit (use (← pooled request.step))) := by
  refine repeats_pooled (m := .reference opcode request []) request puts rfl fun _ _ index stands => ?_
  simpa using Item.Means.reference [] refers stands

theorem repeats_class (name : String) (refers : opcode.refers = true)
    (length : Instruction.operandLength? 0 opcode [] = some 2) :
    Twice pair scope live (do emit (.opWord opcode (← pooled (.classRef name)))) :=
  repeats_reference (.classRef name) refers fun _ =>
    Emit.puts_fixed length (Item.endsPath_of_goesOn ((Opcode.alone_or_refers _).2 refers))

theorem repeats_field (owner name descriptor : String) (width : Nat)
    (isAccess : opcode ∈ [Opcode.getstatic, .putstatic, .getfield, .putfield]) :
    Twice pair scope live (do emit (.field opcode (← pooled (.fieldRef owner name descriptor)) width)) :=
  repeats_reference (.fieldRef owner name descriptor) (by fin_cases isAccess <;> rfl) fun _ => Emit.puts_field isAccess

theorem repeats_call (request : PoolRequest) (args returns : Nat)
    (isCall : opcode ∈ [Opcode.invokevirtual, .invokespecial, .invokestatic, .invokeinterface]) :
    Twice pair scope live (do emit (.invoke opcode (← pooled request.step) args returns)) := by
  refine repeats_pooled request (fun _ => Emit.puts_invoke isCall) rfl fun _ _ index stands => .reference _ ?_ stands
  fin_cases isCall <;> rfl

theorem repeats_jump (branch : opcode.isBranch = true) {label label' : Label} (known : (label, label') ∈ scope)
    (isLive : ∀ k, (label, label') = pair.label k → live k) :
    Repeats pair scope live live (emit (.jump opcode label)) (emit (.jump opcode label')) := by
  intro s w w' _ _ v v' abreast old h h'
  obtain ⟨k, below, tied⟩ := old _ known
  cases tied
  obtain ⟨c, run, rfl⟩ := emit_returns.1 h
  obtain ⟨c', run', rfl⟩ := emit_returns.1 h'
  obtain ⟨_, _, -, written⟩ := Emit.jump_returns run
  obtain ⟨_, _, -, written'⟩ := Emit.jump_returns run'
  exact ⟨rfl, repeats_written abreast written written' (.jump k branch) (.jump k branch) branch branch
    (by rintro _ ⟨⟩; exact ⟨below, isLive k rfl⟩)⟩

theorem repeats_invoke (m : MethodTarget) : Twice pair scope live (invoke m) := by
  have isCall := m.isCall_invokeOpcode
  unfold invoke
  split_ifs
  · exact repeats_call (.interfaceMethodRef m.owner m.name m.descriptor.text) _ _ isCall
  · exact repeats_call (.methodRef m.owner m.name m.descriptor.text) _ _ isCall

end Items

section Labels

theorem repeats_newLabel {f f' : Label → Gen β}
    (each : ∀ k, Repeats pair (pair.label k :: scope) live last (f (pair.label k).1) (f' (pair.label k).2)) :
    Repeats pair scope live last (emit .newLabel >>= f) (emit .newLabel >>= f') := by
  intro s w w' b b' v v' abreast known h h'
  obtain ⟨agree, ⟨_, first⟩, _, second⟩ := abreast
  obtain ⟨label, _, made, h⟩ := bind_returns.1 h
  obtain ⟨label', _, made', h'⟩ := bind_returns.1 h'
  obtain ⟨rfl, rfl⟩ := newLabel_run made
  obtain ⟨rfl, rfl⟩ := newLabel_run made'
  rw [first.size] at h
  rw [second.size] at h'
  have abreast : pair.Abreast s.withLabel { w with code := w.code.withLabel } { w' with code := w'.code.withLabel } :=
    ⟨agree, ⟨_, first.withLabel⟩, _, second.withLabel⟩
  obtain ⟨same, s', abreast, more, steady⟩ := each s.labels abreast
    (List.forall_mem_cons.2 ⟨⟨s.labels, Nat.lt_succ_self _, rfl⟩, fun t member =>
      (known t member).imp fun k ⟨old, tied⟩ => ⟨Nat.lt_succ_of_lt old, tied⟩⟩) h h'
  exact ⟨same, s', abreast, Nat.le_of_succ_le more, steady⟩

theorem repeats_place {k : Nat} (known : pair.label k ∈ scope) :
    Repeats pair scope (fun i => i = k ∨ live i) live (emit (.place (pair.label k).1))
      (emit (.place (pair.label k).2)) := by
  intro s w w' _ _ v v' abreast old h h'
  obtain ⟨agree, ⟨_, first⟩, _, second⟩ := abreast
  obtain ⟨n, below, tied⟩ := old _ known
  obtain rfl : k = n := by simpa [Pairing.label] using tied
  obtain rfl := place_run h
  obtain rfl := place_run h'
  exact ⟨rfl, s.place k, ⟨agree, ⟨_, first.place below⟩, _, second.place below⟩, Nat.le_refl _, .place⟩

theorem repeats_condition {jump : Bool → Label → Gen Unit}
    (each : ∀ expected label label' (live : Nat → Prop), (∀ k, (label, label') = pair.label k → live k) →
      Repeats pair [(label, label')] live live (jump expected label) (jump expected label')) :
    Twice pair scope live (condition jump) := by
  refine repeats_newLabel fun k => repeats_newLabel fun n => ?_
  refine Repeats.mono ?_ (List.Subset.refl _) fun i known => (.inr (.inr known) : i = k ∨ i = n ∨ live i)
  refine repeats_bind ((each false _ _ _ ?_).mono (by simp) fun _ => id) fun _ => ?_
  · exact fun i same => .inl (by simpa [Pairing.label, eq_comm] using same)
  refine repeats_bind (repeats_op rfl (by decide)) fun _ => repeats_bind (repeats_jump rfl (by simp) ?_) fun _ => ?_
  · exact fun i same => .inr (.inl (by simpa [Pairing.label, eq_comm] using same))
  refine repeats_bind (repeats_place (by simp)) fun _ => repeats_bind (repeats_op rfl (by decide)) fun _ => ?_
  exact repeats_bind (repeats_place (by simp)) fun _ => repeats_pure _

end Labels

theorem Composed.repeats {ctx : Context} {targets : List (Label × Label)} {names : List String} {does : α → Prop}
    {x x' : Gen α} (composed : Composed ctx targets names does x x') (isLive : ∀ k, pair.label k ∈ targets → live k) :
    Repeats pair targets live live x x' := by
  induction composed generalizing live with
  | done => exact repeats_pure _
  | failed cause => exact repeats_throw cause
  | after first _ repeats second =>
    exact repeats_bind_of (repeats isLive) fun _ a _ run => second a (first.returns run) isLive
  | checked _ second => exact repeats_check fun a known => second a known isLive
  | more _ known _ _ inner => exact (inner fun k member => isLive k (known member)).mono known fun _ => id
  | leaf leaf =>
    cases leaf with
    | op quiet =>
      obtain ⟨bare, notThrow⟩ := Opcode.bare_of_isQuiet quiet
      exact repeats_op bare notThrow
    | smallInt value => exact repeats_smallInt value
    | newArray code => exact repeats_alone (Emit.puts_fixed rfl rfl) rfl
    | own | bound => exact repeats_load _ _
    | constant request _ width => exact repeats_constant request width
    | ofClass family name => fin_cases family <;> exact repeats_class name rfl rfl
    | @new owner => exact repeats_class owner rfl rfl
    | read _ reads =>
      subst reads
      exact repeats_field _ _ _ _ (by split_ifs <;> simp)
    | @call m => exact repeats_invoke m
    | _ => exact repeats_call (.methodRef _ _ _) _ _ (by simp)
  | jump branch label label' => exact repeats_jump branch (by simp) fun k same => isLive k (by simp [same])
  | condition _ each =>
    refine repeats_condition fun expected label label' live known => each expected label label' fun k member => ?_
    exact known k (by simpa [eq_comm] using member)
  | skip _ each =>
    refine repeats_newLabel fun k => Repeats.mono ?_ (List.Subset.refl _) fun i known => (.inr known : i = k ∨ live i)
    refine repeats_bind (each _ _ fun i member => ?_) fun _ => repeats_place (by simp)
    exact (List.mem_cons.1 member).imp (fun same => by simpa [Pairing.label] using same) (isLive i)

end Gen

end ClassForge
