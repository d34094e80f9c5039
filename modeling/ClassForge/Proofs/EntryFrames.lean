import ClassForge.Proofs.StmtTyping

set_option autoImplicit false

namespace ClassForge

variable {start : Nat} {params : List Param} {bindings base : List Binding} {name : String} {b : Binding}
  {scope : Scope} {d : Descriptor}

namespace Slots

def typedRow (start : Nat) : List (Param × Descriptor) → List Binding
  | [] => []
  | (p, d) :: rest =>
    typedRow (start + p.type.slotWidth) rest ++
      [{ name := some p.name, offset := start, width := p.type.slotWidth
         descriptor := if p.name ∈ rest.map (·.1.name) then none else some d }]

-- Bindings with the names and slots of parameters, of which only those in sight may have types.
inductive Loose : Nat → List Param → List Binding → Prop
  | nil (start : Nat) : Loose start [] []
  | cons {start : Nat} {p : Param} {rest : List Param} {bindings : List Binding} {b : Binding}
      (others : Loose (start + p.type.slotWidth) rest bindings) (name : b.name = some p.name)
      (offset : b.offset = start) (width : b.width = p.type.slotWidth) (isFinal : b.isFinal = false)
      (hidden : p.name ∈ rest.map (·.name) → b.descriptor = none) : Loose start (p :: rest) (bindings ++ [b])

theorem loose_row (start : Nat) (params : List Param) :
    Loose start params (row start (params.map fun p => (p.name, p.type.slotWidth))) := by
  induction params generalizing start with
  | nil => exact .nil start
  | cons p rest ih => exact .cons (ih _) rfl rfl rfl rfl fun _ => rfl

theorem Loose.names (loose : Loose start params bindings) :
    (∃ b ∈ bindings, b.name = some name) ↔ name ∈ params.map (·.name) := by
  induction loose with
  | nil => simp
  | cons _ named _ _ _ _ ih =>
    simp only [List.mem_append, or_and_right, exists_or, ih, exists_eq_left, named, Option.some_inj,
      List.map_cons, List.mem_cons]
    tauto

theorem modifyLatest_append {f : Binding → Binding} {front back : List Binding} :
    modifyLatest name f (front ++ back) =
      if ∃ b ∈ front, b.name = some name then modifyLatest name f front ++ back
      else front ++ modifyLatest name f back := by
  induction front with
  | nil => simp
  | cons b rest ih =>
    by_cases here : b.name = some name
    · simp [modifyLatest, here]
    · simp only [List.cons_append, modifyLatest, here, if_false, ih, List.mem_cons, exists_eq_or_imp, false_or]
      split_ifs <;> rfl

theorem Loose.modifyLatest_append
    (loose : Loose start params bindings) (name : String) (f : Binding → Binding) (base : List Binding) :
    modifyLatest name f (bindings ++ base) =
      if name ∈ params.map (·.name) then modifyLatest name f bindings ++ base
      else bindings ++ modifyLatest name f base := by
  rw [Slots.modifyLatest_append]
  simp only [loose.names]

theorem Loose.modifyLatest (loose : Loose start params bindings) (d : Descriptor) :
    Loose start params (Slots.modifyLatest name (fun b => { b with descriptor := some d }) bindings) := by
  induction loose with
  | nil start => exact .nil start
  | cons others named offset width isFinal hidden ih =>
    rw [others.modifyLatest_append]
    split_ifs with later
    · exact .cons ih named offset width isFinal hidden
    · rw [Slots.modifyLatest]
      split_ifs with here
      · obtain rfl : _ = name := Option.some_inj.1 (named.symm.trans here)
        exact .cons others named offset width isFinal fun later' => absurd later' later
      · exact .cons others named offset width isFinal hidden

theorem Loose.setDescriptor {p : Param} {rest : List Param}
    {slots : Slots} (loose : Loose start (p :: rest) bindings) (same : slots.bindings = bindings ++ base)
    (d : Descriptor) :
    ∃ others, Loose (start + p.type.slotWidth) rest others ∧ (slots.setDescriptor p.name d).bindings =
      others ++ ([{ name := some p.name, offset := start, width := p.type.slotWidth
                    descriptor := if p.name ∈ rest.map (·.name) then none else some d }] ++ base) := by
  cases loose with
  | @cons _ _ _ bindings b others named offset width isFinal hidden =>
    obtain ⟨name, offset', width', descriptor, isFinal'⟩ := b
    subst named offset width isFinal
    have set := congrArg (Slots.modifyLatest p.name fun b => { b with descriptor := some d }) same
    rw [List.append_assoc, others.modifyLatest_append] at set
    by_cases later : p.name ∈ rest.map (·.name)
    · obtain rfl : descriptor = none := hidden later
      rw [if_pos later] at set ⊢
      exact ⟨_, others.modifyLatest d, set⟩
    · rw [if_neg later, List.singleton_append, Slots.modifyLatest, if_pos rfl] at set
      rw [if_neg later]
      exact ⟨bindings, others, set⟩

theorem foldlM_typedRow
    {slots later : Slots} (loose : Loose start params bindings) (same : slots.bindings = bindings ++ base)
    (h : params.foldlM (fun slots p => do
      return slots.setDescriptor p.name (← scope.descriptor p.type)) slots = .ok later) :
    ∃ types, params.mapM (fun p => scope.descriptor p.type) = .ok types ∧
      later.bindings = typedRow start (params.zip types) ++ base := by
  induction params generalizing slots start bindings base with
  | nil =>
    cases loose
    simp only [List.foldlM_nil, pure_eq_ok] at h
    exact ⟨[], rfl, h ▸ same⟩
  | cons p rest ih =>
    simp only [List.foldlM_cons, bind_eq_ok, pure_eq_ok] at h
    obtain ⟨_, ⟨d, typed, rfl⟩, h⟩ := h
    obtain ⟨others, loose, set⟩ := loose.setDescriptor same d
    obtain ⟨types, found, result⟩ := ih loose set h
    have pairs := mapM_eq_ok_iff.1 found
    have names : (rest.zip types).map (·.1.name) = rest.map (·.name) := by
      have firsts := List.map_fst_zip (Nat.le_of_eq pairs.length_eq)
      rw [← Function.comp_def (fun p : Param => p.name) Prod.fst, ← List.map_map, firsts]
    refine ⟨d :: types, mapM_eq_ok_iff.2 (.cons typed pairs), ?_⟩
    rw [result, List.zip_cons_cons, typedRow, names, List.append_assoc]

variable {isStatic : Bool} {start : Nat} {pairs : List (Param × Descriptor)}

def rowSize (pairs : List (Param × Descriptor)) : Nat :=
  (pairs.map (·.1.type.slotWidth)).sum

theorem slotWidth_pos (t : TypeName) : 0 < t.slotWidth := by
  unfold TypeName.slotWidth
  split_ifs <;> decide

theorem stack_typedRow (start : Nat) (pairs : List (Param × Descriptor)) :
    Stack start (typedRow start pairs) (start + rowSize pairs) := by
  induction pairs generalizing start with
  | nil => exact .nil
  | cons pair rest ih =>
    obtain ⟨p, d⟩ := pair
    have first : Stack start [{ name := some p.name, offset := start, width := p.type.slotWidth
                                descriptor := if p.name ∈ rest.map (·.1.name) then none else some d }]
        (start + p.type.slotWidth) := .cons .nil rfl (slotWidth_pos _)
    have size : start + rowSize ((p, d) :: rest) = start + p.type.slotWidth + rowSize rest := by
      simp [rowSize, Nat.add_assoc]
    rw [size]
    exact first.append (ih _)

theorem of_typedRow (member : b ∈ typedRow start pairs) (known : b.descriptor = some d) :
    ∃ before p after, pairs = before ++ (p, d) :: after ∧ b.name = some p.name ∧
      b.offset = start + rowSize before ∧ b.width = p.type.slotWidth := by
  induction pairs generalizing start with
  | nil => cases member
  | cons pair rest ih =>
    obtain ⟨p, e⟩ := pair
    rcases List.mem_append.1 member with later | own
    · obtain ⟨before, p', after, rfl, named, offset, width⟩ := ih later
      refine ⟨(p, e) :: before, p', after, rfl, named, ?_, width⟩
      simp [offset, rowSize, Nat.add_assoc]
    · rw [List.mem_singleton.1 own] at known ⊢
      dsimp only at known
      split_ifs at known
      cases known
      exact ⟨[], p, rest, rfl, rfl, rfl, rfl⟩

theorem names_typedRow : (∃ b ∈ typedRow start pairs, b.name = some name) ↔ name ∈ pairs.map (·.1.name) := by
  induction pairs generalizing start with
  | nil => simp [typedRow]
  | cons pair rest ih =>
    simp only [typedRow, List.mem_append, or_and_right, exists_or, ih, exists_eq_left, Option.some_inj,
      List.map_cons, List.mem_cons]
    tauto

theorem find_typedRow_none (absent : name ∉ pairs.map (·.1.name)) :
    (typedRow start pairs).find? (·.name = some name) = none :=
  List.find?_eq_none.2 fun b member same => absent (names_typedRow.1 ⟨b, member, of_decide_eq_true same⟩)

theorem find_typedRow (found : (typedRow start pairs ++ base).find? (·.name = some name) = some b) :
    b.descriptor.isSome = true ∨ base.find? (·.name = some name) = some b := by
  by_cases present : name ∈ pairs.map (·.1.name)
  · left
    induction pairs generalizing start base with
    | nil => cases present
    | cons pair rest ih =>
      obtain ⟨p, d⟩ := pair
      rw [typedRow, List.append_assoc] at found
      by_cases later : name ∈ rest.map (·.1.name)
      · exact ih found later
      · obtain rfl : name = p.name := (List.mem_cons.1 present).resolve_right later
        rw [List.find?_append, find_typedRow_none later, Option.none_or, if_neg later] at found
        simp only [List.singleton_append, List.find?_cons, decide_true, Option.some_inj] at found
        rw [← found]
        rfl
  · rw [List.find?_append, find_typedRow_none present, Option.none_or] at found
    exact .inr found

end Slots

def entryKinds (isStatic : Bool) (types : List Descriptor) : List Kind :=
  (if isStatic then [] else [.reference]) ++ types.map (·.kind)

theorem Locals.has_entry {start : Nat} {before : List Kind} {kind : Kind} {after : List Kind}
    (values : ∀ k ∈ before ++ kind :: after, 0 < k.width) :
    (entry start (before ++ kind :: after)).Has (start + Kind.widths before) kind := by
  induction before generalizing start with
  | nil => exact has_write _ _ _
  | cons first rest ih =>
    obtain ⟨positive, values⟩ := List.forall_mem_cons.1 values
    have has := @ih (start + first.width) values
    rw [Kind.widths_cons, ← Nat.add_assoc]
    exact has.write (.inr (Nat.le_add_right _ _)) (values kind (by simp)) positive

section Parameters

variable {site : Site} {params : List Param} {types : List Descriptor} {slots : Slots}

def Slots.receiver (isStatic : Bool) : List Binding :=
  if isStatic then [] else [{ name := some "this", offset := 0, width := 1 }]

def Slots.firstParam (isStatic : Bool) : Nat :=
  if isStatic then 0 else 1

theorem Scope.paramSlots_bindings {isStatic : Bool} (h : scope.paramSlots isStatic params = .ok slots) :
    ∃ types, params.mapM (fun p => scope.descriptor p.type) = .ok types ∧
      slots.bindings = Slots.typedRow (Slots.firstParam isStatic) (params.zip types) ++ Slots.receiver isStatic := by
  unfold paramSlots at h
  split at h
  next => simp at h
  next start made =>
    obtain ⟨rfl, -⟩ := Slots.ofMethod_returns made
    refine Slots.foldlM_typedRow (Slots.loose_row (Slots.firstParam isStatic) params) ?_ h
    cases isStatic
    · rfl
    · exact (List.append_nil _).symm

section Bindings

variable {isStatic : Bool} {pairs : List (Param × Descriptor)}
  (rows : slots.bindings = Slots.typedRow (Slots.firstParam isStatic) pairs ++ Slots.receiver isStatic)
include rows

-- A binding with a type is the binding of the parameter of that type.
theorem Slots.param_of_typed (member : b ∈ slots.bindings) (type : b.descriptor = some d) :
    ∃ before p after, pairs = before ++ (p, d) :: after ∧ b.name = some p.name ∧
      b.offset = firstParam isStatic + rowSize before ∧ b.width = p.type.slotWidth := by
  rw [rows] at member
  rcases List.mem_append.1 member with inRow | isReceiver
  · exact of_typedRow inRow type
  · cases isStatic
    · rw [List.mem_singleton.1 isReceiver] at type
      cases type
    · cases isReceiver

theorem Slots.isSome_of_lookup (apart : name ≠ "this") (found : slots.lookup? name = some b) :
    b.descriptor.isSome = true := by
  rw [lookup?, rows] at found
  refine (find_typedRow found).resolve_right fun isReceiver => ?_
  cases isStatic
  · have named := List.find?_some isReceiver
    rw [List.mem_singleton.1 (List.mem_of_find?_eq_some isReceiver)] at named
    exact apart (Option.some_inj.1 (of_decide_eq_true named)).symm
  · cases isReceiver

end Bindings

theorem Scope.pair_width (reviewed : site.IsReviewed) (value : ∀ p ∈ params, p.type.IsValued)
    (known : params.mapM (fun p => site.scope.descriptor p.type) = .ok types) {p : Param}
    (member : (p, d) ∈ params.zip types) : site.scope.descriptor p.type = .ok d ∧ d.kind.width = p.type.slotWidth := by
  have typed := List.forall₂_zip (mapM_eq_ok_iff.1 known) member
  exact ⟨typed, Scope.erase_width reviewed.bounded (value p (List.of_mem_zip member).1) typed⟩

theorem Slots.rowSize_widths {pairs : List (Param × Descriptor)}
    (each : ∀ pair ∈ pairs, pair.2.kind.width = pair.1.type.slotWidth) :
    rowSize pairs = Kind.widths (pairs.map (·.2.kind)) := by
  rw [rowSize, Kind.widths, List.map_map]
  exact congrArg List.sum (List.map_congr_left fun pair member => (each pair member).symm)

theorem Scope.paramSlots_isTyped (reviewed : site.IsReviewed) (value : ∀ p ∈ params, p.type.IsValued)
    (h : site.scope.paramSlots site.isStatic params = .ok slots) :
    ∃ types, params.mapM (fun p => site.scope.descriptor p.type) = .ok types ∧ slots.IsTyped site.isStatic ∧
      ∀ v ∈ site.vars slots, (Locals.entry 0 (entryKinds site.isStatic types)).Has v.1 v.2 := by
  obtain ⟨size, peak, small⟩ := Scope.paramSlots_size h
  obtain ⟨types, known, bindings⟩ := paramSlots_bindings h
  have each (p : Param) (d : Descriptor) (member : (p, d) ∈ params.zip types) :=
    pair_width reviewed value known member
  have length : params.length = types.length := (mapM_eq_ok_iff.1 known).length_eq
  have row : Slots.rowSize (params.zip types) = (params.map (·.type.slotWidth)).sum := by
    rw [Slots.rowSize, ← Function.comp_def (fun p : Param => p.type.slotWidth) Prod.fst, ← List.map_map,
      List.map_fst_zip (Nat.le_of_eq length)]
  have typed : slots.IsTyped site.isStatic := by
    refine ⟨?_, fun b member d type => ?_, fun name b apart found => ?_, fun isInstance =>
      ⟨?_, fun b member type => ?_⟩,
      by omega, by omega⟩
    · have base : Slots.Stack 0 (Slots.receiver site.isStatic) (Slots.firstParam site.isStatic) := by
        cases site.isStatic
        · exact .cons .nil rfl Nat.one_pos
        · exact .nil
      rw [bindings, size, entrySize, ← row]
      exact base.append (Slots.stack_typedRow _ _)
    · obtain ⟨before, p, after, split, -, -, width⟩ := Slots.param_of_typed bindings member type
      obtain ⟨found, same⟩ := each p d (by simp [split])
      exact ⟨width.trans same.symm, reviewed.descriptor found⟩
    · exact Slots.isSome_of_lookup bindings apart found
    · rw [size, entrySize, isInstance]
      exact Nat.lt_of_lt_of_le Nat.one_pos (Nat.le_add_right _ _)
    · obtain ⟨d, type⟩ := Option.isSome_iff_exists.1 type
      obtain ⟨before, p, after, -, -, offset, -⟩ := Slots.param_of_typed bindings member type
      rw [offset, isInstance]
      exact Nat.lt_of_lt_of_le Nat.one_pos (Nat.le_add_right _ _)
  refine ⟨types, known, typed, fun v among => ?_⟩
  have kinds : types.map (·.kind) = (params.zip types).map (·.2.kind) := by
    rw [← Function.comp_def (fun d : Descriptor => d.kind) Prod.snd, ← List.map_map,
      List.map_snd_zip (Nat.le_of_eq length.symm)]
  have values : ∀ kind ∈ entryKinds site.isStatic types, 0 < kind.width := by
    intro kind member
    rw [entryKinds, kinds] at member
    rcases List.mem_append.1 member with isReceiver | isParam
    · split_ifs at isReceiver
      · cases isReceiver
      · rw [List.mem_singleton.1 isReceiver]
        decide
    · obtain ⟨⟨p, d⟩, inside, rfl⟩ := List.mem_map.1 isParam
      exact (each p d inside).2 ▸ Slots.slotWidth_pos _
  rcases typed.of_vars among with ⟨rfl, isInstance⟩ | ⟨b, member, d, type, rfl, -⟩
  · rw [entryKinds, isInstance] at values ⊢
    exact @Locals.has_entry 0 [] .reference _ values
  · obtain ⟨before, p, after, split, -, offset, -⟩ := Slots.param_of_typed bindings member type
    have all : entryKinds site.isStatic types =
        ((if site.isStatic then [] else [.reference]) ++ before.map (·.2.kind)) ++ d.kind :: after.map (·.2.kind) := by
      rw [entryKinds, kinds, split, List.map_append, List.map_cons, List.append_assoc]
    have place : 0 + Kind.widths ((if site.isStatic then [] else [.reference]) ++ before.map (·.2.kind)) =
        b.offset := by
      rw [offset, Slots.rowSize_widths fun pair inside => (each pair.1 pair.2 (by simp [split, inside])).2,
        Kind.widths_append, Slots.firstParam]
      cases site.isStatic <;> simp [Kind.widths, Kind.width]
    rw [all] at values ⊢
    rw [← place]
    exact Locals.has_entry values

end Parameters

end ClassForge
