import ClassForge.Proofs.DeclarationHeads

set_option autoImplicit false

namespace ClassForge

open Text (SourcePath)

structure Decl.Sound (d : Decl) : Prop where
  word : IsWord d.name
  fields : (d.fields.map (·.name)).Nodup
  methods : ∀ m ∈ d.methods, IsWord m.name ∧ (m.params.map (·.name)).Nodup
  constructors : ∀ body, d.shape = .plainClass body →
    ∀ c ∈ body.constructors, c.modifier.check .constructor = .ok () ∧ (c.params.map (·.name)).Nodup
  components : ∀ fields, d.shape = .record fields → ∀ f ∈ fields, IsWord f.name ∧ f.modifier.has .static = false
  typed : ∀ body, d.shape = .plainClass body → ∀ f ∈ body.fields, f.type ≠ .plain "void"

structure Members.Sound (path : SourcePath) (ms : Members) : Prop where
  fields : (ms.fields.map (·.name)).Nodup
  methods : ∀ m ∈ ms.methods, (Member.method m).IsChecked
  constructors : ∀ c ∈ ms.constructors, (Member.constructor c).IsChecked
  nested : ∀ d ∈ ms.nested, d.path = path ∧ d.Sound
  distinct : (ms.nested.map (·.name)).Nodup
  typed : ∀ f ∈ ms.fields, f.type ≠ .plain "void"

theorem Members.Sound.empty {path : SourcePath} : Members.Sound path {} :=
  ⟨.nil, by simp, by simp, by simp, .nil, by simp⟩

def Shape.Encloses : Shape → Prop
  | .interface _ _ | .plainClass _ => True
  | .enumeration _ | .record _ => False

structure Outline.Sound (outline : Outline) : Prop where
  top : outline.top.Sound
  outermost : outline.top.outer = none
  nested : ∀ d ∈ outline.nested, d.Sound
  distinct : (outline.nested.map (·.name)).Nodup
  encloses : ∀ d ∈ outline.nested, outline.top.shape.Encloses

def Outline.InFile (path : SourcePath) (outline : Outline) : Prop :=
  outline.top.path = path ∧ ∀ d ∈ outline.nested, d.path = path

section Moves

variable (f : Nat → Nat)

def Members.moved (ms : Members) : Members :=
  { fields := ms.fields.map (Field.moved f)
    constructors := ms.constructors.map (Constructor.moved f)
    methods := ms.methods.map (Method.moved f)
    nested := ms.nested.map (Decl.moved f) }

def Outline.moved (outline : Outline) : Outline :=
  { top := outline.top.moved f, nested := outline.nested.map (Decl.moved f) }

def Report.moved (report : Report) : Report :=
  { report with lastLine := f report.lastLine, pinned := report.pinned.map f }

theorem Report.location_moved (report : Report) (line : Nat) :
    (report.moved f).location (f line) = (report.location line).moved f := by
  cases pinned : report.pinned <;> simp [Report.location, Report.moved, Location.moved, pinned]

end Moves

theorem Alike.locatedAt {α β : Type} {R : α → β → Prop} {f : Nat → Nat} {x : Except Cause α} {y : Except Cause β}
    (alike : Alike Cause.Same R x y) (location : Location) :
    Alike (CompileError.MovedAt f location.path) R (ClassForge.located location x)
      (ClassForge.located (location.moved f) y) :=
  alike.located location.line

variable {lines : List TokenLine} {outlines : List Outline}

section Bodies

variable (f : Nat → Nat)

theorem movedAt_at {c : Cause} (location : Location) :
    CompileError.MovedAt f location.path { cause := c, location := some location }
      { cause := c, location := some (location.moved f) } :=
  movedAt_error location.line (Cause.Same.refl c)

theorem Member.withBody_moved (member : Member) (body : List TokenLine) :
    (member.withBody body).moved f = (member.moved f).withBody (body.map (TokenLine.moved f)) := by
  cases member <;> rfl

theorem Member.isChecked_withBody {member : Member} {body : List TokenLine} (checked : member.IsChecked) :
    (member.withBody body).IsChecked := by
  cases member <;> exact checked

theorem isClosingBrace_moved (line : TokenLine) : (line.moved f).isClosingBrace = line.isClosingBrace := by
  obtain ⟨number, tokens⟩ := line
  match tokens with
  | [] => rfl
  | [t] => rfl
  | t :: u :: rest => rfl

theorem collectBody_moved (start : Location) (depth : Int) (done : List TokenLine) (room : Nat)
    (lines : List TokenLine) :
    Alike (CompileError.MovedAt f start.path)
      (fun x y => y = (x.1.map (TokenLine.moved f), x.2.map (TokenLine.moved f)))
      (collectBody start.path start depth done room lines)
      (collectBody start.path (start.moved f) depth (done.map (TokenLine.moved f)) room
        (lines.map (TokenLine.moved f))) := by
  induction lines generalizing depth done room with
  | nil => exact .error (movedAt_at f start)
  | cons line rest ih =>
    rw [List.map_cons]
    unfold collectBody
    refine .ite (by rw [isClosingBrace_moved]) (fun _ => .ok ?_) fun _ => ?_
    · rw [List.map_reverse]
    · rw [show Grammar.braceBalance (line.moved f).tokens = Grammar.braceBalance line.tokens from
        Grammar.braceBalance_bare line.tokens]
      refine .ite Iff.rfl (fun _ => .error (movedAt_at f { path := start.path, line := line.number })) fun _ => ?_
      cases room with
      | zero => exact .error (movedAt_at f start)
      | succ room => exact ih _ (line :: done) room

theorem collectBody_subset {path : SourcePath} {start : Location} {depth : Int}
    {done body rest : List TokenLine} {room : Nat}
    (h : collectBody path start depth done room lines = .ok (body, rest)) : rest ⊆ lines := by
  fun_induction collectBody path start depth done room lines with
  | case1 => cases h
  | case2 =>
    cases h
    exact List.subset_cons_self _ _
  | case3 | case4 => cases h
  | case5 depth done line lines _ _ _ _ ih => exact List.subset_cons_of_subset line (ih h)

end Bodies

namespace Members

variable (f : Nat → Nat) {path : SourcePath} {ms : Members}

def TakesIn (add : Members → Member → Except Cause Members) : Prop :=
  ∀ {path ms member}, Members.Sound path ms → member.IsChecked →
    Alike Cause.Same (fun a b => b = a.moved f ∧ a.Sound path) (add ms member) (add (ms.moved f) (member.moved f))

theorem addField_moved {field : Field} (sound : ms.Sound path) (checked : (Member.field field).IsChecked) :
    Alike Cause.Same (fun a b => b = a.moved f ∧ a.Sound path) (ms.addField field)
      ((ms.moved f).addField (field.moved f)) := by
  refine .ite ?_ (fun _ => .error rfl) fun new =>
    .ok ⟨by simp [Members.moved], { sound with fields := ?_, typed := ?_ }⟩
  · rw [Members.moved, List.any_map]
    rfl
  · exact nodup_names_append sound.fields new
  · exact List.forall_mem_append.2 ⟨sound.typed, List.forall_mem_singleton.2 checked⟩

theorem addMethod_moved {method : Method} (sound : ms.Sound path) (checked : (Member.method method).IsChecked) :
    Alike Cause.Same (fun a b => b = a.moved f ∧ a.Sound path) (ms.addMethod method)
      ((ms.moved f).addMethod (method.moved f)) := by
  refine .ite ?_ (fun _ => .error rfl) fun _ => .ok ⟨by simp [Members.moved], { sound with methods := ?_ }⟩
  · rw [Members.moved, List.any_map]
    rfl
  · exact List.forall_mem_append.2 ⟨sound.methods, List.forall_mem_singleton.2 checked⟩

theorem addConstructor_moved {constructor : Constructor} (sound : ms.Sound path)
    (checked : (Member.constructor constructor).IsChecked) :
    Alike Cause.Same (fun a b => b = a.moved f ∧ a.Sound path) (ms.addConstructor constructor)
      ((ms.moved f).addConstructor (constructor.moved f)) := by
  refine .ite ?_ (fun _ => .error rfl) fun _ => .ok ⟨by simp [Members.moved], { sound with constructors := ?_ }⟩
  · rw [Members.moved, List.any_map]
    rfl
  · exact List.forall_mem_append.2 ⟨sound.constructors, List.forall_mem_singleton.2 checked⟩

theorem addNested_moved {d : Decl} (sound : ms.Sound path) (known : d.path = path ∧ d.Sound) :
    Alike Cause.Same (fun a b => b = a.moved f ∧ a.Sound path) (ms.addNested d)
      ((ms.moved f).addNested (d.moved f)) := by
  refine .ite ?_ (fun _ => .error rfl) fun new =>
    .ok ⟨by simp [Members.moved], { sound with nested := ?_, distinct := ?_ }⟩
  · rw [Members.moved, List.any_map]
    rfl
  · exact List.forall_mem_append.2 ⟨sound.nested, List.forall_mem_singleton.2 known⟩
  · exact nodup_names_append sound.distinct new

theorem addToClass_moved : TakesIn f Members.addToClass := by
  intro path ms member sound checked
  cases member with
  | field field => exact addField_moved f sound checked
  | constructor constructor => exact addConstructor_moved f sound checked
  | method method =>
    refine .ite ?_ (fun _ => .error rfl) fun _ => addMethod_moved f sound checked
    simp [Method.moved]

theorem addToInterface_moved : TakesIn f Members.addToInterface := by
  intro path ms member sound checked
  cases member with
  | field field | constructor constructor => exact .error rfl
  | method method =>
    have kept : (Member.method { method with modifier := method.modifier.insert .abstract }).IsChecked := checked
    refine .ite ?_ (fun _ => .error rfl) fun _ => addMethod_moved f sound kept
    simp [Method.moved]

end Members

namespace Grammar

variable (f : Nat → Nat) {α : Type}

def Leaves {β : Type} (lines : List TokenLine) (g : α → β) (P : α → Prop) {p q : List TokenLine → Prop}
    (x : α × Subtype p) (y : β × Subtype q) : Prop :=
  SameRest (TokenLine.moved f) g x y ∧ x.2.1 ⊆ lines ∧ P x.1

variable {f} in
theorem Leaves.more {ε β : Type} {E : ε → ε → Prop} {rest : List TokenLine} {g : α → β} {P : α → Prop}
    {p q p' q' : List TokenLine → Prop} {x : Except ε (α × Subtype p)} {y : Except ε (β × Subtype q)}
    {k : α × Subtype p → α × Subtype p'} {k' : β × Subtype q → β × Subtype q'} (alike : Alike E (Leaves f rest g P) x y)
    (less : rest ⊆ lines) (same : ∀ r, (k r).1 = r.1 ∧ (k r).2.1 = r.2.1)
    (same' : ∀ r, (k' r).1 = r.1 ∧ (k' r).2.1 = r.2.1) :
    Alike E (Leaves f lines g P) (x >>= fun r => .ok (k r)) (y >>= fun r => .ok (k' r)) := by
  refine alike.bind fun r r' ⟨⟨first, second⟩, less', holds⟩ => .ok ⟨⟨?_, ?_⟩, ?_, ?_⟩
  · rw [(same r).1, (same' r').1, first]
  · rw [(same r).2, (same' r').2, second]
  · rw [(same r).2]
    exact List.Subset.trans less' less
  · rw [(same r).1]
    exact holds

-- The rule reads the same of lines that stand elsewhere, and what it reads is as `P` says of the file's path.
def DeclRule.Moves (g : α → α) (P : SourcePath → α → Prop) (rule : DeclRule α) : Prop :=
  ∀ (report : Report) modifier line {ts lines}, (∀ t ∈ ts, t.IsRead) → TokenLine.AllRead lines →
    Alike (CompileError.MovedAt f report.path) (Leaves f lines g (P report.path))
      (rule report modifier line ts lines)
      (rule (report.moved f) modifier (f line) (ts.map Token.bare) (lines.map (TokenLine.moved f)))

def DeclRule.NestedMoves (rule : DeclRule (Option Decl)) : Prop :=
  rule.Moves f (Option.map (Decl.moved f)) fun path decl? => ∀ d ∈ decl?, d.path = path ∧ d.Sound

theorem startsDeclaration_bare (ts : List Token) : startsDeclaration (ts.map Token.bare) = startsDeclaration ts := by
  simp [startsDeclaration]

theorem members_moved {nested : Option (DeclRule (Option Decl))}
    (nestedMoves : ∀ rule ∈ nested, rule.NestedMoves f) {add : Members → Member → Except Cause Members}
    (takesIn : Members.TakesIn f add) (report : Report) {done : Members} (sound : done.Sound report.path)
    {lines : List TokenLine} (read : TokenLine.AllRead lines) :
    Alike (CompileError.MovedAt f report.path) (Leaves f lines (Members.moved f) (Members.Sound report.path))
      (members report nested add done lines)
      (members (report.moved f) nested add (done.moved f) (lines.map (TokenLine.moved f))) := by
  match lines with
  | [] =>
    unfold members
    rw [show (report.moved f).fileEnd = report.fileEnd.moved f from report.location_moved f _]
    exact .error (movedAt_at f report.fileEnd)
  | line :: rest =>
    let here : Location := { path := report.path, line := line.number }
    have readRest : TokenLine.AllRead rest := (List.forall_mem_cons.1 read).2
    change Alike _ _ (members report nested add done (line :: rest))
      (members (report.moved f) nested add (done.moved f) (line.moved f :: rest.map (TokenLine.moved f)))
    unfold members
    refine .ite (by rw [isClosingBrace_moved]) (fun _ => .ok ⟨⟨rfl, rfl⟩, List.subset_cons_self _ _, sound⟩) fun _ => ?_
    refine ((modifiers_trims {} false line.tokens).locatedAt here).bindTrims fun modifier ts _ _ less _ => ?_
    have readTs : ∀ t ∈ ts, t.IsRead := fun t member => read line List.mem_cons_self t (less member)
    refine .ite (by rw [startsDeclaration_bare]) (fun _ => ?_) fun _ => ?_
    · cases nested with
      | none => exact .error (movedAt_at f here)
      | some rule =>
        refine (nestedMoves rule rfl (report.pin line.number) modifier line.number readTs readRest).bind ?_
        rintro ⟨decl?, rest1, h1⟩ ⟨_, _, _⟩ ⟨⟨rfl, rfl⟩, less1, known⟩
        have less : rest1 ⊆ line :: rest := List.subset_cons_of_subset _ less1
        cases decl? with
        | none =>
          exact Leaves.more (members_moved nestedMoves takesIn report sound (readRest.subset less1)) less
            (fun _ => ⟨rfl, rfl⟩) fun _ => ⟨rfl, rfl⟩
        | some decl =>
          refine ((Members.addNested_moved f sound (known decl rfl)).locatedAt here).bindKeep fun done1 sound1 => ?_
          exact Leaves.more (members_moved nestedMoves takesIn report sound1 (readRest.subset less1)) less
            (fun _ => ⟨rfl, rfl⟩) fun _ => ⟨rfl, rfl⟩
    · refine ((memberHead_moved f modifier line.number readTs).locatedAt here).bindKeep fun ⟨member, hasBody⟩
        checked => ?_
      refine .ite Iff.rfl (fun _ => ?_) fun _ => ?_
      · have collected := collectBody_moved f here 0 [] maxBodyLines rest
        split
        next error read =>
          split
          next error' read' =>
            replace collected := read ▸ read' ▸ collected
            cases collected with
            | error moved => exact .error moved
          next body' rest' read' => cases read ▸ read' ▸ collected
        next body rest1 read =>
          have := length_collectBody_lt read
          have less1 := collectBody_subset read
          split
          next error' read' => cases read ▸ read' ▸ collected
          next body' rest1' read' =>
            obtain ⟨rfl, rfl⟩ : body' = body.map (TokenLine.moved f) ∧ rest1' = rest1.map (TokenLine.moved f) := by
              replace collected := read ▸ read' ▸ collected
              cases collected with
              | ok same => simpa using same
            rw [← Member.withBody_moved]
            refine ((takesIn sound (Member.isChecked_withBody checked)).locatedAt here).bindKeep fun done1 sound1 => ?_
            exact Leaves.more (members_moved nestedMoves takesIn report sound1 (readRest.subset less1))
              (List.subset_cons_of_subset _ less1) (fun _ => ⟨rfl, rfl⟩) fun _ => ⟨rfl, rfl⟩
      · refine ((takesIn sound checked).locatedAt here).bindKeep fun done1 sound1 => ?_
        exact Leaves.more (members_moved nestedMoves takesIn report sound1 readRest) (List.subset_cons_self _ _)
          (fun _ => ⟨rfl, rfl⟩) fun _ => ⟨rfl, rfl⟩
termination_by lines.length
decreasing_by all_goals (rw [List.length_cons]; omega)

def DeclRule.OutlineMoves (rule : DeclRule Outline) : Prop :=
  rule.Moves f (Outline.moved f) fun path outline => outline.InFile path ∧ outline.Sound

def Heads (report : Report) (modifier : Modifier) (line : Nat) (x y : Header × α) : Prop :=
  ∃ name typeParams, IsWord name ∧ x.1 = declHeader report modifier line name typeParams ∧
    y = (declHeader (report.moved f) modifier (f line) name typeParams, x.2)

section Kinds

variable {nested : Option (DeclRule (Option Decl))} (nestedMoves : ∀ rule ∈ nested, rule.NestedMoves f)

include nestedMoves

theorem plainClass_moves : (plainClass nested).OutlineMoves f := by
  intro report modifier line ts lines readTs readLines
  unfold plainClass
  rw [Report.location_moved]
  refine (Alike.locatedAt (R := Heads f report modifier line) ?_ (report.location line)).bind ?_
  · refine .bindSelf Cause.Same.refl fun _ _ => (name_trims _ ts).bindTrims fun name ts _ _ _ word => ?_
    refine (typeParams_trims ts).bindTrims fun typeParams ts _ _ _ _ => ?_
    exact (classParents_bare ts).bindSame fun _ => .ok ⟨name, typeParams, word readTs, rfl, rfl⟩
  rintro ⟨_, superclass, interfaces⟩ _ ⟨name, typeParams, word, rfl, rfl⟩
  refine (members_moved f nestedMoves (Members.addToClass_moved f) report .empty readLines).bind ?_
  rintro ⟨ms, rest, _⟩ ⟨_, _, _⟩ ⟨⟨rfl, rfl⟩, less, sound⟩
  refine .ok ⟨⟨rfl, rfl⟩, less, ⟨rfl, fun d member => (sound.nested d member).1⟩,
    ⟨word, sound.fields, sound.methods, ?_, ?_, ?_⟩,
    rfl, fun d member => (sound.nested d member).2, sound.distinct, fun _ _ => trivial⟩
  · rintro body ⟨⟩
    exact sound.constructors
  · rintro fields ⟨⟩
  · rintro body ⟨⟩
    exact sound.typed

theorem interface_moves : (interface nested).OutlineMoves f := by
  intro report modifier line ts lines readTs readLines
  unfold interface
  rw [Report.location_moved]
  refine (Alike.locatedAt (R := Heads f report modifier line) ?_ (report.location line)).bind ?_
  · refine .bindSelf Cause.Same.refl fun _ _ => (name_trims _ ts).bindTrims fun name ts _ _ _ word => ?_
    refine (typeParams_trims ts).bindTrims fun typeParams ts _ _ _ _ => ?_
    exact (interfaceParents_bare ts).bindSame fun _ => .ok ⟨name, typeParams, word readTs, rfl, rfl⟩
  rintro ⟨_, parents⟩ _ ⟨name, typeParams, word, rfl, rfl⟩
  refine (members_moved f nestedMoves (Members.addToInterface_moved f) report .empty readLines).bind ?_
  rintro ⟨ms, rest, _⟩ ⟨_, _, _⟩ ⟨⟨rfl, rfl⟩, less, sound⟩
  refine .ok ⟨⟨rfl, rfl⟩, less, ⟨rfl, fun d member => (sound.nested d member).1⟩,
    ⟨word, .nil, sound.methods, ?_, ?_, ?_⟩,
    rfl, fun d member => (sound.nested d member).2, sound.distinct, fun _ _ => trivial⟩
  · rintro body ⟨⟩
  · rintro fields ⟨⟩
  · rintro body ⟨⟩

end Kinds

theorem enumeration_moves : enumeration.OutlineMoves f := by
  intro report modifier line ts lines readTs readLines
  unfold enumeration
  rw [Report.location_moved]
  refine (Alike.locatedAt (R := fun d d' => d' = d.moved f ∧ (d.path = report.path ∧ d.outer = none) ∧ d.Sound) ?_
    (report.location line)).bind ?_
  · refine .bindSelf Cause.Same.refl fun _ _ => (name_trims _ ts).bindTrims fun name ts _ _ _ word => ?_
    refine (operator_bare _ ts).bindKeep fun ⟨_, ts⟩ _ => ?_
    refine (values_bare [] ts).bindMap fun ⟨values, ts⟩ => (lineEnd_bare ts).bindSame fun _ => ?_
    refine .ok ⟨rfl, ⟨rfl, rfl⟩, word readTs, .nil, by simp [Decl.methods], ?_, ?_, ?_⟩
    · rintro body ⟨⟩
    · rintro fields ⟨⟩
    · rintro body ⟨⟩
  rintro decl _ ⟨rfl, ⟨inside, outermost⟩, sound⟩
  exact .ok ⟨⟨rfl, rfl⟩, List.Subset.refl _, ⟨inside, by simp⟩, sound, outermost, by simp, .nil, by simp⟩

def Place.moved (place : Place) : Place :=
  { line := f place.line
    tokens := place.tokens.map Token.bare
    later := place.later.map (TokenLine.moved f) }

theorem Place.next_moved (line : Nat) (ts : List Token) (later : List TokenLine) :
    Place.next (f line) (ts.map Token.bare) (later.map (TokenLine.moved f)) = (Place.next line ts later).moved f := by
  induction later generalizing line ts with
  | nil => rfl
  | cons l later ih =>
    cases ts with
    | nil => exact ih l.number l.tokens
    | cons t ts => rfl

theorem Place.next_subset (line : Nat) (tokens : List Token) (later : List TokenLine) :
    (Place.next line tokens later).later ⊆ later := by
  fun_induction Place.next line tokens later with
  | case1 => exact List.Subset.refl _
  | case2 line l later ih => exact List.subset_cons_of_subset l ih
  | case3 => exact List.Subset.refl _

theorem Place.next_read {line : Nat} {tokens : List Token} {later : List TokenLine}
    (read : ∀ t ∈ tokens, t.IsRead) (readLater : TokenLine.AllRead later) :
    ∀ t ∈ (Place.next line tokens later).tokens, t.IsRead := by
  fun_induction Place.next line tokens later with
  | case1 => exact read
  | case2 line l later ih =>
    obtain ⟨readLine, readLater⟩ := List.forall_mem_cons.1 readLater
    exact ih readLine readLater
  | case3 => exact read

theorem component_moved (line : Nat) {ts : List Token} (read : ∀ t ∈ ts, t.IsRead) :
    Alike Cause.Same (Trims ts (Field.moved f) fun field => IsWord field.name ∧ field.modifier.has .static = false)
      (component line ts) (component (f line) (ts.map Token.bare)) := by
  refine (modifiers_trims {} false ts).bindTrims fun modifier ts1 _ _ less1 _ => .bindSelf Cause.Same.refl fun _ _ => ?_
  refine .ite Iff.rfl (fun _ => .error rfl) fun own => ?_
  refine (typeName_trims ts1).bindTrims fun type ts2 _ _ less2 _ => ?_
  refine (name_trims _ ts2).bindTrims fun name ts3 _ _ less3 word => ?_
  have less : ts2 ⊆ ts := List.Subset.trans less2 less1
  exact .ok ⟨⟨rfl, rfl⟩, List.Subset.trans less3 less, word fun t member => read t (less member),
    Bool.eq_false_iff.2 own⟩

def componentsFrom (report : Report) (done : List Field) (place : Place) : Except CompileError (List Field × Place) :=
  (components report done place.line place.tokens place.later).map fun read => (read.1, read.2.1)

theorem componentsFrom_eq (report : Report) (done : List Field) (line : Nat) (ts : List Token)
    (later : List TokenLine) :
    componentsFrom report done ⟨line, ts, later⟩ =
      (let first := Place.next line ts later
      located (report.location first.line) (component first.line first.tokens) >>= fun read =>
        if done.any (·.name = read.1.name) then
          .error { cause := .redefinition .field read.1.name, location := some (report.location first.line) }
        else
          let next := Place.next first.line read.2.1 first.later
          match next.tokens with
          | comma :: ts =>
            if comma.isPunct ',' then componentsFrom report (done ++ [read.1]) { next with tokens := ts }
            else .ok (done ++ [read.1], next)
          | [] => .ok (done ++ [read.1], next)) := by
  unfold componentsFrom
  dsimp only
  rw [components]
  split
  next line1 ts1 later1 at1 =>
  conv_rhs => rw [at1]
  dsimp only
  cases located (report.location line1) (component line1 ts1) with
  | error e => rfl
  | ok read =>
    obtain ⟨field, ts2, h2⟩ := read
    change Except.map _ (ite ..) = ite ..
    split
    · rfl
    · dsimp only
      split
      next comma ts4 found =>
        conv_rhs => simp only [found]
        split
        · cases components report (done ++ [field]) (Place.next line1 ts2 later1).line ts4
            (Place.next line1 ts2 later1).later <;> rfl
        · simp only [Except.map, pure, Except.pure, ← found]
      next found =>
        conv_rhs => simp only [found]
        simp only [Except.map, pure, Except.pure, ← found]

structure Components (lines : List TokenLine) (fields : List Field) (later : List TokenLine) : Prop where
  known : ∀ field ∈ fields, IsWord field.name ∧ field.modifier.has .static = false
  distinct : (fields.map (·.name)).Nodup
  less : later ⊆ lines

theorem componentsFrom_moved (report : Report) {lines : List TokenLine} (readLines : TokenLine.AllRead lines)
    {done : List Field} (line : Nat) {ts : List Token} {later : List TokenLine} (read : ∀ t ∈ ts, t.IsRead)
    (sound : Components lines done later) :
    Alike (CompileError.MovedAt f report.path)
      (fun x y => y = (x.1.map (Field.moved f), x.2.moved f) ∧ Components lines x.1 x.2.later)
      (componentsFrom report done ⟨line, ts, later⟩)
      (componentsFrom (report.moved f) (done.map (Field.moved f)) (Place.moved f ⟨line, ts, later⟩)) := by
  have count1 := Place.tokenCount_next line ts later
  have less1 := List.Subset.trans (Place.next_subset line ts later) sound.less
  have read1 := @Place.next_read line ts later read (readLines.subset sound.less)
  dsimp only [Place.moved]
  rw [componentsFrom_eq, componentsFrom_eq, Place.next_moved]
  dsimp only [Place.moved]
  rw [Report.location_moved]
  refine ((component_moved f _ read1).locatedAt (report.location (Place.next line ts later).line)).bindTrims
    fun field ts2 shorter _ fewer checked => ?_
  refine .ite (by rw [List.any_map]; rfl) (fun _ => .error (movedAt_at f _)) fun new => ?_
  have count2 := Place.tokenCount_next (Place.next line ts later).line ts2 (Place.next line ts later).later
  have read2 := @Place.next_read (Place.next line ts later).line ts2 _ (fun t member => read1 t (fewer member))
    (readLines.subset less1)
  have sound' : Components lines (done ++ [field])
      (Place.next (Place.next line ts later).line ts2 (Place.next line ts later).later).later :=
    ⟨List.forall_mem_append.2 ⟨sound.known, List.forall_mem_singleton.2 checked⟩,
      nodup_names_append sound.distinct new, List.Subset.trans (Place.next_subset _ ts2 _) less1⟩
  dsimp only
  rw [Place.next_moved]
  cases found : (Place.next (Place.next line ts later).line ts2 (Place.next line ts later).later).tokens with
  | nil =>
    simp only [Place.moved, found, List.map_nil]
    exact .ok ⟨by simp [found], sound'⟩
  | cons comma ts4 =>
    simp only [Place.moved, found, List.map_cons, Token.bare_isPunct]
    refine .ite Iff.rfl (fun _ => ?_) fun _ => .ok ⟨by simp [found], sound'⟩
    rw [found] at read2
    have rest := componentsFrom_moved report readLines
      (Place.next (Place.next line ts later).line ts2 (Place.next line ts later).later).line
      (List.forall_mem_cons.1 read2).2 sound'
    rw [List.map_append] at rest
    exact rest
termination_by Place.tokenCount ts later
decreasing_by
  simp [found, Place.tokenCount] at count1 count2 ⊢
  omega

theorem closeRecord_moved (report : Report) (place : Place) :
    Alike (CompileError.MovedAt f report.path) Eq (located (report.location place.line) (closeRecord place.tokens))
      (located ((report.moved f).location (f place.line)) (closeRecord (place.tokens.map Token.bare))) := by
  have closed : Blind closeRecord place.tokens Eq :=
    (punct_bare ']' place.tokens).bindKeep fun ⟨_, ts⟩ _ => lineEnd_bare ts
  rw [Report.location_moved]
  exact closed.locatedAt (report.location place.line)

theorem record_moves : record.OutlineMoves f := by
  intro report modifier line ts lines readTs readLines
  unfold record
  rw [Report.location_moved]
  refine (Alike.locatedAt (R := fun (x y : String × List Token) => y = (x.1, x.2.map Token.bare) ∧ IsWord x.1 ∧
    ∀ t ∈ x.2, t.IsRead) ?_ (report.location line)).bind ?_
  · refine .bindSelf Cause.Same.refl fun _ _ => (name_trims _ ts).bindTrims fun name ts1 _ _ less1 word => ?_
    refine (operator_bare _ ts1).bindKeep fun ⟨_, ts2⟩ less2 => (punct_bare '[' ts2).bindKeep fun ⟨_, ts3⟩ less3 => ?_
    exact .ok ⟨rfl, word readTs, fun t member => readTs t (less1 (less2 (less3 member)))⟩
  rintro ⟨name, ts⟩ _ ⟨rfl, word, read⟩
  have finished {fields : List Field} {later : List TokenLine} (sound : Components lines fields later) :
      Outline.Sound ⟨{ declHeader report modifier line name [] with shape := .record fields }, []⟩ := by
    refine ⟨⟨word, sound.distinct, by simp [Decl.methods], ?_, ?_, ?_⟩, rfl, by simp, .nil, by simp⟩
    · rintro body ⟨⟩
    · rintro fields ⟨⟩
      exact sound.known
    · rintro body ⟨⟩
  have start : Components lines [] lines := ⟨by simp, .nil, List.Subset.refl _⟩
  have none : Components lines [] (Place.next line ts lines).later :=
    { start with less := Place.next_subset line ts lines }
  dsimp only
  simp only [Place.next_moved, Place.moved, nextIs_bare]
  refine .ite Iff.rfl (fun _ => ?_) fun _ => ?_
  · refine (closeRecord_moved f report (Place.next line ts lines)).bindSame fun _ => ?_
    exact .ok ⟨⟨rfl, rfl⟩, none.less, ⟨rfl, by simp⟩, finished none⟩
  · refine (componentsFrom_moved f report readLines line read start).of_map.bind ?_
    rintro ⟨fields, place, _⟩ ⟨fields', place', _⟩ ⟨same, sound⟩
    obtain ⟨rfl, rfl⟩ := Prod.mk.inj same
    refine (closeRecord_moved f report place).bindSame fun _ => ?_
    exact .ok ⟨⟨rfl, rfl⟩, sound.less, ⟨rfl, by simp⟩, finished sound⟩

theorem skipBlock_moved (depth : Int) (lines : List TokenLine) :
    (skipBlock depth (lines.map (TokenLine.moved f))).map (·.1) =
      (skipBlock depth lines).map (fun left => left.1.map (TokenLine.moved f)) := by
  induction lines generalizing depth with
  | nil =>
    unfold skipBlock
    split <;> rfl
  | cons line rest ih =>
    change (skipBlock depth (line.moved f :: rest.map (TokenLine.moved f))).map _ = _
    unfold skipBlock
    split
    · rfl
    · have tail := ih (depth + braceBalance line.tokens)
      have same : braceBalance (line.moved f).tokens = braceBalance line.tokens := braceBalance_bare line.tokens
      simp only [same, Option.map_map, Function.comp_def]
      exact tail

theorem skipBlock_subset {depth : Int} {left : Left lines}
    (h : skipBlock depth lines = some left) : left.1 ⊆ lines := by
  induction lines generalizing depth with
  | nil =>
    unfold skipBlock at h
    split_ifs at h
    cases h
    exact List.Subset.refl _
  | cons line rest ih =>
    unfold skipBlock at h
    split_ifs at h
    · cases h
      exact List.Subset.refl _
    · obtain ⟨left', run, rfl⟩ := Option.map_eq_some_iff.1 h
      exact List.subset_cons_of_subset line (ih run)

theorem reserved_moves : reserved.Moves f id (fun _ _ => True) := by
  intro report modifier line ts lines _ _
  have skipped := skipBlock_moved f (braceBalance ts) lines
  unfold reserved
  rw [braceBalance_bare]
  cases here : skipBlock (braceBalance ts) lines with
  | none =>
    obtain gone := Option.map_eq_none_iff.1 (skipped.trans (congrArg _ here))
    rw [gone, show (report.moved f).fileEnd = report.fileEnd.moved f from report.location_moved f _]
    exact .error (movedAt_at f report.fileEnd)
  | some left =>
    obtain ⟨left', there, same⟩ := Option.map_eq_some_iff.1 (skipped.trans (congrArg _ here))
    rw [there]
    exact .ok ⟨⟨rfl, same.symm⟩, skipBlock_subset here, trivial⟩

def Outline.AllKnown (path : SourcePath) (outline? : Option Outline) : Prop :=
  ∀ outline ∈ outline?, outline.InFile path ∧ outline.Sound

theorem DeclRule.OutlineMoves.some {rule : DeclRule Outline} (moves : rule.OutlineMoves f) :
    DeclRule.Moves f (Option.map (Outline.moved f)) Outline.AllKnown
      (fun report modifier line ts lines =>
        (rule report modifier line ts lines).map (fun (outline, left) => (some outline, left))) := by
  intro report modifier line ts lines readTs readLines
  refine (moves report modifier line readTs readLines).map ?_
  rintro ⟨outline, rest, _⟩ ⟨_, _, _⟩ ⟨⟨rfl, rfl⟩, less, known⟩
  exact ⟨⟨rfl, rfl⟩, less, fun _ mem => Option.mem_some_iff.1 mem ▸ known⟩

theorem declaration_moves {nested : Option (DeclRule (Option Decl))}
    (nestedMoves : ∀ rule ∈ nested, rule.NestedMoves f) :
    (declaration nested).Moves f (Option.map (Outline.moved f)) Outline.AllKnown := by
  intro report modifier line ts lines readTs readLines
  cases ts with
  | nil =>
    unfold declaration
    dsimp only [List.map_nil]
    rw [Report.location_moved]
    exact (expected_same _ none).locatedAt (report.location line)
  | cons t ts =>
    have readTs := (List.forall_mem_cons.1 readTs).2
    refine .ite Iff.rfl (fun _ => (plainClass_moves f nestedMoves).some f report modifier line readTs readLines)
      fun _ => ?_
    refine .ite Iff.rfl (fun _ => (interface_moves f nestedMoves).some f report modifier line readTs readLines)
      fun _ => ?_
    refine .ite Iff.rfl (fun _ => (enumeration_moves f).some f report modifier line readTs readLines) fun _ => ?_
    refine .ite Iff.rfl (fun _ => (record_moves f).some f report modifier line readTs readLines) fun _ => ?_
    refine .ite Iff.rfl (fun _ => ?_) fun _ => ?_
    · refine (reserved_moves f report modifier line readTs readLines).map ?_
      rintro ⟨_, rest, _⟩ ⟨_, _, _⟩ ⟨⟨rfl, rfl⟩, less, -⟩
      exact ⟨⟨rfl, rfl⟩, less, by simp [Outline.AllKnown]⟩
    · rw [Report.location_moved]
      exact (expected_same _ (some t)).locatedAt (report.location line)

theorem nestedDeclaration_moves : nestedDeclaration.NestedMoves f := by
  intro report modifier line ts lines readTs readLines
  refine (declaration_moves f (by simp) report modifier line readTs readLines).map ?_
  rintro ⟨outline?, rest, _⟩ ⟨_, _, _⟩ ⟨⟨rfl, rfl⟩, less, known⟩
  refine ⟨⟨?_, rfl⟩, less, ?_⟩
  · cases outline? <;> rfl
  · intro d mem
    obtain ⟨outline, found, rfl⟩ := Option.mem_map.1 mem
    exact ⟨(known outline found).1.1, (known outline found).2.top⟩

def lastLineOf (outline : Outline) (line : Nat) : Nat :=
  (((outline.top :: outline.nested).reverse.find? (·.name = outline.top.name)).map (·.line)).getD line

theorem lastLineOf_moved (outline : Outline) (line : Nat) :
    lastLineOf (outline.moved f) (f line) = f (lastLineOf outline line) := by
  have same : (outline.moved f).top :: (outline.moved f).nested = (outline.top :: outline.nested).map (Decl.moved f) :=
    rfl
  unfold lastLineOf
  rw [same, ← List.map_reverse, List.find?_map, Option.map_map]
  change (Option.map _ (List.find? (fun d : Decl => d.name = outline.top.name) _)).getD _ = _
  cases List.find? (fun d : Decl => d.name = outline.top.name) (outline.top :: outline.nested).reverse <;> rfl

structure Outlines (path : SourcePath) (outlines : List Outline) : Prop where
  known : ∀ outline ∈ outlines, outline.InFile path ∧ outline.Sound
  distinct : (outlines.map (·.top.name)).Nodup

theorem Outlines.empty {path : SourcePath} : Outlines path [] :=
  ⟨by simp, .nil⟩

theorem declarations_moved (report : Report) {done : List Outline} (sound : Outlines report.path done)
    {lines : List TokenLine} (read : TokenLine.AllRead lines) :
    Alike (CompileError.MovedAt f report.path) (fun a b => b = a.map (Outline.moved f) ∧ Outlines report.path a)
      (declarations report done lines)
      (declarations (report.moved f) (done.map (Outline.moved f)) (lines.map (TokenLine.moved f))) := by
  match lines with
  | [] =>
    unfold declarations
    exact .ok ⟨rfl, sound⟩
  | line :: rest =>
    have readRest : TokenLine.AllRead rest := (List.forall_mem_cons.1 read).2
    change Alike _ _ (declarations report done (line :: rest))
      (declarations (report.moved f) (done.map (Outline.moved f)) (line.moved f :: rest.map (TokenLine.moved f)))
    unfold declarations
    rw [show (line.moved f).number = f line.number from rfl, Report.location_moved]
    refine ((modifiers_trims {} false line.tokens).locatedAt (report.location line.number)).bindTrims
      fun modifier ts _ _ less _ => ?_
    refine (declaration_moves f (by simp [nestedDeclaration_moves]) report modifier line.number
      (fun t member => read line List.mem_cons_self t (less member)) readRest).bind ?_
    rintro ⟨outline?, rest1, h1⟩ ⟨_, _, _⟩ ⟨⟨rfl, rfl⟩, less1, found⟩
    cases outline? with
    | none => exact declarations_moved report sound (readRest.subset less1)
    | some outline =>
      refine .ite (by rw [List.any_map]; rfl) (fun _ => ?_) fun new => ?_
      · have there : (report.moved f).location (lastLineOf (outline.moved f) (f line.number)) =
            (report.location (lastLineOf outline line.number)).moved f := by
          rw [lastLineOf_moved, Report.location_moved]
        have error := movedAt_at f (c := .redefinition .declaration outline.top.name)
          (report.location (lastLineOf outline line.number))
        rw [← there] at error
        exact .error error
      · have distinct : ((done ++ [outline]).map (·.top.name)).Nodup := nodup_names_append sound.distinct new
        have more : Outlines report.path (done ++ [outline]) :=
          ⟨List.forall_mem_append.2 ⟨sound.known, List.forall_mem_singleton.2 (found outline rfl)⟩, distinct⟩
        have later := declarations_moved report more (readRest.subset less1)
        rw [List.map_append] at later
        exact later
termination_by lines.length
decreasing_by all_goals (rw [List.length_cons]; omega)

theorem declarations_sound {report : Report}
    (read : TokenLine.AllRead lines) (h : declarations report [] lines = .ok outlines) :
    Outlines report.path outlines := by
  obtain ⟨_, -, sound⟩ := (declarations_moved id report .empty read).of_ok h
  exact sound

theorem uses_moved (path : SourcePath) (known : FileUses) (lines : List TokenLine) :
    Alike (CompileError.MovedAt f path) (fun x y => y = (x.1, x.2.map (TokenLine.moved f)) ∧ x.2 ⊆ lines)
      (uses path known lines) (uses path known (lines.map (TokenLine.moved f))) := by
  induction lines generalizing known with
  | nil => exact .ok ⟨rfl, List.Subset.refl _⟩
  | cons line rest ih =>
    rw [List.map_cons]
    unfold uses
    refine .ite (by rw [TokenLine.moved, nextIsWord_bare]) (fun _ => ?_) fun _ => .ok ⟨rfl, List.Subset.refl _⟩
    have read := (use_bare known line.tokens.tail).locatedAt (f := f) { path, line := line.number }
    rw [List.map_tail] at read
    refine read.bindSame fun known => ?_
    exact (ih known).imp fun _ _ ⟨same, less⟩ => ⟨same, List.subset_cons_of_subset line less⟩

theorem uses_subset {path : SourcePath} {known result : FileUses} {rest : List TokenLine}
    (h : uses path known lines = .ok (result, rest)) : rest ⊆ lines := by
  obtain ⟨_, -, less⟩ := (uses_moved id path known lines).of_ok h
  exact less

end Grammar

section Naming

variable (f : Nat → Nat)

theorem Outline.packages_moved (path : SourcePath) (outlines : List Outline) :
    Outline.packages path (outlines.map (Outline.moved f)) = Outline.packages path outlines := by
  match outlines with
  | [] => rfl
  | [outline] => rfl
  | _ :: _ :: _ => rfl

theorem Outline.named_moved (packages : List String) (outline : Outline) :
    Outline.named packages (outline.moved f) = (Outline.named packages outline).map (Decl.moved f) := by
  simp only [Outline.named, Outline.moved, List.map_cons, List.map_map]
  rfl

theorem Program.usesIn_moved (program : Program) (fileUses : Uses) (d : Decl) :
    Program.usesIn (program.moved f) fileUses (d.moved f) = Program.usesIn program fileUses d := by
  unfold Program.usesIn Program.moved
  rw [List.filter_map, List.map_map]
  rfl

theorem Program.ofOutlines_moved (path : SourcePath) (file : Grammar.FileUses) (outlines : List Outline) :
    Program.ofOutlines path file (outlines.map (Outline.moved f)) =
      (Program.ofOutlines path file outlines).moved f := by
  unfold Program.ofOutlines
  have program : (outlines.map (Outline.moved f)).flatMap (Outline.named (Outline.packages path outlines)) =
      Program.moved f (outlines.flatMap (Outline.named (Outline.packages path outlines))) := by
    simp only [List.flatMap_map, Outline.named_moved, Program.moved, List.map_flatMap]
  dsimp only
  rw [Outline.packages_moved, program]
  simp only [Program.moved, List.map_map, Function.comp_def]
  apply List.map_congr_left
  intro d _
  have uses := Program.usesIn_moved f (outlines.flatMap (Outline.named (Outline.packages path outlines))) file.uses d
  rw [Program.moved] at uses
  rw [uses]
  rfl

theorem Program.path_ofOutlines {path : SourcePath} {file : Grammar.FileUses}
    (known : ∀ outline ∈ outlines, outline.InFile path ∧ outline.Sound) :
    ∀ d ∈ Program.ofOutlines path file outlines, d.path = path := by
  intro d mem
  simp only [Program.ofOutlines, List.mem_map, List.mem_flatMap, Outline.named, List.mem_cons] at mem
  obtain ⟨_, ⟨outline, found, rfl | ⟨e, nested, rfl⟩⟩, rfl⟩ := mem
  · exact (known outline found).1.1
  · exact (known outline found).1.2 e nested

def Program.ofLines (path : SourcePath) (lines : List TokenLine) : Except CompileError Program := do
  let lastLine := (lines.getLast?.map (·.number)).getD 1
  let (file, lines) ← Grammar.uses path {} lines
  let outlines ← Grammar.declarations { path, lastLine, pinned := none } [] lines
  return Program.ofOutlines path file outlines

theorem Program.parse_eq (path : SourcePath) (source : String) :
    Program.parse path source = (TokenLine.ofSource path source >>= Program.ofLines path) :=
  rfl

theorem Program.ofLines_moved (path : SourcePath) (read : TokenLine.AllRead lines) :
    Alike (CompileError.MovedAt f path) (fun p p' => p' = p.moved f ∧ ∀ d ∈ p, d.path = path)
      (Program.ofLines path lines) (Program.ofLines path (lines.map (TokenLine.moved f))) := by
  -- An empty file has no last line to move: nothing is read of it, and nothing is reported.
  rcases List.eq_nil_or_concat' lines with rfl | ⟨front, last, rfl⟩
  · have empty : Program.ofLines path [] = .ok [] := by
      unfold Program.ofLines Grammar.declarations
      rfl
    rw [List.map_nil, empty]
    exact .ok ⟨rfl, by simp⟩
  unfold Program.ofLines
  refine (Grammar.uses_moved f path {} (front ++ [last])).bindKeep fun ⟨file, lines⟩ less => ?_
  dsimp only
  rw [List.getLast?_append, List.map_append, List.getLast?_append]
  refine (Grammar.declarations_moved f { path, lastLine := last.number, pinned := none } .empty
    (read.subset less)).bindKeep fun outlines sound => ?_
  exact .ok ⟨Program.ofOutlines_moved f path file outlines, Program.path_ofOutlines sound.known⟩

end Naming

end ClassForge
