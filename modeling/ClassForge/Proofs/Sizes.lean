import ClassForge.Proofs.ClassReading
import ClassForge.Proofs.Linking

set_option autoImplicit false

namespace ClassForge

theorem map_eq_map_of_forall₂ {α β γ : Type} {f : α → γ} {g : β → γ} {first : List α} {second : List β}
    (same : List.Forall₂ (fun a b => g b = f a) first second) : second.map g = first.map f := by
  induction same with
  | nil => rfl
  | cons here _ ih => rw [List.map_cons, List.map_cons, here, ih]

variable {indices : List UInt16} {c : ClassFile}

namespace ConstantPool

variable {pool : ConstantPool}

theorem length_indices_le (apart : indices.Nodup)
    (known : ∀ index ∈ indices, ∃ c, pool.get? index = some c) : indices.length ≤ pool.slots.size := by
  have inside : ∀ index ∈ indices, 0 < index.toNat ∧ index.toNat - 1 < pool.slots.size := by
    intro index member
    obtain ⟨c, found⟩ := known index member
    obtain ⟨positive, slot⟩ := get?_eq_some_iff.1 found
    exact ⟨positive, (Array.getElem?_eq_some_iff.1 slot).1⟩
  have places : (indices.map (·.toNat - 1)).Nodup := by
    refine apart.map_on fun i first j second same => UInt16.toNat.inj ?_
    have := (inside i first).1
    have := (inside j second).1
    omega
  have among : indices.map (·.toNat - 1) ⊆ List.range pool.slots.size := by
    intro place member
    obtain ⟨index, here, rfl⟩ := List.mem_map.1 member
    exact List.mem_range.2 (inside index here).2
  have few := (places.subperm among).length_le
  rwa [List.length_map, List.length_range] at few

theorem nodup_of_named {α : Type} {f : UInt16 → Option α} {names : List α}
    (distinct : names.Nodup) (named : List.Forall₂ (fun name index => f index = some name) names indices) :
    indices.Nodup := by
  have texts : indices.map f = names.map some := map_eq_map_of_forall₂ named
  apply List.Nodup.of_map f
  rw [texts]
  exact distinct.map (Option.some_injective _)

theorem length_names_le {names : List String} (distinct : names.Nodup)
    (named : List.Forall₂ (fun name index => pool.utf8? index = some name) names indices) :
    indices.length ≤ pool.slots.size := by
  refine length_indices_le (nodup_of_named distinct named) fun index member => ?_
  obtain ⟨name, -, found⟩ := exists_left_of_forall₂ named member
  exact ⟨_, utf8?_eq_some_iff.1 found⟩

theorem checkText_eq_ok {index : UInt16} {text : String} :
    pool.checkText index = .ok text ↔ pool.utf8? index = some text := by
  unfold checkText utf8?
  split <;> simp_all

end ConstantPool

theorem nodup_of_seen {α : Type} {key : α → Option String × Option String} (check : MemberKeys → List α → Prop)
    (step : ∀ seen x rest, check seen (x :: rest) → ∃ k : String × String,
      key x = (some k.1, some k.2) ∧ k ∉ seen ∧ check (seen.insert k) rest)
    {seen : MemberKeys} {xs : List α} (h : check seen xs) :
    (xs.map key).Nodup ∧ ∀ x ∈ xs, ∀ k ∈ seen, key x ≠ (some k.1, some k.2) := by
  induction xs generalizing seen with
  | nil => simp
  | cons x rest ih =>
    obtain ⟨own, named, new, h⟩ := step seen x rest h
    obtain ⟨distinct, unseen⟩ := ih h
    constructor
    · rw [List.map_cons, List.nodup_cons, named]
      refine ⟨fun again => ?_, distinct⟩
      obtain ⟨y, member, same⟩ := List.mem_map.1 again
      exact unseen y member own Std.TreeSet.mem_insert_self same
    · intro y member other old
      rcases List.mem_cons.1 member with rfl | member
      · rw [named]
        intro same
        obtain rfl : own = other := by simpa [Prod.ext_iff] using same
        exact new old
      · exact unseen y member other (Std.TreeSet.mem_insert.2 (.inr old))

namespace ClassFile

def fieldKey (c : ClassFile) (f : FieldInfo) : Option String × Option String :=
  (c.pool.utf8? f.name, c.pool.utf8? f.descriptor)

theorem nodup_of_verifyFields {seen : MemberKeys} {fields : List FieldInfo}
    (h : c.verifyFields seen fields = .ok ()) : (fields.map c.fieldKey).Nodup := by
  refine (nodup_of_seen (fun seen fields => c.verifyFields seen fields = .ok ()) ?_ h).1
  intro seen f rest h
  simp only [verifyFields, bind_eq_ok, ConstantPool.checkText_eq_ok] at h
  obtain ⟨name, named, descriptor, typed, _, -, _, new, h⟩ := h
  rw [require_eq_ok, Bool.not_eq_true', ← Bool.not_eq_true, Std.TreeSet.contains_iff_mem] at new
  exact ⟨(name, descriptor), by rw [fieldKey, named, typed], new, h⟩

end ClassFile

namespace Assembly

variable {t : Target} {pool : ConstantPool} {fields : List FieldInfo} {methods : List MethodInfo}

theorem names_of_fields {declared : List Field}
    (made : List.Forall₂ (fun f info => FieldOf t f pool info) declared fields) :
    List.Forall₂ (fun name index => pool.utf8? index = some name) (declared.map (·.name)) (fields.map (·.name)) := by
  rw [List.forall₂_map_left_iff, List.forall₂_map_right_iff]
  exact made.imp fun f info ⟨_, _, made⟩ => made.named

theorem keys_of_values {flags : UInt16} {values : List String}
    (named : List.Forall₂ (fun value info => FieldMade flags value t.selfType c.pool info) values fields) :
    fields.map c.fieldKey = values.map (fun value => (some value, some t.selfType.text)) := by
  apply map_eq_map_of_forall₂
  exact named.imp fun _ _ made => by rw [ClassFile.fieldKey, made.named, made.typed]

theorem Holds.fields_le (holds : Holds t c.pool fields methods)
    (distinct : (t.decl.fields.map (·.name)).Nodup) (checked : c.verifyFields {} fields = .ok ()) :
    fields.length ≤ c.pool.slots.size + 1 := by
  have fewer {declared : List Field} (same : t.decl.fields = declared)
      (made : List.Forall₂ (fun f info => FieldOf t f c.pool info) declared fields) :
      fields.length ≤ c.pool.slots.size + 1 := by
    have few := ConstantPool.length_names_le (same ▸ distinct) (names_of_fields made)
    rw [List.length_map] at few
    omega
  cases holds with
  | plainClass shape declared constructed coded initial => exact fewer (by rw [Decl.fields, shape]) declared
  | interface shape coded => exact Nat.zero_le _
  | @enumeration values fields array _ _ _ _ shape named held listed found made initial =>
    -- Only the check tells the values apart, by name and type, and they all have one type.
    have keys := keys_of_values named
    have apart : values.Nodup := by
      have all := ClassFile.nodup_of_verifyFields checked
      rw [List.map_append, List.nodup_append, keys] at all
      exact List.Nodup.of_map _ all.1
    have names : List.Forall₂ (fun name index => c.pool.utf8? index = some name) values (fields.map (·.name)) := by
      rw [List.forall₂_map_right_iff]
      exact named.imp fun _ _ made => made.named
    have few := ConstantPool.length_names_le apart names
    rw [List.length_map] at few
    rw [List.length_append, List.length_singleton]
    omega
  | record shape declared typed made read => exact fewer (by rw [Decl.fields, shape]) declared

theorem Holds.brief_fields (holds : Holds t pool fields methods) : ∀ f ∈ fields, Attribute.IsBrief f.attributes := by
  have brief {declared : List Field}
      (made : List.Forall₂ (fun f info => FieldOf t f pool info) declared fields) :
      ∀ info ∈ fields, Attribute.IsBrief info.attributes := by
    intro info member
    obtain ⟨f, -, d, -, made⟩ := exists_left_of_forall₂ made member
    exact made.brief
  cases holds with
  | plainClass shape declared constructed coded initial => exact brief declared
  | interface shape coded => simp
  | enumeration shape named held listed found made initial =>
    intro info member
    rcases List.mem_append.1 member with value | array
    · obtain ⟨name, -, made⟩ := exists_left_of_forall₂ named value
      exact made.brief
    · rw [List.mem_singleton.1 array]
      exact held.brief
  | record shape declared typed made read => exact brief declared

theorem Holds.brief_methods (holds : Holds t pool fields methods) : ∀ m ∈ methods, Attribute.IsBrief m.attributes := by
  intro info member
  cases holds with
  | plainClass shape declared constructed coded initial =>
    rcases List.mem_append.1 member with others | init
    · rcases List.mem_append.1 others with constructor | method
      · obtain ⟨c, -, _, _, -, -, -, made⟩ := exists_left_of_forall₂ constructed constructor
        exact made.brief
      · obtain ⟨m, -, _, _, -, -, made⟩ := exists_left_of_forall₂ coded method
        exact made.brief
    · obtain ⟨_, -, made⟩ := initial info init
      exact made.brief
  | interface shape coded =>
    obtain ⟨m, -, _, _, -, -, made⟩ := exists_left_of_forall₂ coded member
    exact made.brief
  | enumeration shape named held listed found made initial =>
    obtain ⟨_, -, -, listed⟩ := listed
    obtain ⟨_, -, -, found⟩ := found
    obtain ⟨_, -, -, made⟩ := made
    obtain ⟨_, -, -, initial⟩ := initial
    simp only [List.mem_cons, List.not_mem_nil, or_false] at member
    rcases member with rfl | rfl | rfl | rfl
    · exact listed.brief
    · exact found.brief
    · exact made.brief
    · exact initial.brief
  | record shape declared typed made read =>
    obtain ⟨_, -, -, made⟩ := made
    rcases List.mem_cons.1 member with rfl | accessor
    · exact made.brief
    · obtain ⟨f, -, d, -, _, -, -, made⟩ := exists_left_of_forall₂ read accessor
      exact made.brief

end Assembly

theorem Generated.small {site : Site} {pool : ConstantPool} {code : CodeAttribute}
    (generated : Generated site pool code) : code.attributes = [] ∧ code.info.length < 4294967296 := by
  obtain ⟨b, items, finished⟩ := generated
  obtain ⟨-, length, small, -⟩ := CodeBuffer.finish_returns finished.laid.toHolds finished.bytes
  refine ⟨finished.plain, ?_⟩
  simp only [CodeAttribute.info, Attribute.listBytes, finished.plain, Bytes.u2, Bytes.u4, List.length_append,
    List.length_cons, List.length_nil, List.flatMap_nil]
  omega

theorem Attribute.IsBrief.fits {attributes : List Attribute} (brief : IsBrief attributes) :
    ListFits attributes := by
  refine ⟨Nat.le_trans brief.1 (by omega), fun a member => ?_⟩
  rw [brief.2 a member]
  omega

namespace ClassUnit.Comes

variable {program : Program} {options : Options} {d : Decl} {u : ClassUnit}

theorem method_fits (comes : Comes program options d u) {m : MethodInfo} (present : m ∈ u.classFile.methods) :
    Attribute.ListFits m.layout.attributes ∧ ∀ code ∈ m.code, Attribute.ListFits code.attributes := by
  have brief := comes.holds.brief_methods m present
  have coded (code : CodeAttribute) (has : code ∈ m.code) : code.attributes = [] ∧ code.info.length < 4294967296 := by
    obtain ⟨site, name, -, generated, -⟩ := comes.holds.generated_of present has
    exact generated.small
  refine ⟨?_, fun code has => ?_⟩
  · have fits := brief.fits
    cases has : m.code with
    | none => simpa [MethodInfo.layout, has] using fits
    | some code =>
      simp only [MethodInfo.layout, has, Option.toList_some, List.map_cons, List.map_nil, List.singleton_append]
      refine ⟨?_, List.forall_mem_cons.2 ⟨(coded code has).2, fits.2⟩⟩
      have := brief.1
      rw [List.length_cons]
      omega
  · rw [(coded code has).1]
    exact ⟨Nat.zero_le _, by simp⟩

end ClassUnit.Comes

theorem Session.compile_sizes {s later : Session} {path : Text.SourcePath} {source : String} {count : Nat}
    (compiled : s.compile path source = (.ok count, later)) :
    ∀ u ∈ later.units,
      u.classFile.fields.length ≤ 65535 ∧ Attribute.ListFits u.classFile.attributes ∧
      (∀ f ∈ u.classFile.fields, Attribute.ListFits f.attributes) ∧
      (∀ m ∈ u.classFile.methods, Attribute.ListFits m.layout.attributes ∧
        ∀ code ∈ m.code, Attribute.ListFits code.attributes) ∧
      ((∀ k ∈ u.classFile.pool.constants, k.Fits) → u.classFile.interfaces.length ≤ 65535 →
        u.classFile.methods.length ≤ 65535 →
          Reader.classFile u.bytes = some (u.classFile.record, [])) := by
  intro u member
  obtain ⟨accepted, comes⟩ := compile_comes compiled
  obtain ⟨packages, -, known⟩ := Program.ofSource_accepted accepted
  obtain ⟨d, among, come⟩ := exists_left_of_forall₂ comes member
  obtain ⟨valid, -⟩ := Program.assemble_holds come.assembled
  have fields : u.classFile.fields.length ≤ 65535 := by
    have verified := come.verified
    simp only [ClassFile.verify, bind_eq_ok] at verified
    obtain ⟨_, -, _, -, _, -, _, -, _, -, _, -, _, checked, -⟩ := verified
    exact Nat.le_trans (come.holds.fields_le (known.sound d among).fields checked) valid.room
  have attributes : Attribute.ListFits u.classFile.attributes := by
    obtain ⟨-, ⟨-, few, short⟩, -⟩ := Program.assemble_holds come.assembled
    refine ⟨Nat.le_trans few (by omega), fun a among => ?_⟩
    rw [short a among]
    omega
  have ofField : ∀ f ∈ u.classFile.fields, Attribute.ListFits f.attributes :=
    fun f among => (come.holds.brief_fields f among).fits
  refine ⟨fields, attributes, ofField, fun m => come.method_fits, fun constants interfaces methods => ?_⟩
  apply ClassFile.read_of_valid valid
  exact ⟨interfaces, fields, methods, constants, attributes, ofField, fun m among => (come.method_fits among).1,
    fun m among => (come.method_fits among).2⟩

theorem Session.compile_sizes_constants : ∃ later,
    ({} : Session).compile ⟨"F.k"⟩ ("\n".intercalate [
      "class T \x7b", "long a = 5l", "String b = \"é😀\"", "\x7d"]) = (.ok 1, later) ∧
      ∀ u ∈ later.units, Reader.classFile u.bytes = some (u.classFile.record, []) := by
  generalize written : "\n".intercalate _ = source
  obtain ⟨later, compiled, fits⟩ : ∃ later, ({} : Session).compile ⟨"F.k"⟩ source = (.ok 1, later) ∧
      ∀ u ∈ later.units, (∀ k ∈ u.classFile.pool.constants, k.Fits) ∧ u.classFile.interfaces.length ≤ 65535 ∧
        u.classFile.methods.length ≤ 65535 := compile_returns written (by decide +kernel)
  refine ⟨later, compiled, fun u member => ?_⟩
  obtain ⟨constants, interfaces, methods⟩ := fits u member
  exact (compile_sizes compiled u member).2.2.2.2 constants interfaces methods

end ClassForge
