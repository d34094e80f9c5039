import ClassForge.Proofs.Decoding
import ClassForge.Proofs.PoolHistory
import ClassForge.Proofs.TextReading

set_option autoImplicit false

namespace ClassForge

abbrev Reader (α : Type) := StateT (List UInt8) Option α

namespace Reader

def byte : Reader UInt8 := fun
  | a :: rest => some (a, rest)
  | [] => none

def u2 : Reader UInt16 := do
  return Bytes.toU2 (← byte) (← byte)

def u4 : Reader UInt32 := do
  return Bytes.toU4 (← byte) (← byte) (← byte) (← byte)

def u8 : Reader UInt64 := do
  return ((← u4).toUInt64 <<< 32) ||| (← u4).toUInt64

def take (n : Nat) : Reader (List UInt8) := fun bytes =>
  Bytes.splitExactly n bytes

def repeated {α : Type} (one : Reader α) : Nat → Reader (List α)
  | 0 => return []
  | n + 1 => return (← one) :: (← repeated one n)

def counted {α : Type} (one : Reader α) : Reader (List α) := do
  repeated one (← u2).toNat

def text (length : Nat) : Reader String := do
  Text.read (← take length)

def constant : Reader Constant := do
  let tag ← byte
  if tag = 1 then
    return .utf8 (← text (← u2).toNat)
  else if tag = 3 then return .integer (← u4).toInt32
  else if tag = 4 then return .float (← u4)
  else if tag = 5 then return .long (← u8).toInt64
  else if tag = 6 then return .double (← u8)
  else if tag = 7 then return .classRef (← u2)
  else if tag = 8 then return .string (← u2)
  else if tag = 9 then return .fieldRef (← u2) (← u2)
  else if tag = 10 then return .methodRef (← u2) (← u2)
  else if tag = 11 then return .interfaceMethodRef (← u2) (← u2)
  else if tag = 12 then return .nameAndType (← u2) (← u2)
  else failure

-- Constants by index. A long or double constant takes two indices, and the second is empty.
def constants : Nat → Reader (List (Option Constant))
  | 0 => return []
  | n + 1 => do
    let c ← constant
    if c.width = 2 then
      match n with
      | 0 => failure
      | n + 1 => return some c :: none :: (← constants n)
    else return some c :: (← constants n)

def attributeInfo : Reader Attribute := do
  let name ← u2
  let info ← take (← u4).toNat
  return { name, info }

def member : Reader FieldInfo := do
  let flags ← u2
  let name ← u2
  let descriptor ← u2
  let attributes ← counted attributeInfo
  return { flags, name, descriptor, attributes }

def code (name : UInt16) : Reader CodeAttribute := do
  let maxStack ← u2
  let maxLocals ← u2
  let code ← take (← u4).toNat
  guard ((← u2) = 0)
  let attributes ← counted attributeInfo
  return { name, maxStack, maxLocals, code, attributes }

end Reader

structure ClassRecord where
  magic : UInt32
  minor : UInt16
  major : UInt16
  constants : List (Option Constant)
  flags : UInt16
  thisClass : UInt16
  superClass : UInt16
  interfaces : List UInt16
  fields : List FieldInfo
  -- The code of a method is still one of its attributes.
  methods : List FieldInfo
  attributes : List Attribute
  deriving DecidableEq

def Reader.classFile : Reader ClassRecord := do
  let magic ← u4
  let minor ← u2
  let major ← u2
  let constants ← constants ((← u2).toNat - 1)
  let flags ← u2
  let thisClass ← u2
  let superClass ← u2
  let interfaces ← counted u2
  let fields ← counted member
  let methods ← counted member
  let attributes ← counted attributeInfo
  return { magic, minor, major, constants, flags, thisClass, superClass, interfaces, fields, methods, attributes }

def Constant.Fits (c : Constant) : Prop :=
  (Text.modifiedUtf8 c.text).length ≤ 65535

instance (c : Constant) : Decidable c.Fits :=
  inferInstanceAs (Decidable (_ ≤ _))

def Attribute.ListFits (attributes : List Attribute) : Prop :=
  attributes.length ≤ 65535 ∧ ∀ a ∈ attributes, a.info.length < 4294967296

instance (attributes : List Attribute) : Decidable (Attribute.ListFits attributes) :=
  inferInstanceAs (Decidable (_ ∧ _))

-- The reader takes these bytes, whatever follows them, and reads this.
def Reader.Reads {α : Type} (reader : Reader α) (bytes : List UInt8) (a : α) : Prop :=
  ∀ rest, reader (bytes ++ rest) = some (a, rest)

namespace Reader

section Combinators

variable {α β : Type} {reader : Reader α} {bytes more : List UInt8} {a : α} {b : β} {f : α → List UInt8} {list : List α}

theorem reads_pure (a : α) : (pure a : Reader α).Reads [] a :=
  fun _ => rfl

theorem Reads.bind {next : α → Reader β} (first : reader.Reads bytes a) (second : (next a).Reads more b) :
    (reader >>= next).Reads (bytes ++ more) b := by
  intro rest
  change (reader _).bind _ = _
  rw [List.append_assoc, first]
  exact second rest

theorem Reads.last {f : α → β} (first : reader.Reads bytes a) : (reader >>= fun a => pure (f a)).Reads bytes (f a) := by
  intro rest
  change (reader _).bind _ = _
  rw [first]
  rfl

theorem reads_byte (value : UInt8) : byte.Reads [value] value :=
  fun _ => rfl

theorem reads_u2 (value : UInt16) : u2.Reads (Bytes.u2 value) value := by
  intro rest
  conv_rhs => rw [← Bytes.toU2_u2 value]
  rfl

theorem reads_u4 (value : UInt32) : u4.Reads (Bytes.u4 value) value := by
  intro rest
  conv_rhs => rw [← Bytes.toU4_u4 value]
  rfl

theorem reads_u8 (value : UInt64) : u8.Reads (Bytes.u8 value) value := by
  have joined : (value >>> 32).toUInt32.toUInt64 <<< 32 ||| value.toUInt32.toUInt64 = value := by
    have bound := value.toNat_lt
    apply UInt64.toNat.inj
    rw [UInt64.toNat_or, UInt64.toNat_shiftLeft, UInt32.toNat_toUInt64, UInt32.toNat_toUInt64,
      UInt64.toNat_toUInt32, UInt64.toNat_toUInt32, UInt64.toNat_shiftRight]
    change (value.toNat >>> 32 % 2 ^ 32) <<< 32 % 2 ^ 64 ||| value.toNat % 2 ^ 32 = _
    rw [Nat.shiftRight_eq_div_pow, Nat.shiftLeft_eq, Nat.mod_eq_of_lt (by omega), Nat.mod_eq_of_lt (by omega),
      Nat.mul_comm, ← Nat.two_pow_add_eq_or_of_lt (Nat.mod_lt _ (by omega))]
    omega
  have both : u8.Reads (Bytes.u8 value) ((value >>> 32).toUInt32.toUInt64 <<< 32 ||| value.toUInt32.toUInt64) :=
    (reads_u4 _).bind (reads_u4 _).last
  rwa [joined] at both

theorem reads_take (bytes : List UInt8) : (take bytes.length).Reads bytes bytes := by
  intro rest
  induction bytes with
  | nil => rfl
  | cons first bytes ih =>
    simp only [take] at ih
    simp [take, Bytes.splitExactly, ih]

theorem reads_repeated (each : ∀ a ∈ list, reader.Reads (f a) a) :
    (repeated reader list.length).Reads (list.flatMap f) list := by
  induction list with
  | nil => exact reads_pure []
  | cons first rest ih =>
    obtain ⟨head, tail⟩ := List.forall_mem_cons.1 each
    exact head.bind (ih tail).last

theorem reads_counted (few : list.length ≤ 65535) (each : ∀ a ∈ list, reader.Reads (f a) a) :
    (counted reader).Reads (Bytes.u2 (UInt16.ofNat list.length) ++ list.flatMap f) list := by
  refine (reads_u2 _).bind ?_
  rw [UInt16.toNat_ofNat', Nat.mod_eq_of_lt (by omega)]
  exact reads_repeated each

end Combinators

theorem reads_text (value : String) :
    (text (Text.modifiedUtf8 value).length).Reads (Text.modifiedUtf8 value) value := by
  intro rest
  change (take _ _).bind _ = _
  rw [reads_take, Option.bind_some]
  dsimp only
  rw [Text.read_modifiedUtf8]
  rfl

theorem reads_constant {c : Constant} (fits : c.Fits) : constant.Reads c.bytes c := by
  refine (reads_byte c.tag).bind ?_
  cases c with
  | utf8 text =>
    have length : (UInt16.ofNat (Text.modifiedUtf8 text).length).toNat = (Text.modifiedUtf8 text).length := by
      rw [UInt16.toNat_ofNat']
      exact Nat.mod_eq_of_lt (Nat.lt_succ_of_le fits)
    refine (reads_u2 _).bind ?_
    rw [length]
    exact (reads_text text).last
  | integer value | float bits => exact (reads_u4 _).last
  | long value | double bits => exact (reads_u8 _).last
  | classRef name | string text => exact (reads_u2 _).last
  | fieldRef owner member | methodRef owner member | interfaceMethodRef owner member | nameAndType name descriptor =>
    exact (reads_u2 _).bind (reads_u2 _).last

theorem reads_constants {list : List Constant} (fits : ∀ c ∈ list, c.Fits) :
    (constants (list.flatMap Constant.span).length).Reads (list.flatMap Constant.bytes)
      (list.flatMap Constant.span) := by
  induction list with
  | nil => exact reads_pure []
  | cons c rest ih =>
    have first := reads_constant (fits c List.mem_cons_self)
    have others := ih fun c member => fits c (List.mem_cons_of_mem _ member)
    rw [List.flatMap_cons, List.flatMap_cons, List.length_append, Nat.add_comm, Constant.span]
    by_cases wide : c.width = 2
    · rw [if_pos wide]
      refine first.bind ?_
      rw [if_pos wide]
      exact others.last
    · rw [if_neg wide, constants.eq_def]
      refine first.bind ?_
      rw [if_neg wide]
      exact others.last

theorem reads_attribute {a : Attribute} (small : a.info.length < 4294967296) : attributeInfo.Reads a.bytes a := by
  have length : (UInt32.ofNat a.info.length).toNat = a.info.length := by
    rw [UInt32.toNat_ofNat']
    exact Nat.mod_eq_of_lt small
  rw [Attribute.bytes, List.append_assoc]
  refine (reads_u2 _).bind ((reads_u4 _).bind ?_)
  rw [length]
  exact (reads_take _).last

theorem reads_attributes {attributes : List Attribute} (fits : Attribute.ListFits attributes) :
    (counted attributeInfo).Reads (Attribute.listBytes attributes) attributes :=
  reads_counted fits.1 fun a member => reads_attribute (fits.2 a member)

theorem reads_member {f : FieldInfo} (fits : Attribute.ListFits f.attributes) : member.Reads f.bytes f := by
  rw [FieldInfo.bytes, List.append_assoc, List.append_assoc]
  exact (reads_u2 _).bind ((reads_u2 _).bind ((reads_u2 _).bind (reads_attributes fits).last))

theorem reads_code {c : CodeAttribute} (small : c.code.length < 4294967296)
    (fits : Attribute.ListFits c.attributes) : (code c.name).Reads c.info c := by
  have length : (UInt32.ofNat c.code.length).toNat = c.code.length := by
    rw [UInt32.toNat_ofNat']
    exact Nat.mod_eq_of_lt small
  simp only [CodeAttribute.info, List.append_assoc]
  refine (reads_u2 _).bind ((reads_u2 _).bind ((reads_u4 _).bind ?_))
  rw [length]
  exact (reads_take _).bind ((reads_u2 0).bind (reads_attributes fits).last)

end Reader

def CodeAttribute.toAttribute (c : CodeAttribute) : Attribute :=
  { name := c.name, info := c.info }

def Attribute.code? (a : Attribute) : Option CodeAttribute :=
  match Reader.code a.name a.info with
  | some (code, []) => some code
  | _ => none

namespace MethodInfo

def layout (m : MethodInfo) : FieldInfo :=
  { flags := m.flags, name := m.name, descriptor := m.descriptor
    attributes := m.code.toList.map CodeAttribute.toAttribute ++ m.attributes }

theorem bytes_layout (m : MethodInfo) : m.layout.bytes = m.bytes := by
  cases code : m.code with
  | none => simp [layout, FieldInfo.bytes, bytes, Attribute.listBytes, code]
  | some c =>
    simp [layout, FieldInfo.bytes, bytes, Attribute.listBytes, code, CodeAttribute.bytes, CodeAttribute.toAttribute]

def ofLayout? (name? : UInt16 → Option String) (f : FieldInfo) : Option MethodInfo :=
  let isCode (a : Attribute) : Bool := name? a.name = some "Code"
  match f.attributes.filter isCode with
  | [] => some { flags := f.flags, name := f.name, descriptor := f.descriptor, attributes := f.attributes }
  | [a] => do
    let code ← a.code?
    return { flags := f.flags, name := f.name, descriptor := f.descriptor, code
             attributes := f.attributes.filter (!isCode ·) }
  | _ => none

end MethodInfo

namespace ClassRecord

def name? (r : ClassRecord) (index : UInt16) : Option String :=
  if index = 0 then none
  else match (r.constants[index.toNat - 1]?).join with
    | some (.utf8 text) => some text
    | _ => none

theorem name?_eq_some_iff {r : ClassRecord} {index : UInt16} {text : String} :
    r.name? index = some text ↔ 0 < index.toNat ∧ r.constants[index.toNat - 1]? = some (some (.utf8 text)) := by
  unfold name?
  by_cases zero : index = 0
  · simp [zero]
  · have positive : 0 < index.toNat := by
      by_contra none
      exact zero (UInt16.toNat.inj (by simpa using none))
    rw [if_neg zero, ← Option.join_eq_some_iff]
    generalize (r.constants[index.toNat - 1]?).join = found
    cases found with
    | none => simp
    | some c => cases c <;> simp [positive]

def methods? (r : ClassRecord) : Option (List MethodInfo) :=
  r.methods.mapM (MethodInfo.ofLayout? r.name?)

end ClassRecord

namespace ClassFile

def record (c : ClassFile) : ClassRecord :=
  { magic := c.magic, minor := c.minor, major := c.major, constants := c.pool.slots.toList
    flags := c.flags, thisClass := c.thisClass, superClass := c.superClass, interfaces := c.interfaces
    fields := c.fields, methods := c.methods.map MethodInfo.layout, attributes := c.attributes }

structure Fits (c : ClassFile) : Prop where
  interfaces : c.interfaces.length ≤ 65535
  fields : c.fields.length ≤ 65535
  methods : c.methods.length ≤ 65535
  constants : ∀ k ∈ c.pool.constants, k.Fits
  attributes : Attribute.ListFits c.attributes
  ofField : ∀ f ∈ c.fields, Attribute.ListFits f.attributes
  ofMethod : ∀ m ∈ c.methods, Attribute.ListFits m.layout.attributes
  ofCode : ∀ m ∈ c.methods, ∀ code ∈ m.code, Attribute.ListFits code.attributes

def NamesCode (c : ClassFile) : Prop :=
  ∀ m ∈ c.methods, (∀ code ∈ m.code, c.pool.utf8? code.name = some "Code") ∧
    ∀ a ∈ m.attributes, c.pool.utf8? a.name ≠ some "Code"

variable {c : ClassFile}

theorem reads_classFile (valid : c.pool.Valid) (fits : c.Fits) : Reader.classFile.Reads c.bytes c.record := by
  have room := valid.room
  have count : (UInt16.ofNat c.pool.count).toNat - 1 = (c.pool.constants.flatMap Constant.span).length := by
    rw [← valid.spans, Array.length_toList, UInt16.toNat_ofNat', ConstantPool.count]
    omega
  have methods : (Reader.counted Reader.member).Reads
      (Bytes.u2 (UInt16.ofNat c.methods.length) ++ c.methods.flatMap MethodInfo.bytes)
      (c.methods.map MethodInfo.layout) := by
    have laid : c.methods.flatMap MethodInfo.bytes = (c.methods.map MethodInfo.layout).flatMap FieldInfo.bytes := by
      rw [List.flatMap_map]
      exact List.flatMap_congr fun m _ => m.bytes_layout.symm
    rw [laid, ← List.length_map (f := MethodInfo.layout)]
    refine Reader.reads_counted (by simpa using fits.methods) ?_
    rw [List.forall_mem_map]
    exact fun m member => Reader.reads_member (fits.ofMethod m member)
  have parts : c.bytes = Bytes.u4 c.magic ++ (Bytes.u2 c.minor ++ (Bytes.u2 c.major ++
      (Bytes.u2 (UInt16.ofNat c.pool.count) ++ (c.pool.constants.flatMap Constant.bytes ++
      (Bytes.u2 c.flags ++ (Bytes.u2 c.thisClass ++ (Bytes.u2 c.superClass ++
      ((Bytes.u2 (UInt16.ofNat c.interfaces.length) ++ c.interfaces.flatMap Bytes.u2) ++
      ((Bytes.u2 (UInt16.ofNat c.fields.length) ++ c.fields.flatMap FieldInfo.bytes) ++
      ((Bytes.u2 (UInt16.ofNat c.methods.length) ++ c.methods.flatMap MethodInfo.bytes) ++
      Attribute.listBytes c.attributes)))))))))) := by
    simp only [bytes, ConstantPool.bytes, List.append_assoc]
  rw [parts]
  refine (Reader.reads_u4 _).bind ((Reader.reads_u2 _).bind ((Reader.reads_u2 _).bind ((Reader.reads_u2 _).bind ?_)))
  rw [count]
  refine (Reader.reads_constants fits.constants).bind ?_
  rw [← valid.spans]
  refine (Reader.reads_u2 _).bind ((Reader.reads_u2 _).bind ((Reader.reads_u2 _).bind ?_))
  refine (Reader.reads_counted fits.interfaces fun i _ => Reader.reads_u2 i).bind ?_
  refine (Reader.reads_counted fits.fields fun f member => Reader.reads_member (fits.ofField f member)).bind ?_
  exact methods.bind (Reader.reads_attributes fits.attributes).last

theorem read_of_valid (valid : c.pool.Valid) (fits : c.Fits) : Reader.classFile c.bytes = some (c.record, []) := by
  have read := reads_classFile valid fits []
  rwa [List.append_nil] at read

theorem code_toAttribute {code : CodeAttribute} (small : code.info.length < 4294967296)
    (fits : Attribute.ListFits code.attributes) : code.toAttribute.code? = some code := by
  have shorter : code.code.length ≤ code.info.length := by
    simp only [CodeAttribute.info, List.length_append]
    omega
  have read := Reader.reads_code (Nat.lt_of_le_of_lt shorter small) fits []
  rw [List.append_nil] at read
  simp only [Attribute.code?, CodeAttribute.toAttribute, read]

theorem ofLayout_layout {m : MethodInfo} {name? : UInt16 → Option String}
    (read : ∀ code ∈ m.code, code.toAttribute.code? = some code)
    (named : ∀ code ∈ m.code, name? code.name = some "Code") (others : ∀ a ∈ m.attributes, name? a.name ≠ some "Code") :
    MethodInfo.ofLayout? name? m.layout = some m := by
  have none : m.attributes.filter (fun a => name? a.name = some "Code") = [] := by
    rw [List.filter_eq_nil_iff]
    simpa using others
  have all : m.attributes.filter (fun a => !decide (name? a.name = some "Code")) = m.attributes := by
    rw [List.filter_eq_self]
    simpa using others
  obtain ⟨flags, name, descriptor, code, attributes⟩ := m
  cases code with
  | none => simp only [MethodInfo.ofLayout?, MethodInfo.layout, Option.toList_none, List.map_nil, List.nil_append, none]
  | some code =>
    have is := named code rfl
    have back := read code rfl
    have same : code.toAttribute.name = code.name := rfl
    simp only [MethodInfo.ofLayout?, MethodInfo.layout, Option.toList_some, List.map_cons, List.map_nil,
      List.singleton_append, List.filter_cons, same, is, none, all, decide_true, if_true, back]
    rfl

theorem name_record (c : ClassFile) : c.record.name? = c.pool.utf8? := by
  funext index
  apply Option.ext
  intro text
  rw [ConstantPool.utf8?_eq_some_iff, ConstantPool.get?_eq_some_iff, ClassRecord.name?_eq_some_iff]
  simp only [record, Array.getElem?_toList]

theorem mapM_layout {f : FieldInfo → Option MethodInfo} {methods : List MethodInfo}
    (each : ∀ m ∈ methods, f m.layout = some m) : (methods.map MethodInfo.layout).mapM f = some methods := by
  induction methods with
  | nil => rfl
  | cons m rest ih =>
    obtain ⟨head, tail⟩ := List.forall_mem_cons.1 each
    rw [List.map_cons, List.mapM_cons, head, ih tail]
    rfl

theorem read_bytes (requests : List PoolRequest) (built : c.pool = PoolRequest.run requests) (fits : c.Fits) :
    Reader.classFile c.bytes = some (c.record, []) ∧
      (∀ m ∈ c.methods, ∀ code ∈ m.code, code.toAttribute.code? = some code) ∧
      (c.NamesCode → c.record.methods? = some c.methods) := by
  have valid : c.pool.Valid := built ▸ (PoolRequest.run_tidy requests).toValid
  have codes (m : MethodInfo) (member : m ∈ c.methods) (code : CodeAttribute) (has : code ∈ m.code) :
      code.toAttribute.code? = some code := by
    apply code_toAttribute
    · apply (fits.ofMethod m member).2 code.toAttribute
      simp [MethodInfo.layout, Option.mem_def.1 has]
    · exact fits.ofCode m member code has
  refine ⟨?_, codes, fun names => ?_⟩
  · exact read_of_valid valid fits
  · rw [ClassRecord.methods?, name_record]
    apply mapM_layout
    intro m member
    exact ofLayout_layout (codes m member) (names m member).1 (names m member).2

def clock : ClassFile :=
  let pool := PoolRequest.run [.classRef "Clock", .utf8 "Code", .long 86400, .string "⏰🕰", .utf8 "run", .utf8 "()V"]
  { major := 49, pool, flags := 0x21, thisClass := 2, superClass := 0
    interfaces := [2]
    methods := [{ flags := 9, name := 8, descriptor := 9
                  code := some { name := 3, maxStack := 0, maxLocals := 0, code := [177] } }] }

theorem read_bytes_clock : Reader.classFile clock.bytes = some (clock.record, []) ∧
    clock.record.methods? = some clock.methods := by
  have fits : clock.Fits := by
    constructor <;> decide +kernel
  have names : clock.NamesCode := by
    unfold NamesCode
    decide +kernel
  obtain ⟨read, -, methods⟩ := read_bytes _ rfl fits
  exact ⟨read, methods names⟩

end ClassFile

end ClassForge
