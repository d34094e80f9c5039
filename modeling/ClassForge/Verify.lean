import Std.Data.TreeSet
import ClassForge.ClassFile.Basic
import ClassForge.ClassFile.Flags
import ClassForge.CodeBuffer
import ClassForge.Instruction

set_option autoImplicit false

namespace ClassForge

abbrev MemberKeys := Std.TreeSet (String × String) (compareLex (compareOn Prod.fst) (compareOn Prod.snd))

namespace Constant

def isUtf8 : Constant → Bool
  | .utf8 _ => true
  | _ => false

def isClassRef : Constant → Bool
  | .classRef _ => true
  | _ => false

def isNameAndType : Constant → Bool
  | .nameAndType .. => true
  | _ => false

end Constant

def require (condition : Bool) (error : VerifyError) : Except VerifyError Unit :=
  if condition then .ok () else .error error

namespace ConstantPool

def checkTarget (pool : ConstantPool) (owner : Nat) (target : UInt16) (isKind : Constant → Bool) :
    Except VerifyError Unit :=
  match pool.get? target with
  | some c => require (isKind c) (.poolIndexType owner)
  | none => .error (.poolIndex owner)

def checkEntry (pool : ConstantPool) (index : Nat) : Constant → Except VerifyError Unit
  | .classRef name => pool.checkTarget index name Constant.isUtf8
  | .string text => pool.checkTarget index text Constant.isUtf8
  | .nameAndType name descriptor => do
    pool.checkTarget index name Constant.isUtf8
    pool.checkTarget index descriptor Constant.isUtf8
  | .fieldRef owner member => checkMember owner member
  | .methodRef owner member => checkMember owner member
  | .interfaceMethodRef owner member => checkMember owner member
  | _ => .ok ()
where
  checkMember (owner member : UInt16) : Except VerifyError Unit := do
    pool.checkTarget index owner Constant.isClassRef
    pool.checkTarget index member Constant.isNameAndType

def verify (pool : ConstantPool) : Except VerifyError Unit := do
  require (pool.count ≤ 65535) (.poolTooLarge pool.count)
  pool.entries.forM (fun (index, c) => pool.checkEntry index c)

def checkText (pool : ConstantPool) (index : UInt16) : Except VerifyError String :=
  match pool.get? index with
  | some (.utf8 text) => .ok text
  | some _ => .error (.poolIndexType index.toNat)
  | none => .error (.poolIndex index.toNat)

end ConstantPool

namespace AccessFlags

def isSingleAccess (flags : UInt16) : Bool :=
  ([isPublic, isProtected, isPrivate].filter (has flags)).length ≤ 1

def verifyClass (flags : UInt16) : Except VerifyError Unit := do
  require (!has flags (isPrivate ||| isProtected)) (.classAccess flags)
  if has flags isInterface then
    require (has flags isAbstract) (.interfaceNotAbstract flags)
    require (!has flags (isFinal ||| isSuper ||| isEnum)) (.interfaceFlags flags)
  else
    require (!(has flags isFinal && has flags isAbstract)) (.finalAndAbstract flags)

def verifyField (flags : UInt16) : Except VerifyError Unit :=
  require (isSingleAccess flags && !(has flags isFinal && has flags isVolatile)) (.fieldFlags flags)

def verifyMethod (classFlags flags : UInt16) : Except VerifyError Unit := do
  require (isSingleAccess flags) (.methodAccess flags)
  if has flags isAbstract then
    let excluded := isPrivate ||| isStatic ||| isFinal ||| isSynchronized ||| isNative ||| isStrict
    require (!has flags excluded) (.abstractMethodFlags flags)
  if has classFlags isInterface then
    require (has flags isPublic && has flags isAbstract) (.interfaceMethodFlags flags)

end AccessFlags

def Opcode.returnName (op : Opcode) : String :=
  if op = .ireturn then "ireturn"
  else if op = .lreturn then "lreturn"
  else if op = .freturn then "freturn"
  else if op = .dreturn then "dreturn"
  else if op = .areturn then "areturn"
  else "return"

namespace CodeAttribute

def verify (c : CodeAttribute) (name : String) (d : MethodDescriptor) (isStatic : Bool) :
    Except VerifyError Unit := do
  match d.split? with
  | none => throw (.methodDescriptor d.text)
  | some (params, returns) =>
    let needed := (if isStatic then 0 else 1) + Descriptor.totalWidth params
    require (needed ≤ c.maxLocals.toNat) (.maxLocals name c.maxLocals.toNat needed)
    match Instruction.decode c.code with
    | .error error => throw (.code name error)
    | .ok instructions =>
      let expected := returns.kind.returnOpcode
      instructions.forM (fun i =>
        require (!i.opcode.isReturn || i.opcode = expected)
          (.returnOpcode expected.returnName i.opcode.returnName))

end CodeAttribute

def MethodInfo.verifyCode (m : MethodInfo) (name : String) (d : MethodDescriptor) :
    Except VerifyError Unit :=
  if AccessFlags.has m.flags (AccessFlags.isAbstract ||| AccessFlags.isNative) then
    require m.code.isNone (.forbiddenCode name)
  else
    match m.code with
    | none => .error (.missingCode name)
    | some code => code.verify name d (AccessFlags.has m.flags AccessFlags.isStatic)

namespace ClassFile

def checkClass (c : ClassFile) (role : String) (index : UInt16) : Except VerifyError Unit :=
  require ((c.pool.get? index).any Constant.isClassRef) (.classIndex role index.toNat)

def verifyFields (c : ClassFile) (seen : MemberKeys) : List FieldInfo → Except VerifyError Unit
  | [] => .ok ()
  | f :: rest => do
    let name ← c.pool.checkText f.name
    let descriptor ← c.pool.checkText f.descriptor
    AccessFlags.verifyField f.flags
    require (!seen.contains (name, descriptor)) (.duplicateField name)
    verifyFields c (seen.insert (name, descriptor)) rest

def verifyMethods (c : ClassFile) (seen : MemberKeys) : List MethodInfo → Except VerifyError Unit
  | [] => .ok ()
  | m :: rest => do
    AccessFlags.verifyMethod c.flags m.flags
    let name ← c.pool.checkText m.name
    let descriptor ← c.pool.checkText m.descriptor
    require (!seen.contains (name, descriptor)) (.duplicateMethod name descriptor)
    m.verifyCode name ⟨descriptor⟩
    verifyMethods c (seen.insert (name, descriptor)) rest

def verify (c : ClassFile) : Except VerifyError Unit := do
  require (48 ≤ c.major && c.major ≤ 52) (.unsupportedVersion c.major.toNat)
  c.pool.verify
  AccessFlags.verifyClass c.flags
  c.checkClass "this" c.thisClass
  c.checkClass "super" c.superClass
  c.interfaces.forM (c.checkClass "interface")
  c.verifyFields {} c.fields
  c.verifyMethods {} c.methods

def verified (c : ClassFile) : Except Cause Unit :=
  match c.verify with
  | .ok () => .ok ()
  | .error error => .error (.verify (c.thisName?.getD "<unknown>") error)

end ClassFile

end ClassForge
