import ClassForge.Assembly.Class

set_option autoImplicit false

namespace ClassForge.Assembly.Enumeration

def base : String := "java/lang/Enum"

def valuesField : String := "$VALUES"

def constructorType : MethodDescriptor :=
  .of [.string, .int] .void

def valuesCode (t : Target) : Build CodeAttribute :=
  Gen.method 0 do
    let all := t.selfType.arrayOf
    let field ← Gen.pooled (.fieldRef t.self valuesField all.text)
    Gen.emit (.field .getstatic field 1)
    let clone ← Gen.pooled (.methodRef all.text "clone" (MethodDescriptor.of [] .object).text)
    Gen.emit (.invoke .invokevirtual clone 0 1)
    let array ← Gen.pooled (.classRef all.text)
    Gen.emit (.opWord .checkcast array)
    Gen.emit (.ret .reference)

def valueOfCode (t : Target) : Build CodeAttribute :=
  Gen.method 1 do
    let self ← Gen.pooled (.classRef t.self)
    Gen.emit (.constant self 1)
    Gen.emit (.load .reference 0)
    let type := MethodDescriptor.of [.ofClass "java/lang/Class", .string] (.ofClass base)
    let valueOf ← Gen.pooled (.methodRef base "valueOf" type.text)
    Gen.emit (.invoke .invokestatic valueOf 2 1)
    Gen.emit (.opWord .checkcast self)
    Gen.emit (.ret .reference)

def constructorCode : Build CodeAttribute :=
  Gen.method 3 do
    Gen.emit (.load .reference 0)
    Gen.emit (.load .reference 1)
    Gen.emit (.load .int 2)
    let init ← Gen.pooled (.methodRef base constructorName constructorType.text)
    Gen.emit (.invoke .invokespecial init 2 0)
    Gen.emit (.ret .void)

def construct (t : Target) (self init : UInt16) (value : String) (ordinal : Nat) : Gen UInt16 := do
  let field ← Gen.pooled (.fieldRef t.self value t.selfType.text)
  Gen.emit (.opWord .new self)
  Gen.emit (.op .dup)
  let name ← Gen.pooled (.string value)
  Gen.emit (.constant name 1)
  Gen.pushInt ordinal
  Gen.emit (.invoke .invokespecial init 2 0)
  Gen.emit (.field .putstatic field 1)
  return field

def collect (field : UInt16) (ordinal : Nat) : Gen Unit := do
  Gen.emit (.op .dup)
  Gen.pushInt ordinal
  Gen.emit (.field .getstatic field 1)
  Gen.emit (.op .aastore)

def staticInitCode (t : Target) (values : List String) : Build CodeAttribute :=
  Gen.method 0 do
    let self ← Gen.pooled (.classRef t.self)
    let init ← Gen.pooled (.methodRef t.self constructorName constructorType.text)
    let fields ← values.zipIdx.mapM (fun (value, ordinal) => construct t self init value ordinal)
    Gen.pushInt fields.length
    Gen.emit (.opWord .anewarray self)
    fields.zipIdx.forM (fun (field, ordinal) => collect field ordinal)
    let all ← Gen.pooled (.fieldRef t.self valuesField t.selfType.arrayOf.text)
    Gen.emit (.field .putstatic all 1)
    Gen.emit (.ret .void)

def contents (t : Target) (values : List String) : Build Contents := do
  let visible := AccessFlags.isPublic ||| AccessFlags.isStatic
  let hidden := AccessFlags.isPrivate ||| AccessFlags.isStatic
  let head ← Build.header t.self base []
  let attributes ← Build.signature t.options
    (some ("L" ++ base ++ "<" ++ t.selfType.text ++ ">;"))
  let valueFields ← values.mapM (fun value =>
    Build.field t.options (visible ||| AccessFlags.isFinal ||| AccessFlags.isEnum) value t.selfType none)
  let arrayField ← Build.field t.options (hidden ||| AccessFlags.isFinal ||| AccessFlags.isSynthetic)
    valuesField t.selfType.arrayOf none
  let code ← valuesCode t
  let valuesMethod ← Build.method t.options visible "values"
    (.of [] t.selfType.arrayOf) (some code) none
  let code ← valueOfCode t
  let valueOf ← Build.method t.options visible "valueOf" (.of [.string] t.selfType) (some code) none
  let code ← constructorCode
  let init ← Build.method t.options AccessFlags.isPrivate constructorName constructorType
    (some code) none
  let code ← staticInitCode t values
  let staticInit ← Build.method t.options AccessFlags.isStatic staticInitName noArguments
    (some code) none
  return { head with
    fields := valueFields ++ [arrayField]
    methods := [valuesMethod, valueOf, init, staticInit]
    attributes }

end ClassForge.Assembly.Enumeration
