import ClassForge.Decl.Basic

set_option autoImplicit false

namespace ClassForge.AccessFlags

def isPublic : UInt16 := 0x0001
def isPrivate : UInt16 := 0x0002
def isProtected : UInt16 := 0x0004
def isStatic : UInt16 := 0x0008
def isFinal : UInt16 := 0x0010
def isSuper : UInt16 := 0x0020
def isSynchronized : UInt16 := 0x0020
def isVolatile : UInt16 := 0x0040
def isTransient : UInt16 := 0x0080
def isNative : UInt16 := 0x0100
def isInterface : UInt16 := 0x0200
def isAbstract : UInt16 := 0x0400
def isStrict : UInt16 := 0x0800
def isSynthetic : UInt16 := 0x1000
def isEnum : UInt16 := 0x4000

def has (flags bits : UInt16) : Bool :=
  flags &&& bits ≠ 0

def ofAccess : Access → UInt16
  | .everyone => isPublic
  | .declarer => isPrivate
  | .family => isProtected
  | .package => 0

def bitsIf (m : Modifier) (flag : Flag) (bits : UInt16) : UInt16 :=
  if m.has flag then bits else 0

def ofMember (m : Modifier) : UInt16 :=
  ofAccess m.access ||| bitsIf m .final isFinal ||| bitsIf m .const isFinal |||
    bitsIf m .abstract isAbstract ||| bitsIf m .static isStatic |||
    bitsIf m .synchronized isSynchronized

def ofField (m : Modifier) : UInt16 :=
  ofMember m ||| bitsIf m .volatile isVolatile ||| bitsIf m .transient isTransient

def ofMethod (m : Modifier) : UInt16 :=
  ofMember m ||| bitsIf m .native isNative ||| bitsIf m .strict isStrict

-- Methods of an interface are public and abstract whatever they say.
def ofInterfaceMethod (m : Modifier) : UInt16 :=
  (ofMethod m &&& ~~~(isPrivate ||| isProtected)) ||| isPublic ||| isAbstract

def ofClass (m : Modifier) (shape : Shape) : UInt16 :=
  let access := if m.access = .everyone then isPublic else 0
  match shape with
  | .plainClass _ => access ||| isSuper ||| bitsIf m .final isFinal ||| bitsIf m .abstract isAbstract
  | .interface .. => access ||| isInterface ||| isAbstract
  | .enumeration _ => access ||| isSuper ||| isFinal ||| isEnum
  | .record _ => access ||| isSuper ||| isFinal

end ClassForge.AccessFlags
