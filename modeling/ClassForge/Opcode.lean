set_option autoImplicit false

namespace ClassForge

abbrev Opcode := UInt8

namespace Opcode

def nop : Opcode := 0x00
def aconstNull : Opcode := 0x01
def iconst0 : Opcode := 0x03
def iconst1 : Opcode := 0x04
def iconst5 : Opcode := 0x08
def lconst0 : Opcode := 0x09
def lconst1 : Opcode := 0x0a
def fconst0 : Opcode := 0x0b
def fconst2 : Opcode := 0x0d
def dconst0 : Opcode := 0x0e
def dconst1 : Opcode := 0x0f
def bipush : Opcode := 0x10
def sipush : Opcode := 0x11
def ldc : Opcode := 0x12
def ldcW : Opcode := 0x13
def ldc2W : Opcode := 0x14
def iload : Opcode := 0x15
def aload : Opcode := 0x19
def iload0 : Opcode := 0x1a
def aload0 : Opcode := 0x2a
def iaload : Opcode := 0x2e
def laload : Opcode := 0x2f
def daload : Opcode := 0x31
def saload : Opcode := 0x35
def istore : Opcode := 0x36
def astore : Opcode := 0x3a
def istore0 : Opcode := 0x3b
def iastore : Opcode := 0x4f
def lastore : Opcode := 0x50
def fastore : Opcode := 0x51
def dastore : Opcode := 0x52
def aastore : Opcode := 0x53
def bastore : Opcode := 0x54
def castore : Opcode := 0x55
def sastore : Opcode := 0x56
def pop : Opcode := 0x57
def pop2 : Opcode := 0x58
def dup : Opcode := 0x59
def iadd : Opcode := 0x60
def isub : Opcode := 0x64
def imul : Opcode := 0x68
def idiv : Opcode := 0x6c
def irem : Opcode := 0x70
def drem : Opcode := 0x73
def ineg : Opcode := 0x74
def ishl : Opcode := 0x78
def ishr : Opcode := 0x7a
def iushr : Opcode := 0x7c
def iand : Opcode := 0x7e
def ior : Opcode := 0x80
def ixor : Opcode := 0x82
def lxor : Opcode := 0x83
def iinc : Opcode := 0x84
def i2l : Opcode := 0x85
def i2f : Opcode := 0x86
def i2d : Opcode := 0x87
def l2i : Opcode := 0x88
def l2f : Opcode := 0x89
def l2d : Opcode := 0x8a
def f2i : Opcode := 0x8b
def f2l : Opcode := 0x8c
def f2d : Opcode := 0x8d
def d2i : Opcode := 0x8e
def d2l : Opcode := 0x8f
def d2f : Opcode := 0x90
def i2b : Opcode := 0x91
def i2c : Opcode := 0x92
def i2s : Opcode := 0x93
def lcmp : Opcode := 0x94
def fcmpl : Opcode := 0x95
def fcmpg : Opcode := 0x96
def dcmpl : Opcode := 0x97
def dcmpg : Opcode := 0x98
def ifeq : Opcode := 0x99
def ifne : Opcode := 0x9a
def iflt : Opcode := 0x9b
def ifge : Opcode := 0x9c
def ifgt : Opcode := 0x9d
def ifle : Opcode := 0x9e
def ifIcmpeq : Opcode := 0x9f
def ifIcmpne : Opcode := 0xa0
def ifIcmplt : Opcode := 0xa1
def ifIcmpge : Opcode := 0xa2
def ifIcmpgt : Opcode := 0xa3
def ifIcmple : Opcode := 0xa4
def ifAcmpeq : Opcode := 0xa5
def ifAcmpne : Opcode := 0xa6
def goto : Opcode := 0xa7
def jsr : Opcode := 0xa8
def ret : Opcode := 0xa9
def tableswitch : Opcode := 0xaa
def lookupswitch : Opcode := 0xab
def ireturn : Opcode := 0xac
def lreturn : Opcode := 0xad
def freturn : Opcode := 0xae
def dreturn : Opcode := 0xaf
def areturn : Opcode := 0xb0
def vreturn : Opcode := 0xb1
def getstatic : Opcode := 0xb2
def putstatic : Opcode := 0xb3
def getfield : Opcode := 0xb4
def putfield : Opcode := 0xb5
def invokevirtual : Opcode := 0xb6
def invokespecial : Opcode := 0xb7
def invokestatic : Opcode := 0xb8
def invokeinterface : Opcode := 0xb9
def invokedynamic : Opcode := 0xba
def new : Opcode := 0xbb
def newarray : Opcode := 0xbc
def anewarray : Opcode := 0xbd
def arraylength : Opcode := 0xbe
def athrow : Opcode := 0xbf
def checkcast : Opcode := 0xc0
def instanceof : Opcode := 0xc1
def monitorenter : Opcode := 0xc2
def monitorexit : Opcode := 0xc3
def wide : Opcode := 0xc4
def multianewarray : Opcode := 0xc5
def ifnull : Opcode := 0xc6
def ifnonnull : Opcode := 0xc7
def gotoW : Opcode := 0xc8
def jsrW : Opcode := 0xc9

def isIn (op low high : Opcode) : Bool :=
  low ≤ op && op ≤ high

def isBranch (op : Opcode) : Bool :=
  op.isIn ifeq jsr || op.isIn ifnull ifnonnull

def isReturn (op : Opcode) : Bool :=
  op.isIn ireturn vreturn

def stackEffects : List ((Opcode × Opcode) × (Nat × Nat)) := [
  ((nop, nop), (0, 0)), ((aconstNull, iconst5), (0, 1)), ((lconst0, lconst1), (0, 2)),
  ((fconst0, fconst2), (0, 1)), ((dconst0, dconst1), (0, 2)), ((bipush, sipush), (0, 1)),
  ((iload, iload), (0, 1)), ((0x16, 0x16), (0, 2)), ((0x17, 0x17), (0, 1)), ((0x18, 0x18), (0, 2)),
  ((aload, aload), (0, 1)), ((iload0, 0x1d), (0, 1)), ((0x1e, 0x21), (0, 2)), ((0x22, 0x25), (0, 1)),
  ((0x26, 0x29), (0, 2)), ((aload0, 0x2d), (0, 1)),
  ((laload, laload), (2, 2)), ((daload, daload), (2, 2)), ((iaload, saload), (2, 1)),
  ((istore, istore), (1, 0)), ((0x37, 0x37), (2, 0)), ((0x38, 0x38), (1, 0)), ((0x39, 0x39), (2, 0)),
  ((astore, astore), (1, 0)), ((istore0, 0x3e), (1, 0)), ((0x3f, 0x42), (2, 0)), ((0x43, 0x46), (1, 0)),
  ((0x47, 0x4a), (2, 0)), ((0x4b, 0x4e), (1, 0)),
  ((lastore, lastore), (4, 0)), ((dastore, dastore), (4, 0)), ((iastore, sastore), (3, 0)),
  ((pop, pop), (1, 0)), ((pop2, pop2), (2, 0)), ((dup, dup), (1, 2)), ((0x5a, 0x5a), (2, 3)),
  ((0x5b, 0x5b), (3, 4)), ((0x5c, 0x5c), (2, 4)), ((0x5d, 0x5d), (3, 5)), ((0x5e, 0x5e), (4, 6)),
  ((0x5f, 0x5f), (2, 2)),
  ((ineg, ineg), (1, 1)), ((0x75, 0x75), (2, 2)), ((0x76, 0x76), (1, 1)), ((0x77, 0x77), (2, 2)),
  ((ishl, ishl), (2, 1)), ((0x79, 0x79), (3, 2)), ((ishr, ishr), (2, 1)), ((0x7b, 0x7b), (3, 2)),
  ((iushr, iushr), (2, 1)), ((0x7d, 0x7d), (3, 2)), ((iand, iand), (2, 1)), ((0x7f, 0x7f), (4, 2)),
  ((ior, ior), (2, 1)), ((0x81, 0x81), (4, 2)), ((ixor, ixor), (2, 1)), ((lxor, lxor), (4, 2)),
  ((iinc, iinc), (0, 0)),
  ((i2l, i2l), (1, 2)), ((i2f, i2f), (1, 1)), ((i2d, i2d), (1, 2)), ((l2i, l2f), (2, 1)),
  ((l2d, l2d), (2, 2)), ((f2i, f2i), (1, 1)), ((f2l, f2d), (1, 2)), ((d2i, d2i), (2, 1)),
  ((d2l, d2l), (2, 2)), ((d2f, d2f), (2, 1)), ((i2b, i2s), (1, 1)),
  ((lcmp, lcmp), (4, 1)), ((fcmpl, fcmpg), (2, 1)), ((dcmpl, dcmpg), (4, 1)),
  ((ifeq, ifle), (1, 0)), ((ifIcmpeq, ifAcmpne), (2, 0)), ((goto, goto), (0, 0)),
  ((tableswitch, lookupswitch), (1, 0)), ((ireturn, ireturn), (1, 0)), ((lreturn, lreturn), (2, 0)),
  ((freturn, freturn), (1, 0)), ((dreturn, dreturn), (2, 0)), ((areturn, areturn), (1, 0)),
  ((vreturn, vreturn), (0, 0)), ((new, new), (0, 1)), ((newarray, arraylength), (1, 1)),
  ((athrow, athrow), (1, 0)), ((checkcast, instanceof), (1, 1)), ((monitorenter, monitorexit), (1, 0)),
  ((ifnull, ifnonnull), (1, 0))]

def arithmeticEffect (op : Opcode) : Nat × Nat :=
  if (op - iadd) % 2 = 1 then (4, 2) else (2, 1)

def stackEffect? (op : Opcode) : Option (Nat × Nat) :=
  if op.isIn iadd drem then some op.arithmeticEffect
  else (stackEffects.find? (fun (range, _) => op.isIn range.1 range.2)).map (·.2)

end Opcode

end ClassForge
