set_option autoImplicit false

namespace ClassForge.Text

def units (c : Char) : List UInt16 :=
  let n := c.toNat
  if n < 0x10000 then [n.toUInt16]
  else [(0xd800 + (n - 0x10000) / 0x400).toUInt16, (0xdc00 + (n - 0x10000) % 0x400).toUInt16]

def unitBytes (unit : UInt16) : List UInt8 :=
  if 0x0001 ≤ unit ∧ unit ≤ 0x007f then [unit.toUInt8]
  else if unit ≤ 0x07ff then [(unit >>> 6).toUInt8 ||| 0xc0, (unit &&& 0x3f).toUInt8 ||| 0x80]
  else [(unit >>> 12).toUInt8 ||| 0xe0, ((unit >>> 6) &&& 0x3f).toUInt8 ||| 0x80,
    (unit &&& 0x3f).toUInt8 ||| 0x80]

def modifiedUtf8 (text : String) : List UInt8 :=
  (text.toList.flatMap units).flatMap unitBytes

end ClassForge.Text
