set_option autoImplicit false

namespace ClassForge.Text

def ofDigits (cs : List Char) : Nat :=
  cs.foldl (fun n c => 10 * n + (c.toNat - '0'.toNat)) 0

structure FloatFormat where
  fraction : Nat
  exponent : Nat
  deriving DecidableEq, Repr

namespace FloatFormat

def single : FloatFormat := { fraction := 23, exponent := 8 }

def double : FloatFormat := { fraction := 52, exponent := 11 }

def minExponent (format : FloatFormat) : Int :=
  2 - (Nat.pow 2 (format.exponent - 1) : Int) - format.fraction

def infinity (format : FloatFormat) : Nat :=
  (Nat.pow 2 format.exponent - 1) * Nat.pow 2 format.fraction

def sign (format : FloatFormat) : Nat :=
  Nat.pow 2 (format.exponent + format.fraction)

def roundDiv (n d : Nat) : Nat :=
  let q := n / d
  let twice := 2 * (n % d)
  if twice < d ∨ (twice = d ∧ q % 2 = 0) then q else q + 1

def floorLog2 (n d : Nat) : Int :=
  let e : Int := n.log2 - d.log2
  if n * Nat.pow 2 (-e).toNat < d * Nat.pow 2 e.toNat then e - 1 else e

-- Bits of the number nearest to `n / d`, a tie going to the even significand; numbers past the largest finite
-- one become infinity.
def nearest (format : FloatFormat) (n d : Nat) : Nat :=
  if n = 0 then 0
  else
    let e := max (floorLog2 n d - format.fraction) format.minExponent
    let significand := roundDiv (n * Nat.pow 2 (-e).toNat) (d * Nat.pow 2 e.toNat)
    min ((e - format.minExponent).toNat * Nat.pow 2 format.fraction + significand) format.infinity

def ofDecimal (format : FloatFormat) (cs : List Char) : Nat :=
  let whole := cs.takeWhile (· ≠ '.')
  let fraction := (cs.dropWhile (· ≠ '.')).drop 1
  format.nearest (ofDigits (whole ++ fraction)) (Nat.pow 10 fraction.length)

end FloatFormat

end ClassForge.Text
