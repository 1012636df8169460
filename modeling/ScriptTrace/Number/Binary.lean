/-!
# Number/Binary — what the 64 bits of a number stand for

A finite number is `± significand · 2 ^ exponent` with `significand < 2 ^ 53`.  Everything the
library decides exactly about a number (its digits, its integer part, a remainder) it decides on
this form, in `Nat` and `Int`.
-/

namespace ScriptTrace.Number

/-- The value of a binary64 pattern. -/
inductive Binary where
  | nan
  | infinite (negative : Bool)
  | finite (negative : Bool) (significand : Nat) (exponent : Int)
  deriving DecidableEq, Repr, Inhabited

/-- The least exponent of a finite number: the unit of the subnormal range. -/
def leastExponent : Int := -1074

/-- Reads a bit pattern: one sign bit, eleven exponent bits, fifty-two fraction bits. -/
def Binary.ofBits (bits : UInt64) : Binary :=
  let negative := bits >>> 63 != 0
  let biased := ((bits >>> 52) &&& 0x7ff).toNat
  let fraction := (bits &&& 0xfffffffffffff).toNat
  if biased = 0x7ff then
    if fraction = 0 then .infinite negative else .nan
  else if biased = 0 then .finite negative fraction leastExponent
  else .finite negative ((1 <<< 52) + fraction) (biased - 1075)

/-- What the number `x` stands for. -/
def binary (x : Float) : Binary := .ofBits x.toBits

/-- Whether a number is no number, which alone is unequal to itself. -/
def isNaN (x : Float) : Bool := x != x

/-- Whether a number is neither infinite nor no number. -/
def isFinite (x : Float) : Bool := x.abs < Float.ofBits 0x7ff0000000000000

/-- The value of what is no number. -/
def nan : Float := Float.ofBits 0x7ff8000000000000

/-- The infinite positive number. -/
def infinity : Float := Float.ofBits 0x7ff0000000000000

/-- The sign bit, set also on `-0`. -/
def isNegative (x : Float) : Bool := x.toBits >>> 63 != 0

/-- The power of two `2 ^ e`, for exponents whose power is a number. -/
def twoPow (e : Int) : Float :=
  if e < -1022 then Float.ofBits (1 <<< (e + 1074).toNat.toUInt64)
  else Float.ofBits ((e + 1023).toNat.toUInt64 <<< 52)

/-- `± significand · 2 ^ exponent`, for parts whose product is a number. -/
def compose (negative : Bool) (significand : Nat) (exponent : Int) : Float :=
  let x := Float.ofNat significand * twoPow exponent
  if negative then -x else x

/-- The whole part of a finite number, toward zero; `0` for the others. -/
def toInt (x : Float) : Int :=
  match binary x with
  | .finite negative m e =>
    let whole : Nat := if e ≥ 0 then m <<< e.toNat else m >>> (-e).toNat
    if negative then -whole else whole
  | _ => 0

/-- Every number of at least this size is whole. -/
def wholeFrom : Float := 4503599627370496

/-- Rounds toward zero; the sign stays, also on zero. -/
def truncate (x : Float) : Float :=
  if x.abs < wholeFrom then
    let whole := Float.ofNat x.abs.toUInt64.toNat
    if isNegative x then -whole else whole
  else x

/-- The part after the point, with the sign of the number. -/
def fraction (x : Float) : Float := x - truncate x

/-- Rounds toward minus infinity. -/
def floor (x : Float) : Float :=
  let t := truncate x
  if x < t then t - 1 else t

/-- Rounds toward plus infinity. -/
def ceiling (x : Float) : Float := -floor (-x)

/-- The remainder of the division toward zero, exact and with the sign of the dividend. -/
def remainder (x y : Float) : Float :=
  match binary x, binary y with
  | .finite negative m e, .finite _ n f =>
    if n = 0 then nan
    else
      let unit := min e f
      let rest := (m <<< (e - unit).toNat) % (n <<< (f - unit).toNat)
      compose negative rest unit
  | .finite .., .infinite _ => x
  | _, _ => nan

/-- Converts to a count: fractions are dropped, negative numbers and NaN give `0`, and numbers past
`bound` give `bound`. -/
def toCount (bound : Nat) (x : Float) : Nat :=
  match binary x with
  | .nan => 0
  | .infinite negative => if negative then 0 else bound
  | .finite .. => min bound (toInt x).toNat

/-- The largest 64-bit count. -/
def maxCount : Nat := (1 <<< 64) - 1

/-- The signed 32-bit integer congruent to the whole part; `0` if there is none. -/
def toInt32 (x : Float) : Int := (toInt x).bmod (1 <<< 32)

/-- Whether a finite number has no fraction. -/
def isWhole (x : Float) : Bool := isFinite x && truncate x == x

end ScriptTrace.Number
