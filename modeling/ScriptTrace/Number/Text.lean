import ScriptTrace.Number.Shortest

/-!
# Number/Text — how numbers are written

Three layouts write the same shortest digits and differ only in when they use an exponent, and one
writes a fixed number of places.  `text` is the way a script sees a number.
-/

namespace ScriptTrace.Number

/-- The decisions of one way to write a positive decimal. -/
structure Layout where
  /-- Exponents written without an exponent part, from `least` to `most`; `none` is no bound. -/
  least : Option Int
  most : Option Int
  /-- Whether a whole number keeps `.0`. -/
  keepsPoint : Bool
  deriving DecidableEq, Repr

/-- Numbers as a script prints them: positional from `1e-6` and below `1e21`. -/
def Layout.script : Layout := ⟨some (-6), some 20, false⟩

/-- Numbers as text with digits only, whatever their size. -/
def Layout.positional : Layout := ⟨none, none, false⟩

/-- Numbers as JSON: positional from `1e-5` and below `1e16`, always with a point or an exponent. -/
def Layout.json : Layout := ⟨some (-5), some 15, true⟩

/-- Whether a number of this size is written without an exponent. -/
def Layout.isPositional (l : Layout) (exponent : Int) : Bool :=
  l.least.all (· ≤ exponent) && l.most.all (exponent ≤ ·)

/-- A run of zeros. -/
def zeros (n : Nat) : List Char := List.replicate n '0'

/-- Digits with the point in its place and no exponent. -/
def positionalChars (keepsPoint : Bool) (d : Decimal) : List Char :=
  if d.exponent < 0 then
    '0' :: '.' :: (zeros (-d.exponent - 1).toNat ++ d.digits)
  else
    let places := d.exponent.toNat + 1
    if d.digits.length ≤ places then
      d.digits ++ zeros (places - d.digits.length) ++ (if keepsPoint then ['.', '0'] else [])
    else d.digits.take places ++ '.' :: d.digits.drop places

/-- One digit before the point, and an exponent with its sign. -/
def exponentChars (d : Decimal) : List Char :=
  let mantissa := match d.digits with
    | first :: second :: more => first :: '.' :: second :: more
    | ds => ds
  let sign := if d.exponent < 0 then '-' else '+'
  mantissa ++ 'e' :: sign :: digitsOf d.exponent.natAbs

/-- The digits of a number, written with or without an exponent. -/
def Layout.chars (l : Layout) (d : Decimal) : List Char :=
  if l.isPositional d.exponent then positionalChars l.keepsPoint d else exponentChars d

/-- A finite number in the given layout, with its sign; zero has the digit `0`. -/
def Layout.write (l : Layout) (negative : Bool) (significand : Nat) (exponent : Int) : String :=
  let body := if significand = 0 then l.chars ⟨['0'], 0⟩
    else l.chars (shortest significand exponent)
  String.ofList (if negative then '-' :: body else body)

/-- **The text of a number in a script**: both zeros are `0`. -/
def text (x : Float) : String :=
  match binary x with
  | .nan => "NaN"
  | .infinite negative => if negative then "-Infinity" else "Infinity"
  | .finite negative m e => if m = 0 then "0" else Layout.script.write negative m e

/-- The text with digits only. -/
def positionalText (x : Float) : String :=
  match binary x with
  | .nan => "NaN"
  | .infinite negative => if negative then "-inf" else "inf"
  | .finite negative m e => Layout.positional.write negative m e

/-- The JSON text; JSON has none for NaN and the infinities. -/
def jsonText? (x : Float) : Option String :=
  match binary x with
  | .finite negative m e => some (Layout.json.write negative m e)
  | _ => none

/-- A count of units `10 ^ -places`, written with the point in its place. -/
def placesChars (places units : Nat) : List Char :=
  let ds := digitsOf units
  let padded := zeros (places + 1 - ds.length) ++ ds
  if places = 0 then padded
  else padded.take (padded.length - places) ++ '.' :: padded.drop (padded.length - places)

/-- **A number with a fixed number of places**: the exact value rounded to the nearest unit of the
last place, a half to the even neighbour. -/
def fixedText (places : Nat) (x : Float) : String :=
  match binary x with
  | .finite negative m e =>
    let scale := Scale.twoPow e
    let units := divideToEven (m * scale.numerator * tenPow places) scale.denominator
    let body := placesChars places units
    String.ofList (if negative then '-' :: body else body)
  | _ => text x

end ScriptTrace.Number
