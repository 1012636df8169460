import ScriptTrace.Number.Text
import ScriptTrace.Text.Blank

/-!
# Number/Reading — numbers read from text

A numeral is `digits`, `digits.digits`, `digits.` or `.digits`, each with an exponent or without.
`Numeral.read?` takes the longest numeral at the front of a text; `ofText` is the conversion of a
whole text, `ofPrefix` the conversion of its longest numeric beginning, and `ofLiteral?` the value
of a numeric literal in a program.
-/

namespace ScriptTrace.Number

/-- A numeral without sign: `significand · 10 ^ exponent`. -/
structure Numeral where
  significand : Nat
  exponent : Int
  deriving DecidableEq, Repr, Inhabited

/-- A decimal digit. -/
def isDigit (c : Char) : Bool := '0' ≤ c && c ≤ '9'

/-- The value of a digit in bases up to 36; letters of both cases count from ten. -/
def digitValue? (c : Char) : Option Nat :=
  if '0' ≤ c && c ≤ '9' then some (c.toNat - 48)
  else if 'a' ≤ c && c ≤ 'z' then some (c.toNat - 87)
  else if 'A' ≤ c && c ≤ 'Z' then some (c.toNat - 55)
  else none

/-- The value of a digit of the given base. -/
def digitIn? (base : Nat) (c : Char) : Option Nat := (digitValue? c).filter (· < base)

/-- The count that decimal digits write. -/
def natOfDigits (ds : List Char) : Nat := ds.foldl (fun n d => 10 * n + (d.toNat - 48)) 0

/-- The number of this value, correctly rounded. -/
def Numeral.toFloat (n : Numeral) : Float :=
  if n.significand = 0 then 0
  else
    let size := ((digitsOf n.significand).length : Int) + n.exponent
    if size > 310 then infinity
    else if size < -330 then 0
    else Float.ofScientific n.significand (n.exponent < 0) n.exponent.natAbs

/-- An exponent part with at least one digit, and the text behind it. -/
def readExponent? (cs : List Char) : Option (Int × List Char) :=
  match cs with
  | e :: rest =>
    if e = 'e' || e = 'E' then
      let (negative, rest) := match rest with
        | '-' :: r => (true, r)
        | '+' :: r => (false, r)
        | r => (false, r)
      let ds := rest.takeWhile isDigit
      if ds.isEmpty then none
      else
        let n : Int := natOfDigits ds
        some (if negative then -n else n, rest.dropWhile isDigit)
    else none
  | [] => none

/-- The longest numeral at the front, and the text behind it. -/
def Numeral.read? (cs : List Char) : Option (Numeral × List Char) :=
  let whole := cs.takeWhile isDigit
  let rest := cs.dropWhile isDigit
  let (places, rest) := match rest with
    | '.' :: r => (r.takeWhile isDigit, r.dropWhile isDigit)
    | r => ([], r)
  if whole.isEmpty && places.isEmpty then none
  else
    let (exponent, rest) := (readExponent? rest).getD (0, rest)
    some (⟨natOfDigits (whole ++ places), exponent - places.length⟩, rest)

/-- Splits one sign off the front. -/
def splitSign (cs : List Char) : Bool × List Char :=
  match cs with
  | '-' :: rest => (true, rest)
  | '+' :: rest => (false, rest)
  | rest => (false, rest)

/-- A number with its sign. -/
def signed (negative : Bool) (x : Float) : Float := if negative then -x else x

/-- The number that a whole text writes as a numeral, with a sign or without. -/
def ofDecimal? (cs : List Char) : Option Float :=
  let (negative, rest) := splitSign cs
  match Numeral.read? rest with
  | some (n, []) => some (signed negative n.toFloat)
  | _ => none

/-- The digits of a base as a count; `none` for no digits or a character that is none. -/
def natOfBase? (base : Nat) (cs : List Char) : Option Nat :=
  if cs.isEmpty then none
  else cs.foldlM (fun n c => (digitIn? base c).map (base * n + ·)) 0

/-- Digits of a base with an optional sign, within the signed 64-bit range. -/
def intOfBase? (base : Nat) (cs : List Char) : Option Int :=
  let (negative, rest) := splitSign cs
  match natOfBase? base rest with
  | some n =>
    if negative then if n ≤ 1 <<< 63 then some (-n) else none
    else if n < 1 <<< 63 then some n else none
  | none => none

/-- Decimal digits with an optional `+`, within the unsigned 64-bit range. -/
def countOfText? (cs : List Char) : Option Nat :=
  let digits := match cs with
    | '+' :: rest => rest
    | rest => rest
  (natOfBase? 10 digits).filter (· ≤ maxCount)

/-- The base that a text announces with `0x` or `0b`, in either case, and the digits behind it. -/
def splitBase? (cs : List Char) : Option (Nat × List Char) :=
  match cs with
  | '0' :: b :: rest =>
    if b = 'x' || b = 'X' then some (16, rest)
    else if b = 'b' || b = 'B' then some (2, rest)
    else none
  | _ => none

/-- **The conversion of a whole text.**  Blanks around it do not count, nothing is `0`, and a text
that is no number is NaN. -/
def ofText (s : String) : Float :=
  let cs := Text.trim s.toList
  if cs.isEmpty then 0
  else match splitBase? cs with
  | some (base, digits) => (intOfBase? base digits).elim nan Float.ofInt
  | none =>
    if cs = "Infinity".toList || cs = "+Infinity".toList then infinity
    else if cs = "-Infinity".toList then -infinity
    else (ofDecimal? cs).getD nan

/-- The value of a numeric literal; a literal with a base must fit 64 bits. -/
def ofLiteral? (cs : List Char) : Option Float :=
  match splitBase? cs with
  | some (base, digits) => ((natOfBase? base digits).filter (· < 1 <<< 64)).map Float.ofNat
  | none => ofDecimal? cs

/-- **The number at the beginning of a text.**  Any run of signs may stand before `Infinity`, one
before a numeral. -/
def ofPrefix (s : String) : Float :=
  let cs := Text.dropBlanks s.toList
  if "Infinity".toList.isPrefixOf (cs.dropWhile fun c => c = '+' || c = '-') then
    signed (cs.head? = some '-') infinity
  else
    let (negative, rest) := splitSign cs
    match Numeral.read? rest with
    | some (n, _) => signed negative n.toFloat
    | none => nan

end ScriptTrace.Number
