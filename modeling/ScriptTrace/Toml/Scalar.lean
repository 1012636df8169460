import ScriptTrace.Number.Reading
import ScriptTrace.Settings.Tree
import ScriptTrace.Text.Search

/-!
# Toml/Scalar — numbers, dates and words

A value that is no string, list or table is a run of letters, digits and a few signs.
`scalar?` tells what such a run stands for.
-/

namespace ScriptTrace.Toml

/-- The parts of a text between the occurrences of a character. -/
def partsAt (separator : Char) (cs : List Char) : List (List Char) := Text.splitAt [separator] cs

/-- Digits with single underscores between them, without the underscores. -/
def digits? (isDigit : Char → Bool) (cs : List Char) : Option (List Char) :=
  let parts := partsAt '_' cs
  if parts.all fun p => !p.isEmpty && p.all isDigit then some parts.flatten else none

/-- Decimal digits that start with no needless zero. -/
def wholeDigits? (cs : List Char) : Option (List Char) :=
  match digits? Number.isDigit cs with
  | some ('0' :: _ :: _) => none
  | ds => ds

/-! ## Numbers -/

/-- The base that a run announces, and the digits behind it. -/
def splitBase? (cs : List Char) : Option (Nat × List Char) :=
  match cs with
  | '0' :: 'x' :: ds => some (16, ds)
  | '0' :: 'o' :: ds => some (8, ds)
  | '0' :: 'b' :: ds => some (2, ds)
  | _ => none

/-- A whole number within the signed 64-bit range. -/
def inRange? (n : Int) : Option Int :=
  let bound : Nat := 1 <<< 63
  if -bound ≤ n ∧ n < bound then some n else none

/-- A whole number, with a sign, or with a base. -/
def integer? (cs : List Char) : Option Int :=
  match splitBase? cs with
  | some (base, ds) => do
    let n ← Number.natOfBase? base (← digits? (fun c => (Number.digitIn? base c).isSome) ds)
    inRange? n
  | none => do
    let (negative, ds) := Number.splitSign cs
    let n : Int := Number.natOfDigits (← wholeDigits? ds)
    inRange? (if negative then -n else n)

/-- The exponent part of a number, cleaned; nothing is none. -/
def exponent? (cs : List Char) : Option (List Char) :=
  match cs with
  | [] => some []
  | e :: rest =>
    if e = 'e' || e = 'E' then
      let (negative, ds) := Number.splitSign rest
      (digits? Number.isDigit ds).map fun ds => 'e' :: (if negative then '-' :: ds else ds)
    else none

/-- The places and the exponent of a number, cleaned; one of them must be there. -/
def places? (cs : List Char) : Option (List Char) :=
  match cs with
  | '.' :: rest => do
    let isPlace (c : Char) : Bool := Number.isDigit c || c = '_'
    let ds ← digits? Number.isDigit (rest.takeWhile isPlace)
    return '.' :: ds ++ (← exponent? (rest.dropWhile isPlace))
  | [] => none
  | cs => exponent? cs

/-- A number with places, an exponent or both, or one of the numbers that have none. -/
def real? (cs : List Char) : Option Float :=
  let (negative, body) := Number.splitSign cs
  if body = "inf".toList then some (Number.signed negative Number.infinity)
  else if body = "nan".toList then some Number.nan
  else do
    let isWholePart (c : Char) : Bool := Number.isDigit c || c = '_'
    let whole ← wholeDigits? (body.takeWhile isWholePart)
    let rest ← places? (body.dropWhile isWholePart)
    let x ← Number.ofDecimal? (whole ++ rest)
    if Number.isFinite x then some (Number.signed negative x) else none

/-! ## Dates and times -/

/-- A count of exactly `n` digits within bounds. -/
def fixedCount? (n least most : Nat) (cs : List Char) : Option Nat :=
  if cs.length = n && cs.all Number.isDigit then
    (some (Number.natOfDigits cs)).filter fun k => least ≤ k && k ≤ most
  else none

/-- How many days a month has. -/
def daysIn (year month : Nat) : Nat :=
  if month = 2 then
    if year % 4 = 0 && (year % 100 != 0 || year % 400 = 0) then 29 else 28
  else if month ∈ [4, 6, 9, 11] then 30
  else 31

/-- A date of the calendar. -/
def isDate (cs : List Char) : Bool :=
  match partsAt '-' cs with
  | [y, m, d] =>
    (do
      let year ← fixedCount? 4 0 9999 y
      let month ← fixedCount? 2 1 12 m
      fixedCount? 2 1 (daysIn year month) d).isSome
  | _ => false

/-- Seconds, with places or without. -/
def isSeconds (cs : List Char) : Bool :=
  match partsAt '.' cs with
  | [s] => (fixedCount? 2 0 60 s).isSome
  | [s, places] =>
    (fixedCount? 2 0 60 s).isSome && !places.isEmpty && places.all Number.isDigit
  | _ => false

/-- A time of the day. -/
def isTime (cs : List Char) : Bool :=
  match partsAt ':' cs with
  | [h, m, s] => (fixedCount? 2 0 23 h).isSome && (fixedCount? 2 0 59 m).isSome && isSeconds s
  | _ => false

/-- A time with the distance to universal time. -/
def isZonedTime (cs : List Char) : Bool :=
  match cs.getLast? with
  | some 'Z' | some 'z' => isTime cs.dropLast
  | _ =>
    let time := cs.takeWhile fun c => c != '+' && c != '-'
    match partsAt ':' (cs.drop (time.length + 1)) with
    | [h, m] =>
      isTime time && (fixedCount? 2 0 23 h).isSome && (fixedCount? 2 0 59 m).isSome
    | _ => false

/-- A date, a time, or both with one of `T`, `t` and a blank between. -/
def isMoment (cs : List Char) : Bool :=
  let date := cs.take 10
  match cs.drop 10 with
  | [] => isDate cs || isTime cs
  | c :: time =>
    ((c = 'T' || c = 't' || c = ' ') && isDate date && (isTime time || isZonedTime time)) ||
      isTime cs

/-- **What a run stands for.**  Dates and times stay text. -/
def scalar? (cs : List Char) : Option Setting :=
  if cs = "true".toList then some (.flag true)
  else if cs = "false".toList then some (.flag false)
  else match integer? cs, real? cs with
  | some n, _ => some (.integer n)
  | none, some x => some (.real x)
  | none, none => if isMoment cs then some (.text (String.ofList cs)) else none

end ScriptTrace.Toml
