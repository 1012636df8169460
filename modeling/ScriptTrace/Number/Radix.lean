import ScriptTrace.Number.Reading

/-!
# Number/Radix — whole bases from 2 to 36

`radixText` writes a number in a base and `ofRadixPrefix` reads the digits at the front of a text.
-/

namespace ScriptTrace.Number

/-- The digit of a value below 36. -/
def digitChar (n : Nat) : Char := if n < 10 then Char.ofNat (48 + n) else Char.ofNat (87 + n)

/-- The digits of a whole number, last one first; at least one. -/
def wholeDigits (base : Float) : Nat → Float → List Char
  | 0, _ => []
  | fuel + 1, n =>
    let d := digitChar (toInt (remainder n base)).toNat
    let rest := truncate (n / base)
    if rest < 1 then [d] else d :: wholeDigits base fuel rest

/-- The first digits of a fraction; they stop when nothing is left. -/
def fractionDigits (base : Float) : Nat → Float → List Char
  | 0, _ => []
  | fuel + 1, x =>
    let y := x * base
    let d := digitChar (toInt y).toNat
    let rest := fraction y
    if rest == 0 then [d] else d :: fractionDigits base fuel rest

/-- More digits than any number has before the point. -/
def maxWholeDigits : Nat := 1100

/-- The most digits written behind the point. -/
def maxFractionDigits : Nat := 20

/-- **A number in a base**; base ten is the ordinary text. -/
def radixText (base : Nat) (x : Float) : String :=
  if base = 10 || !isFinite x then text x
  else
    let b := Float.ofNat base
    let size := x.abs
    let whole := (wholeDigits b maxWholeDigits (truncate size)).reverse
    let places := fraction size
    let body := if places > 0 then whole ++ '.' :: fractionDigits b maxFractionDigits places
      else whole
    String.ofList (if x < 0 then '-' :: body else body)

/-- The number that digits of a base write, rounded after every digit. -/
def ofDigits (base : Nat) (ds : List Nat) : Float :=
  ds.foldl (fun acc d => acc * Float.ofNat base + Float.ofNat d) 0

/-- **The whole number at the beginning of a text**: a sign, `0x` in base 16, then as many digits as
there are.  Base `0` stands for ten, or sixteen after `0x`. -/
def ofRadixPrefix (base : Nat) (s : String) : Float :=
  let (negative, rest) := splitSign (Text.dropBlanks s.toList)
  let (base, rest) := match rest with
    | '0' :: x :: digits =>
      if (x = 'x' || x = 'X') && (base = 0 || base = 16) then (16, digits) else (base, rest)
    | _ => (base, rest)
  let base := if base = 0 then 10 else base
  if base < 2 || base > 36 then nan
  else
    let ds := (rest.takeWhile fun c => (digitIn? base c).isSome).filterMap (digitIn? base)
    if ds.isEmpty then nan else signed negative (ofDigits base ds)

end ScriptTrace.Number
