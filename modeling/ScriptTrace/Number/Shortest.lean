import ScriptTrace.Number.Binary

/-!
# Number/Shortest — the fewest digits that read back

A positive number `m · 2 ^ e` owns the reals that round to it: an interval around it whose ends
belong to it exactly when `m` is even.  The shortest text of the number is the decimal with the
fewest digits in that interval; of two with equally many digits the nearer one, and of two equally
near the larger.  All of it is exact arithmetic on `Nat`.
-/

namespace ScriptTrace.Number

/-- A positive decimal `d₁.d₂d₃… · 10 ^ exponent`, its digits without trailing zeros. -/
structure Decimal where
  digits : List Char
  exponent : Int
  deriving DecidableEq, Repr, Inhabited

/-- A positive rational scale: a value is counted in units of `numerator / denominator`. -/
structure Scale where
  numerator : Nat
  denominator : Nat
  deriving DecidableEq, Repr

/-- The power of ten `10 ^ k`. -/
def tenPow (k : Nat) : Nat := Nat.pow 10 k

/-- The scale `2 ^ e`. -/
def Scale.twoPow (e : Int) : Scale := ⟨1 <<< e.toNat, 1 <<< (-e).toNat⟩

/-- The scale divided by `10 ^ k`. -/
def Scale.overTenPow (s : Scale) (k : Int) : Scale :=
  ⟨s.numerator * tenPow (-k).toNat, s.denominator * tenPow k.toNat⟩

/-- The interval of reals that round to one number, counted in quarters of its last place. -/
structure Rounding where
  low : Nat
  value : Nat
  high : Nat
  /-- Whether the two ends belong to the interval. -/
  closed : Bool
  deriving DecidableEq, Repr

/-- The interval of `m · 2 ^ e`, in units of `2 ^ (e - 2)`.  Below a power of two the neighbour is
only half as far away. -/
def Rounding.of (m : Nat) (e : Int) : Rounding where
  low := if m = 1 <<< 52 ∧ e > leastExponent then 4 * m - 1 else 4 * m - 2
  value := 4 * m
  high := 4 * m + 2
  closed := m % 2 = 0

/-- Whether `d` steps of the grid lie in the interval; `scale` tells how many steps one quarter
is. -/
def Rounding.holds (r : Rounding) (scale : Scale) (d : Nat) : Bool :=
  let x := d * scale.denominator
  let low := r.low * scale.numerator
  let high := r.high * scale.numerator
  if r.closed then low ≤ x && x ≤ high else low < x && x < high

/-- The grid point of the interval next to the value, if there is one. -/
def Rounding.nearest? (r : Rounding) (scale : Scale) : Option Nat :=
  let value := r.value * scale.numerator
  let below := value / scale.denominator
  let above := below + 1
  if r.holds scale below then
    if r.holds scale above && 2 * value ≥ (below + above) * scale.denominator then some above
    else some below
  else if r.holds scale above then some above
  else none

/-- The decimal digits of a count. -/
def digitsOf (n : Nat) : List Char := Nat.toDigits 10 n

/-- Digits without the zeros at their end. -/
def dropTrailingZeros (ds : List Char) : List Char :=
  (ds.reverse.dropWhile (· = '0')).reverse

/-- The number `k` with `10 ^ (k - 1) ≤ n / d < 10 ^ k`, found upward from the guess `k`. -/
def countFrom (n d : Nat) : Nat → Int → Int
  | 0, k => k
  | fuel + 1, k =>
    if n * tenPow (-k).toNat < d * tenPow k.toNat then k else countFrom n d fuel (k + 1)

/-- How many digits stand before the point of `m · 2 ^ e`; zero or negative for small numbers.  The
guess from the binary length is at most three short. -/
def integerDigits (m : Nat) (e : Int) : Int :=
  let guess := ((Nat.log2 m : Int) + e) * 30103 / 100000 - 1
  let scale := Scale.twoPow e
  countFrom (m * scale.numerator) scale.denominator 4 guess

/-- Tries grids of one digit more each time. -/
def shortestFrom (r : Rounding) (scale : Scale) (point : Int) : Nat → Nat → Decimal
  | 0, _ => ⟨['0'], 0⟩
  | fuel + 1, count =>
    match r.nearest? (scale.overTenPow (point - count)) with
    | some d =>
      let ds := digitsOf d
      ⟨dropTrailingZeros ds, point - count + ds.length - 1⟩
    | none => shortestFrom r scale point fuel (count + 1)

/-- The shortest decimal that reads back as `m · 2 ^ e`, found on grids; seventeen digits always
suffice. -/
def shortestOnGrids (m : Nat) (e : Int) : Decimal :=
  shortestFrom (.of m e) (.twoPow (e - 2)) (integerDigits m e) 18 1

/-- The count that `m · 2 ^ e` is, unless it has a fraction or needs more than the bits of `m`. -/
def wholeCount? (m : Nat) (e : Int) : Option Nat :=
  if e > 0 || e < -53 then none
  else
    let unit := 1 <<< (-e).toNat
    if m % unit = 0 then some (m / unit) else none

/-- A positive count as a decimal. -/
def Decimal.ofCount (n : Nat) : Decimal :=
  let ds := digitsOf n
  ⟨dropTrailingZeros ds, ds.length - 1⟩

/-- **The shortest decimal that reads back as `m · 2 ^ e`.**  Counts whose neighbours are at least
as close as the next count have no shorter one than their own digits. -/
def shortest (m : Nat) (e : Int) : Decimal :=
  match wholeCount? m e with
  | some n => .ofCount n
  | none => shortestOnGrids m e

/-- Divides and rounds to the nearest whole number, a half to the even one. -/
def divideToEven (n d : Nat) : Nat :=
  let q := n / d
  let twice := 2 * (n % d)
  if twice > d || (twice = d && q % 2 = 1) then q + 1 else q

end ScriptTrace.Number
