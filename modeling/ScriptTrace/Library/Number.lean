import ScriptTrace.Evaluation.Operator
import ScriptTrace.Number.CubeRoot
import ScriptTrace.Number.Radix

/-!
# Library/Number — numbers

The methods of numbers, the readers of numbers at the start of a text, and the functions of `Math`.
-/

namespace ScriptTrace

/-- The whole number next to a number; halves go up. -/
def roundHalfUp (x : Float) : Float := Number.floor (x + 0.5)

/-- The sign of a number as a number; zeros and NaN stand for themselves. -/
def signOf (x : Float) : Float :=
  if Number.isNaN x || x == 0 then x else if x < 0 then -1 else 1

/-- The least of some numbers; NaN if one of them is. -/
def least (xs : List Float) : Float :=
  if xs.any Number.isNaN then Number.nan
  else xs.foldl (fun acc x => if x < acc then x else acc) Number.infinity

/-- The greatest of some numbers; NaN if one of them is. -/
def greatest (xs : List Float) : Float :=
  if xs.any Number.isNaN then Number.nan
  else xs.foldl (fun acc x => if acc < x then x else acc) (-Number.infinity)

/-- **The functions of `Math` on numbers**, the stream of random numbers apart. -/
def MathFunction.eval (f : MathFunction) (xs : List Float) : Float :=
  let x := xs.headD Number.nan
  match f with
  | .abs => x.abs
  | .floor => Number.floor x
  | .ceil => Number.ceiling x
  | .round => roundHalfUp x
  | .trunc => Number.truncate x
  | .sign => signOf x
  | .sqrt => x.sqrt
  | .cbrt => Number.cubeRoot x
  | .pow => power x (xs.getD 1 Number.nan)
  | .min => least xs
  | .max => greatest xs
  | .log => x.log
  | .exp => x.exp
  | .random => Number.nan

namespace Exec

/-- The numbers of values. -/
def numbers : List Value → Exec (List Float)
  | [] => return []
  | v :: vs => do
    let x ← number v
    return x :: (← numbers vs)

/-- A call of a function of `Math`. -/
def callMath (f : MathFunction) (args : List Value) : Exec Value := do
  let xs ← numbers args
  match f with
  | .random => return .number (← random)
  | f => return .number (f.eval xs)

/-- `parseInt`. -/
def parseInt (args : List Value) : Exec Value := do
  let s ← text (argument args 0)
  let radix := argument args 1
  let base ←
    if radix.isUndefined then pure 0 else pure (Number.toCount ((1 <<< 32) - 1) (← number radix))
  return .number (Number.ofRadixPrefix base s)

/-- `parseFloat`. -/
def parseFloat (args : List Value) : Exec Value :=
  return .number (Number.ofPrefix (← text (argument args 0)))

/-- A number with the places that an argument asks for. -/
def fixedPlaces (x : Float) (places : Value) (line : Nat) : Exec Value := do
  let p ← if places.isUndefined then pure 0 else pure (Number.truncate (← number places))
  if p ≥ 0 && p ≤ 100 then
    return .string
      (if Number.isFinite x && x.abs < 1e21 then Number.fixedText (Number.toCount 100 p) x
        else Number.text x)
  else raise .rangeError "toFixed() digits argument must be between 0 and 100" line

/-- A number in the base that an argument asks for. -/
def inRadix (x : Float) (radix : Value) (line : Nat) : Exec Value := do
  let r ← if radix.isUndefined then pure 10 else number radix
  if r ≥ 2 && r ≤ 36 then return .string (Number.radixText (Number.toCount 36 r) x)
  else raise .rangeError "toString() radix must be between 2 and 36" line

/-- **A method of a number.** -/
def numberMethod (x : Float) (method : String) (args : List Value) (line : Nat) : Exec Value :=
  match method with
  | "toFixed" => fixedPlaces x (argument args 0) line
  | "toString" => inRadix x (argument args 0) line
  | _ => return .undefined

end Exec

end ScriptTrace
