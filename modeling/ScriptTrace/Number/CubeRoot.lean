import ScriptTrace.Number.Binary

/-!
# Number/CubeRoot — cube roots

`cubeRoot` gives the number nearest to the real cube root.  The significand is widened until its
root has nine bits more than a number, and one more bit tells whether that root is exact.
-/

namespace ScriptTrace.Number

/-- The third power. -/
def cube (r : Nat) : Nat := r * r * r

/-- The bits of a root, highest first, below the bit `bits`: each is set as long as the cube does
not pass `n`. -/
def rootFrom (n : Nat) : Nat → Nat → Nat
  | 0, r => r
  | bits + 1, r =>
    let next := r + (1 <<< bits)
    rootFrom n bits (if cube next ≤ n then next else r)

/-- How many bits a widened root has. -/
def rootBits : Nat := 62

/-- The greatest root of at most `rootBits` bits whose cube does not pass `n`. -/
def floorRoot (n : Nat) : Nat := rootFrom n rootBits 0

/-- The exponent that widens a significand for its root: the greatest multiple of three that leaves
enough bits. -/
def rootExponent (significand : Nat) (exponent : Int) : Int :=
  let widest := exponent + significand.log2 + 1 - 3 * rootBits
  3 * ((widest + 2) / 3)

/-- **The cube root.** -/
def cubeRoot (x : Float) : Float :=
  match binary x with
  | .finite negative m e =>
    if m = 0 then x
    else
      let unit := rootExponent m e
      let wide := m <<< (e - unit).toNat
      let r := floorRoot wide
      let significand := 2 * r + (if cube r = wide then 0 else 1)
      compose negative significand (unit / 3 - 1)
  | _ => x

end ScriptTrace.Number
