import ScriptTrace.Proofs.Number.Whole

/-!
# Proofs/Number/Quotient — quotients cut off and remainders

A quotient of whole numbers is rounded before its fraction is dropped.  Up to `2 ^ 53` that does no
harm: rounding reaches the next whole number only from less than half a place below it, and the
quotient by `b` stays at least `1 / b` below.

    a / b = q + f        ⌊round (a / b)⌋ = q

So `truncate (a / b)` is the whole quotient, and the remainder, taken without rounding, is the other
half of the division.  A quotient by a power of two is not rounded at all, since only its exponent
differs from that of the dividend.
-/

namespace ScriptTrace.Number

open Float.Model (Format totalExponent UnpackedFloat)
open Float.Model.UnpackedFloat

section

variable {x y : Float} {m k a b u v : Nat}

/-! ## Remainders -/

theorem binary_of_unpack {e : Int} {hm : 0 < m} (hx : x.toModel.unpack = .finite .positive m e hm) :
    binary x = .finite false m e := by
  rw [binary_eq_ofParts, hx]
  rfl

/-- Powers of two between `2 ^ -52` and `2`. -/
theorem toBits_twoPow : ∀ k < 54, (twoPow ((k : Nat) - 52)).toBits = (Float.ofModel (.pack
    (.finite .positive (2 ^ 52) (k - 104) (by decide)))).toBits := by
  decide +kernel

theorem unpack_twoPow (hk : k ≤ 53) :
    (twoPow (k - 52)).toModel.unpack = .finite .positive (2 ^ 52) (k - 104) (by decide) := by
  rw [Float.toBits_inj.mp (toBits_twoPow k (Nat.lt_succ_of_le hk))]
  exact unpack_pack_normal normal_power (by omega) (by omega) .positive

/-- A whole number with its digits moved, if zeros only are lost. -/
theorem toInt_mul_twoPow (hk : k ≤ 53) (ha : a < 2 ^ 53) (heq : a * 2 ^ k = b * 2 ^ 52) :
    toInt (Float.ofNat a * twoPow (k - 52)) = b := by
  have hfactor := unpack_twoPow hk
  have hproduct : (Float.ofNat a * twoPow (k - 52)).toModel.unpack = (Float.Model.pack
      (UnpackedFloat.mul .binary64 (Float.ofNat a).toModel.unpack
        (.finite .positive (2 ^ 52) (k - 104) (by decide)))).unpack := by
    rw [← hfactor]
    rfl
  rcases Nat.eq_zero_or_pos a with rfl | hpos
  · have hb : b = 0 := by
      rw [Nat.zero_mul] at heq
      exact (Nat.mul_eq_zero.mp heq.symm).resolve_right (by decide)
    have hzero : Float.ofNat 0 * twoPow (k - 52) = Float.ofNat 0 :=
      eq_of_unpack (hproduct.trans rfl)
    rw [hzero, hb]
    rfl
  · obtain ⟨m, j, h, hx⟩ := isCount_ofNat hpos.ne' ha.le
    have hexponent : (j : Int) - 52 + (k - 104) = (j + k : Nat) - (104 : Nat) - (52 : Nat) := by
      omega
    have hle := h.le
    rw [hx] at hproduct
    change _ = (Float.Model.pack (roundWithAccuracy .binary64 .positive (m * 2 ^ 52)
      ((j : Int) - 52 + (k - 104)) .exact)).unpack at hproduct
    rw [hexponent, roundWithAccuracy_exact h.normal (by omega),
      unpack_pack_normal h.normal (by omega) (by omega)] at hproduct
    have hvalue : m * 2 ^ (j + k) = b * 2 ^ 104 := calc
      m * 2 ^ (j + k) = m * 2 ^ j * 2 ^ k := by ring
      _ = a * 2 ^ k * 2 ^ 52 := by rw [h.eq]; ring
      _ = b * 2 ^ 104 := by rw [heq, Nat.mul_assoc, ← Nat.pow_add]
    rw [toInt_finite hproduct, hvalue, Nat.mul_div_cancel _ (Nat.two_pow_pos 104)]

/-- The remainder of two counts is that of whole numbers. -/
theorem IsCount.toInt_remainder (hx : IsCount x a) (hy : IsCount y b) :
    toInt (remainder x y) = (a % b : Nat) := by
  obtain ⟨m₁, k₁, h₁, hx⟩ := hx
  obtain ⟨m₂, k₂, h₂, hy⟩ := hy
  have hunit : min ((k₁ : Int) - 52) (k₂ - 52) = (min k₁ k₂ : Nat) - 52 := by omega
  have hamount₁ : ((k₁ : Int) - 52 - ((min k₁ k₂ : Nat) - 52)).toNat = k₁ - min k₁ k₂ := by omega
  have hamount₂ : ((k₂ : Int) - 52 - ((min k₁ k₂ : Nat) - 52)).toNat = k₂ - min k₁ k₂ := by omega
  have hrest : remainder x y = Float.ofNat (m₁ * 2 ^ (k₁ - min k₁ k₂) %
      (m₂ * 2 ^ (k₂ - min k₁ k₂))) * twoPow ((min k₁ k₂ : Nat) - 52) := by
    unfold remainder
    rw [binary_of_unpack hx, binary_of_unpack hy]
    dsimp only
    rw [if_neg h₂.normal.pos.ne', hunit, hamount₁, hamount₂, Nat.shiftLeft_eq, Nat.shiftLeft_eq]
    rfl
  rw [hrest]
  refine toInt_mul_twoPow ((Nat.min_le_left ..).trans h₁.le) ?_ ?_
  · -- One of the two significands is not moved.
    rcases Nat.le_total k₁ k₂ with hle | hle
    · rw [Nat.min_eq_left hle, Nat.sub_self, Nat.pow_zero, Nat.mul_one]
      exact (Nat.mod_le _ _).trans_lt h₁.normal.upper
    · rw [Nat.min_eq_right hle, Nat.sub_self, Nat.pow_zero, Nat.mul_one]
      exact (Nat.mod_lt _ h₂.normal.pos).trans h₂.normal.upper
  · rw [← Nat.mul_mod_mul_right, Nat.mul_assoc, Nat.mul_assoc, ← Nat.pow_add, ← Nat.pow_add,
      Nat.sub_add_cancel (Nat.min_le_left ..), Nat.sub_add_cancel (Nat.min_le_right ..), h₁.eq,
      h₂.eq, Nat.mul_mod_mul_right]

/-- **The remainder of whole numbers** up to `2 ^ 53`. -/
theorem toInt_remainder (ha : a ≤ 2 ^ 53) (hb : b ≠ 0) (hb' : b ≤ 2 ^ 53) :
    toInt (remainder (Float.ofNat a) (Float.ofNat b)) = (a % b : Nat) := by
  have hy := isCount_ofNat hb hb'
  rcases Nat.eq_zero_or_pos a with rfl | hpos
  · obtain ⟨m, k, h, hy⟩ := hy
    have hzero : binary (Float.ofNat 0) = .finite false 0 leastExponent := rfl
    have hunit : min leastExponent ((k : Int) - 52) = leastExponent := by
      change min (-1074) _ = (-1074 : Int)
      omega
    unfold remainder
    rw [hzero, binary_of_unpack hy]
    dsimp only
    rw [if_neg h.normal.pos.ne', hunit, Nat.zero_shiftLeft, Nat.zero_mod, Nat.zero_mod]
    rfl
  · exact (isCount_ofNat hpos.ne' ha).toInt_remainder hy

/-! ## Rounding a quotient -/

/-- **A rounded quotient has the whole part of the quotient.** -/
theorem rounded_div (hb : 0 < b) (ha : a ≤ 2 ^ 53) (hlow : 2 ^ 52 ≤ a * 2 ^ u / b) {n : Nat}
    (hn : n = a * 2 ^ u / b ∨
      n = a * 2 ^ u / b + 1 ∧ (2 * (a * 2 ^ u / b) + 1) * b ≤ 2 * (a * 2 ^ u)) :
    n / 2 ^ u = a / b := by
  have hu := Nat.two_pow_pos u
  have hdown : a * 2 ^ u / b / 2 ^ u = a / b := by
    rw [Nat.div_div_eq_div_mul, Nat.mul_div_mul_right _ _ hu]
  obtain rfl | ⟨rfl, hhalf⟩ := hn
  · exact hdown
  generalize a * 2 ^ u / b = q at hlow hdown hhalf
  have hupper : a + 1 ≤ (a / b + 1) * b := Nat.lt_mul_of_div_lt (Nat.lt_succ_self _) hb
  obtain ⟨hq, hq'⟩ := (Nat.div_eq_iff hu).mp hdown
  refine (Nat.div_eq_iff hu).mpr ⟨by omega, ?_⟩
  by_contra hnext
  have hreached : q + 1 = (a / b + 1) * 2 ^ u := by
    rw [Nat.add_mul]
    omega
  -- The next whole number is half a place away at most, and `1 / b` at least.
  have hplaces : 2 * 2 ^ u ≤ b := by
    have hscaled := Nat.mul_le_mul_left (2 * 2 ^ u) hupper
    have hsame : 2 * 2 ^ u * ((a / b + 1) * b) = 2 * (q + 1) * b := by rw [hreached]; ring
    rw [hsame] at hscaled
    linarith
  have hfew : (2 * q + 1) * b ≤ 2 ^ 53 * b := calc
    (2 * q + 1) * b ≤ a * (2 * 2 ^ u) := by linarith
    _ ≤ 2 ^ 53 * b := Nat.mul_le_mul ha hplaces
  have := Nat.le_of_mul_le_mul_right hfew hb
  omega

/-- The accuracy of a fraction does not change when both parts are scaled. -/
theorem accuracyOfFraction_scale {c : Nat} (hc : 0 < c) (n d : Nat) :
    accuracyOfFraction (n * c) (d * c) = accuracyOfFraction n d := by
  have hzero : n * c = 0 ↔ n = 0 := by simp [hc.ne']
  have hcompare : compare (2 * (n * c)) (d * c) = compare (2 * n) d := by
    rw [← Nat.mul_assoc]
    rcases Nat.lt_trichotomy (2 * n) d with hlt | heq | hgt
    · rw [Nat.compare_eq_lt.mpr hlt, Nat.compare_eq_lt.mpr (Nat.mul_lt_mul_of_pos_right hlt hc)]
    · rw [Nat.compare_eq_eq.mpr heq, Nat.compare_eq_eq.mpr (congrArg (· * c) heq)]
    · rw [Nat.compare_eq_gt.mpr hgt, Nat.compare_eq_gt.mpr (Nat.mul_lt_mul_of_pos_right hgt hc)]
  simp only [accuracyOfFraction, hzero, hcompare]

/-- The places of a quotient, as division finds them. -/
theorem unpack_div {m₁ k₁ m₂ k₂ : Nat} (h₁ : Places a m₁ k₁) (h₂ : Places b m₂ k₂)
    (hx : x.toModel.unpack = .finite .positive m₁ (k₁ - 52) h₁.normal.pos)
    (hy : y.toModel.unpack = .finite .positive m₂ (k₂ - 52) h₂.normal.pos)
    (hu : u + k₁ = 53 + k₂) :
    (x / y).toModel.unpack = (Float.Model.pack (roundWithAccuracy .binary64 .positive
      (a * 2 ^ u / b) (-u) (accuracyOfFraction (a * 2 ^ u % b) b))).unpack ∧
    2 ^ 52 ≤ a * 2 ^ u / b ∧ a * 2 ^ u / b < 2 ^ 54 := by
  have hle₁ := h₁.le
  have hle₂ := h₂.le
  have hscaled : a * 2 ^ u * 2 ^ 52 = m₁ * 2 ^ 53 * 2 ^ k₂ := calc
    a * 2 ^ u * 2 ^ 52 = m₁ * (2 ^ u * 2 ^ k₁) := by rw [Nat.mul_right_comm, ← h₁.eq]; ring
    _ = m₁ * 2 ^ 53 * 2 ^ k₂ := by rw [← Nat.pow_add, hu, Nat.pow_add, Nat.mul_assoc]
  have hquotient : m₁ * 2 ^ 53 / m₂ = a * 2 ^ u / b := by
    rw [← Nat.mul_div_mul_right _ _ (Nat.two_pow_pos k₂), ← hscaled, h₂.eq,
      Nat.mul_div_mul_right _ _ (Nat.two_pow_pos 52)]
  have haccuracy : accuracyOfFraction (m₁ * 2 ^ 53 % m₂) m₂ =
      accuracyOfFraction (a * 2 ^ u % b) b := by
    rw [← accuracyOfFraction_scale (Nat.two_pow_pos k₂), ← Nat.mul_mod_mul_right, ← hscaled, h₂.eq,
      Nat.mul_mod_mul_right, accuracyOfFraction_scale (Nat.two_pow_pos 52)]
  refine ⟨?_, ?_, ?_⟩
  · have htarget : Format.binary64.targetExponent (totalExponent m₁ ((k₁ : Int) - 52) -
        totalExponent m₂ ((k₂ : Int) - 52)) = (k₁ : Int) - k₂ - 53 := by
      simp only [Format.targetExponent, totalExponent, h₁.normal.log2_eq, h₂.normal.log2_eq,
        Format.mantissaBits, Format.minExponent]
      omega
    have hmin : min ((k₁ : Int) - 52 - (k₂ - 52)) ((k₁ : Int) - k₂ - 53) = -u := by omega
    have hamount : ((k₁ : Int) - 52 - (k₂ - 52) - -u).toNat = 53 := by omega
    change (Float.Model.pack (UnpackedFloat.div .binary64 x.toModel.unpack y.toModel.unpack)).unpack =
      _
    rw [hx, hy]
    simp only [UnpackedFloat.div, divCore, htarget, hmin, hamount, Nat.shiftLeft_eq, hquotient,
      haccuracy]
    rfl
  · rw [← hquotient]
    refine (Nat.le_div_iff_mul_le h₂.normal.pos).mpr ?_
    exact Nat.mul_le_mul h₁.normal.lower h₂.normal.upper.le
  · rw [← hquotient]
    refine (Nat.div_lt_iff_lt_mul h₂.normal.pos).mpr ?_
    calc m₁ * 2 ^ 53 < 2 ^ 53 * 2 ^ 53 := Nat.mul_lt_mul_of_pos_right h₁.normal.upper (Nat.two_pow_pos 53)
      _ = 2 ^ 54 * 2 ^ 52 := by rw [← Nat.pow_add, ← Nat.pow_add]
      _ ≤ 2 ^ 54 * m₂ := Nat.mul_le_mul_left _ h₂.normal.lower

/-- A significand of 53 or 54 bits is rounded to one of full length. -/
theorem roundWithAccuracy_of_shift {n r : Nat} {f e : Int} {acc : Accuracy}
    {rest : ExtendedMantissa}
    (hshift : shiftToTargetExponent .binary64 n f acc = (rest, e))
    (hrest : rest.roundedMantissa = r) (hlow : 2 ^ 52 ≤ r) (hup : r ≤ 2 ^ 53) (he : -1074 ≤ e)
    (s : Sign) :
    ∃ (m j : Nat) (hm : Normal m), m * 2 ^ j = r ∧ j ≤ 1 ∧
      roundWithAccuracy .binary64 s n f acc = .finite s m (e + j) hm.pos := by
  rcases Nat.lt_or_eq_of_le hup with hlt | rfl
  · have hm : Normal r := ⟨hlow, hlt⟩
    refine ⟨r, 0, hm, Nat.mul_one r, Nat.zero_le 1, ?_⟩
    simp only [roundWithAccuracy, hshift, hrest, shiftToTargetExponent_normal hm he,
      dif_neg hm.pos.ne', Nat.cast_zero, add_zero]
  · refine ⟨2 ^ 52, 1, normal_power, rfl, le_rfl, ?_⟩
    simp only [roundWithAccuracy, hshift, hrest, shiftToTargetExponent_carry he,
      dif_neg normal_power.pos.ne', Nat.cast_one]

/-- A quotient is rounded up if at least half a place was cut off. -/
theorem roundedMantissa_div (n b : Nat) :
    (ExtendedMantissa.ofMantissaAndAccuracy (n / b) (accuracyOfFraction (n % b) b)).roundedMantissa =
      n / b ∨
    (ExtendedMantissa.ofMantissaAndAccuracy (n / b) (accuracyOfFraction (n % b) b)).roundedMantissa =
      n / b + 1 ∧ (2 * (n / b) + 1) * b ≤ 2 * n := by
  have hparts := Nat.div_add_mod' n b
  have hup (hhalf : b ≤ 2 * (n % b)) : (2 * (n / b) + 1) * b ≤ 2 * n := calc
    (2 * (n / b) + 1) * b = 2 * (n / b * b) + b := by ring
    _ ≤ 2 * n := by omega
  unfold accuracyOfFraction
  split
  · exact .inl rfl
  rcases Nat.lt_trichotomy (2 * (n % b)) b with hlt | heq | hgt
  · rw [Nat.compare_eq_lt.mpr hlt]
    exact .inl rfl
  · -- A tie goes to the even neighbour.
    rw [Nat.compare_eq_eq.mpr heq]
    change n / b + n / b % 2 = n / b ∨ n / b + n / b % 2 = n / b + 1 ∧ _
    have := hup heq.ge
    omega
  · rw [Nat.compare_eq_gt.mpr hgt]
    exact .inr ⟨rfl, hup hgt.le⟩

/-- Half a place is cut off if the bit that is moved out is set. -/
theorem roundedMantissa_shiftRightOne (em : ExtendedMantissa) :
    em.shiftRightOne.roundedMantissa = em.mantissa / 2 ∨
    em.shiftRightOne.roundedMantissa = em.mantissa / 2 + 1 ∧ em.mantissa % 2 = 1 := by
  rcases Nat.mod_two_eq_zero_or_one em.mantissa with heven | hodd
  · left
    have hbit : em.shiftRightOne = ⟨em.mantissa / 2, false, em.roundBit || em.stickyBit⟩ := by
      simp [ExtendedMantissa.shiftRightOne, heven]
    rw [hbit]
    cases em.roundBit || em.stickyBit <;> rfl
  · have hbit : em.shiftRightOne = ⟨em.mantissa / 2, true, em.roundBit || em.stickyBit⟩ := by
      simp [ExtendedMantissa.shiftRightOne, hodd]
    rw [hbit]
    cases em.roundBit || em.stickyBit with
    | true => exact .inr ⟨rfl, hodd⟩
    | false =>
      change em.mantissa / 2 + em.mantissa / 2 % 2 = _ ∨
        em.mantissa / 2 + em.mantissa / 2 % 2 = _ ∧ _
      omega

theorem mantissa_ofMantissaAndAccuracy (n : Nat) (acc : Accuracy) :
    (ExtendedMantissa.ofMantissaAndAccuracy n acc).mantissa = n := by
  cases acc with
  | exact => rfl
  | inexact o => cases o <;> rfl

/-- A quotient of 53 or 54 bits is moved by one place at most. -/
theorem shiftToTargetExponent_quotient {n : Nat} {j : Nat} (hj : j ≤ 1) (hu : u ≤ 106)
    (hlow : 2 ^ (52 + j) ≤ n) (hup : n < 2 ^ (53 + j)) (acc : Accuracy) :
    shiftToTargetExponent .binary64 n (-u) acc =
      (ExtendedMantissa.ofMantissaAndAccuracy n acc >>> j, (-u : Int) + j) := by
  have hpos : 0 < n := (Nat.two_pow_pos _).trans_le hlow
  have hlog : n.log2 = 52 + j :=
    (Nat.log2_eq_iff hpos.ne').mpr ⟨hlow, by rwa [Nat.add_right_comm]⟩
  have htarget : Format.binary64.targetExponent (totalExponent n (-u)) = (-u : Int) + j := by
    simp only [Format.targetExponent, totalExponent, hlog, Format.mantissaBits, Format.minExponent]
    omega
  simp only [shiftToTargetExponent, htarget, shiftToExponent,
    show ((-u : Int) + j - -u).toNat = j by omega]

/-- What a quotient is rounded to, in units of `2 ^ -u`. -/
structure Rounds (a b u n : Nat) : Prop where
  full : 2 ^ 52 ≤ a * 2 ^ u / b
  eq : n = a * 2 ^ u / b ∨
    n = a * 2 ^ u / b + 1 ∧ (2 * (a * 2 ^ u / b) + 1) * b ≤ 2 * (a * 2 ^ u)

theorem Rounds.le {n : Nat} (h : Rounds a b u n) : 2 ^ 52 ≤ n := by
  have := h.full
  rcases h.eq with heq | ⟨heq, -⟩ <;> omega

theorem Rounds.le_of_lt {n : Nat} (h : Rounds a b u n) (hlt : a * 2 ^ u / b < 2 ^ 53) :
    n ≤ 2 ^ 53 := by
  rcases h.eq with heq | ⟨heq, -⟩ <;> omega

theorem div_two_pow_succ (a b u : Nat) : a * 2 ^ (u + 1) / b / 2 = a * 2 ^ u / b := by
  rw [Nat.div_div_eq_div_mul, Nat.pow_succ, ← Nat.mul_assoc, Nat.mul_div_mul_right _ _ (by decide)]

/-- A quotient of 54 bits is half as many units of twice the size. -/
theorem rounds_half (hmany : 2 ^ 53 ≤ a * 2 ^ (u + 1) / b) {n : Nat}
    (hn : n = a * 2 ^ (u + 1) / b / 2 ∨
      n = a * 2 ^ (u + 1) / b / 2 + 1 ∧ a * 2 ^ (u + 1) / b % 2 = 1) : Rounds a b u n := by
  have hhalf := div_two_pow_succ a b u
  have hle := Nat.div_mul_le_self (a * 2 ^ (u + 1)) b
  rw [hhalf] at hn
  refine ⟨by omega, hn.imp_right fun ⟨hup, hodd⟩ => ⟨hup, ?_⟩⟩
  calc (2 * (a * 2 ^ u / b) + 1) * b = a * 2 ^ (u + 1) / b * b := by congr 1; omega
    _ ≤ a * 2 ^ (u + 1) := hle
    _ = 2 * (a * 2 ^ u) := by ring

/-- The bits of a quotient that are kept. -/
theorem shiftToTargetExponent_div (hu : u ≤ 106) (hsmall : a / b < 2 ^ 52)
    (hlow : 2 ^ 52 ≤ a * 2 ^ u / b) (hup : a * 2 ^ u / b < 2 ^ 54) :
    ∃ (w : Nat) (rest : ExtendedMantissa),
      shiftToTargetExponent .binary64 (a * 2 ^ u / b) (-u)
        (accuracyOfFraction (a * 2 ^ u % b) b) = (rest, (-w : Int)) ∧
      Rounds a b w rest.roundedMantissa ∧ rest.roundedMantissa ≤ 2 ^ 53 ∧ w ≤ 106 := by
  rcases Nat.lt_or_ge (a * 2 ^ u / b) (2 ^ 53) with hfew | hmany
  · have hround : Rounds a b u _ := ⟨hlow, roundedMantissa_div (a * 2 ^ u) b⟩
    refine ⟨u, _, ?_, hround, hround.le_of_lt hfew, hu⟩
    refine (shiftToTargetExponent_quotient (j := 0) (Nat.zero_le 1) hu hlow hfew _).trans ?_
    rw [Nat.cast_zero, Int.add_zero]
    rfl
  · cases u with
    | zero =>
      rw [Nat.pow_zero, Nat.mul_one] at hlow
      omega
    | succ w =>
      have hshift := shiftToTargetExponent_quotient (j := 1) le_rfl hu hmany hup
        (accuracyOfFraction (a * 2 ^ (w + 1) % b) b)
      have hrounded := roundedMantissa_shiftRightOne
        (.ofMantissaAndAccuracy (a * 2 ^ (w + 1) / b) (accuracyOfFraction (a * 2 ^ (w + 1) % b) b))
      rw [mantissa_ofMantissaAndAccuracy] at hrounded
      have hround := rounds_half hmany hrounded
      refine ⟨w, _, hshift.trans ?_, hround, hround.le_of_lt ?_, by omega⟩
      · rw [show (-((w + 1 : Nat) : Int)) + (1 : Nat) = -w by omega]
        rfl
      · have hhalf : a * 2 ^ (w + 1) / b / 2 = a * 2 ^ w / b := div_two_pow_succ ..
        omega

/-- **The parts of a quotient** of whole numbers, if it has fewer than 53 bits before the point. -/
theorem IsCount.unpack_div (hx : IsCount x a) (hy : IsCount y b) (hsmall : a / b < 2 ^ 52) :
    ∃ (u n m j : Nat) (hm : Normal m), Rounds a b u n ∧ m * 2 ^ j = n ∧ j ≤ 1 ∧ u ≤ 106 ∧
      (x / y).toModel.unpack = .finite .positive m (-u + j) hm.pos := by
  obtain ⟨m₁, k₁, h₁, hx⟩ := hx
  obtain ⟨m₂, k₂, h₂, hy⟩ := hy
  have hle₁ := h₁.le
  have hle₂ := h₂.le
  obtain ⟨u, hu⟩ : ∃ u, u + k₁ = 53 + k₂ := ⟨53 + k₂ - k₁, by omega⟩
  obtain ⟨hunpack, hlow, hup⟩ := Number.unpack_div h₁ h₂ hx hy hu
  obtain ⟨w, rest, hshift, hround, hle, hw⟩ := shiftToTargetExponent_div (by omega) hsmall hlow
    hup
  obtain ⟨m, j, hm, hvalue, hj, hrounded⟩ :=
    roundWithAccuracy_of_shift hshift rfl hround.le hle (by omega) .positive
  rw [hrounded, unpack_pack_normal hm (by omega) (by omega)] at hunpack
  exact ⟨w, _, m, j, hm, hround, hvalue, hj, hw, hunpack⟩

/-! ## The whole part of a quotient -/

/-- To shift to the right divides by a power of two. -/
theorem mantissa_shiftRight (em : ExtendedMantissa) (n : Nat) :
    (em >>> n).mantissa = em.mantissa / 2 ^ n := by
  induction n with
  | zero => exact (Nat.div_one _).symm
  | succ n ih =>
    change (em >>> n).mantissa / 2 = _
    rw [ih, Nat.div_div_eq_div_mul, Nat.pow_succ]

/-- The whole part of a number of fewer than 53 bits before the point. -/
theorem truncate_finite (hm : Normal m) (hv : 1 ≤ v) (hv' : v ≤ 1074)
    (hx : x.toModel.unpack = .finite .positive m (-v) hm.pos) :
    truncate x = Float.ofNat (m / 2 ^ v) := by
  have habs : x.abs.toModel.unpack = .finite .positive m (-v) hm.pos := by
    change (Float.Model.pack x.toModel.unpack.abs).unpack = _
    rw [hx]
    exact unpack_pack_normal hm (by omega) (by omega) .positive
  have hbelow : x.abs < wholeFrom := by
    have hfrom : wholeFrom.toModel.unpack = .finite .positive (2 ^ 52) 0 (by decide) := by rfl
    rw [lt_iff, habs, hfrom]
    change (some ((compare (-v : Int) 0).then (compare m (2 ^ 52))) == some .lt) = true
    rw [Int.compare_eq_lt.mpr (by omega)]
    rfl
  have hcount : x.abs.toUInt64.toNat = m / 2 ^ v := by
    have hint : UnpackedFloat.toInt 0 (UInt64.size - 1) x.abs.toModel.unpack =
      (m / 2 ^ v : Nat) := by
      have hnone : ((-v : Int) - 0).toNat = 0 := by omega
      have hamount : (0 - ((-v : Int) - (0 : Nat))).toNat = v := by omega
      rw [habs]
      change roundToInt .positive m (-v) = _
      simp only [roundToInt, decreaseExponent, hnone, Nat.shiftLeft_zero, shiftToExponent, hamount,
        mantissa_shiftRight, mantissa_ofMantissaAndAccuracy]
      rfl
    have hfew : m / 2 ^ v < 2 ^ 64 :=
      (Nat.div_le_self ..).trans_lt (hm.upper.trans (by decide))
    change (UInt64.ofNatClamp
      (UnpackedFloat.toInt 0 (UInt64.size - 1) x.abs.toModel.unpack).toNat).toNat = _
    rw [hint, Int.toNat_natCast]
    exact UInt64.toNat_ofNatClamp_of_lt hfew
  unfold truncate
  rw [if_pos hbelow, hcount, isNegative_of_unpack hx]
  rfl

theorem IsCount.pos (hx : IsCount x a) : 0 < a := by
  obtain ⟨_, _, h, -⟩ := hx
  exact Nat.pos_of_ne_zero h.ne_zero

/-- Zero parts are zero. -/
theorem IsCount.zero_div (hy : IsCount y b) : Float.ofNat 0 / y = Float.ofNat 0 := by
  obtain ⟨m, k, h, hy⟩ := hy
  refine eq_of_unpack ?_
  change (Float.Model.pack (UnpackedFloat.div .binary64 (Float.ofNat 0).toModel.unpack
    y.toModel.unpack)).unpack = _
  rw [hy]
  rfl

/-- **The whole part of a quotient of counts is their whole quotient.** -/
theorem IsCount.truncate_div (hx : IsCount x a) (hy : IsCount y b) (ha : a ≤ 2 ^ 53)
    (hsmall : a / b < 2 ^ 52) : truncate (x / y) = Float.ofNat (a / b) := by
  obtain ⟨u, n, m, j, hm, hround, hvalue, hj, hu, hunpack⟩ := hx.unpack_div hy hsmall
  have hwhole : n / 2 ^ u = a / b := rounded_div hy.pos ha hround.full hround.eq
  -- The quotient has a place behind the point: without one it would have 53 bits in front of it.
  obtain ⟨v, rfl⟩ : ∃ v, u = v + j := by
    refine ⟨u - j, (Nat.sub_add_cancel (hj.trans ?_)).symm⟩
    by_contra hnone
    obtain rfl : u = 0 := by omega
    have := hround.le
    rw [Nat.pow_zero, Nat.div_one] at hwhole
    omega
  have hquotient : m / 2 ^ v = a / b := by
    rw [← hwhole, ← hvalue, Nat.pow_add, Nat.mul_div_mul_right _ _ (Nat.two_pow_pos j)]
  have hplace : 1 ≤ v := by
    by_contra hnone
    obtain rfl : v = 0 := by omega
    have := hm.lower
    rw [Nat.pow_zero, Nat.div_one] at hquotient
    omega
  have hexponent : (-(v + j : Nat) : Int) + j = -v := by omega
  rw [← hquotient]
  exact truncate_finite hm hplace (by omega) (by rw [hunpack]; simp only [hexponent])

/-- **The whole quotient** of whole numbers up to `2 ^ 53`. -/
theorem truncate_div (ha : a ≤ 2 ^ 53) (hb : 2 ≤ b) (hb' : b ≤ 2 ^ 53) :
    truncate (Float.ofNat a / Float.ofNat b) = Float.ofNat (a / b) := by
  have hy := isCount_ofNat (n := b) (by omega) hb'
  rcases Nat.eq_zero_or_pos a with rfl | hpos
  · rw [hy.zero_div, Nat.zero_div]
    rfl
  rcases Nat.lt_or_ge (a / b) (2 ^ 52) with hsmall | hlarge
  · exact (isCount_ofNat hpos.ne' ha).truncate_div hy ha hsmall
  · -- Only half of the greatest number has 53 bits.
    have hproduct := (Nat.le_div_iff_mul_le (by omega)).mp hlarge
    have htwo : b = 2 := by omega
    subst htwo
    obtain rfl : a = 2 ^ 53 := by omega
    decide +kernel

/-! ## Quotients by powers of two -/

/-- The value of a finite number, exactly. -/
def Binary.value? : Binary → Option ℚ
  | .finite negative m e => some ((if negative then -1 else 1) * m * 2 ^ e)
  | _ => none

/-- The value of a finite positive number. -/
theorem value_of_unpack {e : Int} {hm : 0 < m}
    (hx : x.toModel.unpack = .finite .positive m e hm) :
    (binary x).value? = some (m * 2 ^ e : ℚ) := by
  rw [binary_of_unpack hx, Binary.value?, if_neg Bool.false_ne_true, one_mul]

/-- A finite positive number is not below zero. -/
theorem zero_le_of_unpack {e : Int} {hm : 0 < m}
    (hx : x.toModel.unpack = .finite .positive m e hm) : 0 ≤ x := by
  rw [le_iff, hx]
  rfl

/-- Numbers of full length are compared with one by their exponents. -/
theorem lt_one_of_unpack {e : Int} (hm : Normal m)
    (hx : x.toModel.unpack = .finite .positive m e hm.pos) (hlt : (m * 2 ^ e : ℚ) < 1) : x < 1 := by
  have hexponent : e < -52 := by
    by_contra hge
    have hpower : (2 : ℚ) ^ (-52 : Int) ≤ 2 ^ e := zpow_le_zpow_right₀ one_le_two (by omega)
    have hlower : (2 ^ 52 : ℚ) ≤ m := mod_cast hm.lower
    have hone : (1 : ℚ) ≤ m * 2 ^ e := calc
      (1 : ℚ) = 2 ^ 52 * 2 ^ (-52 : Int) := by norm_num
      _ ≤ m * 2 ^ e := by gcongr
    exact hone.not_gt hlt
  rw [lt_iff, hx, unpack_one]
  change (some ((compare e (-52)).then (compare m (2 ^ 52))) == some .lt) = true
  rw [Int.compare_eq_lt.mpr hexponent]
  rfl

/-- **A quotient by a power of two is not rounded.** -/
theorem IsCount.unpack_div_two_pow {j : Nat} (hx : IsCount x a) (ha : a < 2 ^ 53) (hj : 1 ≤ j)
    (hj' : j ≤ 53) :
    ∃ (m : Nat) (e : Int) (hm : Normal m),
      (x / Float.ofNat (2 ^ j)).toModel.unpack = .finite .positive m e hm.pos ∧
      (m * 2 ^ e : ℚ) = a / 2 ^ j := by
  have hy := isCount_ofNat (Nat.two_pow_pos j).ne' (Nat.pow_le_pow_right (by decide) hj')
  have hsmall : a / 2 ^ j < 2 ^ 52 := by
    refine (Nat.div_lt_iff_lt_mul (Nat.two_pow_pos j)).mpr (ha.trans_le ?_)
    calc 2 ^ 53 = 2 ^ 52 * 2 ^ 1 := by norm_num
      _ ≤ 2 ^ 52 * 2 ^ j := Nat.mul_le_mul_left _ (Nat.pow_le_pow_right (by decide) hj)
  obtain ⟨u, n, m, i, hm, hround, hvalue, -, -, hunpack⟩ := hx.unpack_div hy hsmall
  -- The units of the quotient are those of the fraction or smaller ones.
  obtain ⟨v, rfl⟩ : ∃ v, u = j + v := by
    have hfull := (Nat.le_div_iff_mul_le (Nat.two_pow_pos j)).mp hround.full
    have hpower : 2 ^ (52 + j) < 2 ^ (53 + u) := calc
      2 ^ (52 + j) = 2 ^ 52 * 2 ^ j := Nat.pow_add ..
      _ ≤ a * 2 ^ u := hfull
      _ < 2 ^ 53 * 2 ^ u := Nat.mul_lt_mul_of_pos_right ha (Nat.two_pow_pos u)
      _ = 2 ^ (53 + u) := (Nat.pow_add ..).symm
    have := (Nat.pow_lt_pow_iff_right (by decide)).mp hpower
    exact ⟨u - j, by omega⟩
  have hscaled : a * 2 ^ (j + v) = a * 2 ^ v * 2 ^ j := by rw [Nat.pow_add]; ring
  have hwhole : a * 2 ^ (j + v) / 2 ^ j = a * 2 ^ v := by
    rw [hscaled, Nat.mul_div_cancel _ (Nat.two_pow_pos j)]
  have hexact : n = a * 2 ^ v := by
    rcases hround.eq with hn | ⟨-, hhalf⟩
    · rw [hn, hwhole]
    · rw [hwhole, hscaled, Nat.add_mul, Nat.mul_assoc] at hhalf
      have := Nat.two_pow_pos j
      omega
  have hcast : (m * 2 ^ i : ℚ) = a * 2 ^ v := mod_cast hvalue.trans hexact
  refine ⟨m, _, hm, hunpack, ?_⟩
  calc (m * 2 ^ (-((j + v : Nat) : Int) + (i : Int)) : ℚ) = m * 2 ^ i / 2 ^ (j + v) := by
        rw [zpow_add₀ two_ne_zero, zpow_neg, zpow_natCast, zpow_natCast]
        ring
    _ = a * 2 ^ v / (2 ^ j * 2 ^ v) := by rw [hcast, pow_add]
    _ = a / 2 ^ j := mul_div_mul_right _ _ (by positivity)

end

end ScriptTrace.Number
