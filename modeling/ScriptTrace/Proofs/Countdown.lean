import ScriptTrace.Proofs.Numbers

/-!
# Proofs/Countdown — one less

One is taken from a number of at least one.  Up to `2 ^ 53` that is exact, so that the whole part
gets smaller by one.  Above, the difference lies between two numbers and is rounded:

    2 ^ 53 + 2   ↦   2 ^ 53          the significand is odd, the tie goes down
    2 ^ 53 + 4   ↦   2 ^ 53 + 4      the significand is even, the tie goes up

A number that does not get smaller is the same as before (`sub_one`), and so it stays forever.
-/

namespace ScriptTrace.Number

open Float.Model (Format totalExponent UnpackedFloat)
open Float.Model.UnpackedFloat

/-! ## Numbers of at least one -/

/-- A number with an exponent that is not too small has a significand of full length. -/
theorem normal_of_unpack {x : Float} {s : Sign} {m : Nat} {e : Int} {hm : 0 < m}
    (h : x.toModel.unpack = .finite s m e hm) (he : -1074 < e) : Normal m ∧ e ≤ 971 := by
  change unpack .binary64 x.toBits.toBitVec = _ at h
  unfold unpack at h
  dsimp only at h
  split at h
  · split at h <;> cases h
  split at h
  · rename_i hzero
    split at h
    · cases h
    · cases h
      rw [hzero] at he
      exact absurd he (by decide)
  · rename_i hones hzero
    cases h
    have hones' : (@unpackExponent .binary64 x.toBits.toBitVec).toNat ≠ 2047 := fun heq =>
      hones (BitVec.eq_of_toNat_eq heq)
    have hexponent : (@unpackExponent .binary64 x.toBits.toBitVec).toNat < 2048 := BitVec.isLt _
    have hfraction : (@unpackMantissa .binary64 x.toBits.toBitVec).toNat < 2 ^ 52 := BitVec.isLt _
    have happend : (1#1 ++ @unpackMantissa .binary64 x.toBits.toBitVec).toNat =
        2 ^ 52 + (@unpackMantissa .binary64 x.toBits.toBitVec).toNat := by
      rw [BitVec.toNat_append]
      exact (Nat.two_pow_add_eq_or_of_lt hfraction 1).symm
    refine ⟨⟨by omega, by omega⟩, ?_⟩
    change _ - (1023 + 52 : Int) ≤ 971
    omega

@[simp] theorem unpack_one : (1 : Float).toModel.unpack = .finite .positive (2 ^ 52) (-52)
    (by decide) :=
  unpack_ofNat (n := 1) (by decide) (by decide)

/-- A number of at least one is infinite, or its significand is moved by at most 52 places to the
right. -/
theorem unpack_of_one_le {x : Float} (hx : x ≥ 1) : x.toModel.unpack = .infinity .positive ∨
    ∃ (m k : Nat) (hm : Normal m), k ≤ 1023 ∧
      x.toModel.unpack = .finite .positive m (k - 52) hm.pos := by
  have hle := le_iff.mp hx
  rw [unpack_one] at hle
  cases hunpack : x.toModel.unpack with
  | notANumber =>
    rw [hunpack] at hle
    cases hle
  | zero s =>
    rw [hunpack] at hle
    cases hle
  | infinity s =>
    rw [hunpack] at hle
    cases s with
    | positive => exact .inl rfl
    | negative => cases hle
  | finite s m e hm =>
    rw [hunpack] at hle
    cases s with
    | negative => cases hle
    | positive =>
      right
      have hlower : -52 ≤ e := by
        change ((compare (-52) e).then (compare (2 ^ 52) m)).isLE = true at hle
        by_contra hless
        rw [Int.compare_eq_gt.mpr (by omega)] at hle
        cases hle
      obtain ⟨hm', hupper⟩ := normal_of_unpack hunpack (by omega)
      obtain ⟨k, rfl⟩ : ∃ k : Nat, e = k - 52 := ⟨(e + 52).toNat, by omega⟩
      exact ⟨m, k, hm', by omega, rfl⟩

/-! ## Rounding -/

/-- **A number of few digits is rounded to itself**, wherever its digits stand. -/
theorem round_exact {a : Nat} (ha : a ≠ 0) (hlt : a < 2 ^ 53) (s : Sign) (j : Nat) {f : Int}
    (hf : -1022 ≤ f + j) :
    UnpackedFloat.round .binary64 s (a * 2 ^ j) f =
      .finite s (a * 2 ^ (52 - a.log2)) (f + j - (52 - a.log2 : Nat))
        (Normal.of_whole ha (log2_le_of_lt ha hlt)).pos := by
  have hlog := log2_le_of_lt ha hlt
  have hnormal := Normal.of_whole ha hlog
  have htarget : Format.binary64.targetExponent (totalExponent (a * 2 ^ j) f) =
      f + j - (52 - a.log2 : Nat) := by
    simp only [Format.targetExponent, totalExponent, log2_mul_two_pow ha, Format.mantissaBits,
      Format.minExponent]
    omega
  rcases Nat.le_total (a.log2 + j) 52 with hfew | hmany
  · -- The digits are moved to the left.
    have hamount : (f - (f + j - (52 - a.log2 : Nat))).toNat = 52 - a.log2 - j := by omega
    have hdigits : a * 2 ^ j * 2 ^ (52 - a.log2 - j) = a * 2 ^ (52 - a.log2) * 2 ^ 0 := by
      rw [Nat.mul_assoc, ← Nat.pow_add, Nat.pow_zero, Nat.mul_one, Nat.add_sub_cancel' (by omega)]
    have hexponent : f - (52 - a.log2 - j : Nat) = f + j - (52 - a.log2 : Nat) - (0 : Nat) := by
      omega
    simp only [UnpackedFloat.round, htarget, decreaseExponent, hamount, Nat.shiftLeft_eq, hdigits,
      hexponent]
    exact roundWithAccuracy_exact hnormal (by omega) s 0
  · -- Zeros are moved out to the right.
    have hamount : (f - (f + j - (52 - a.log2 : Nat))).toNat = 0 := by omega
    have hdigits : a * 2 ^ j = a * 2 ^ (52 - a.log2) * 2 ^ (j + a.log2 - 52) := by
      rw [Nat.mul_assoc, ← Nat.pow_add, show 52 - a.log2 + (j + a.log2 - 52) = j by omega]
    have hexponent : f - (0 : Nat) = f + j - (52 - a.log2 : Nat) - (j + a.log2 - 52 : Nat) := by
      omega
    simp only [UnpackedFloat.round, htarget, decreaseExponent, hamount, Nat.shiftLeft_eq,
      Nat.pow_zero, Nat.mul_one, hexponent]
    rw [hdigits]
    exact roundWithAccuracy_exact hnormal (by omega) s _

/-- Digits that are moved out to the right behind ones only. -/
theorem shiftRight_ones (a j k : Nat) :
    (⟨(a * 2 ^ k + (2 ^ k - 1)) * 2 ^ j, false, false⟩ : ExtendedMantissa) >>> (j + k) =
      ⟨a, decide (1 ≤ k), decide (2 ≤ k)⟩ := by
  induction k generalizing a with
  | zero =>
    rw [Nat.pow_zero, Nat.mul_one, Nat.sub_self, Nat.add_zero, Nat.add_zero]
    exact shiftRight_exact a j
  | succ k ih =>
    have hdouble : a * 2 ^ (k + 1) + (2 ^ (k + 1) - 1) = (2 * a + 1) * 2 ^ k + (2 ^ k - 1) := by
      have hpos := Nat.two_pow_pos k
      rw [Nat.pow_succ, Nat.add_mul]
      have : a * (2 ^ k * 2) = 2 * a * 2 ^ k := by ring
      omega
    change ExtendedMantissa.shiftRightOne
      ((⟨(a * 2 ^ (k + 1) + (2 ^ (k + 1) - 1)) * 2 ^ j, false, false⟩ : ExtendedMantissa) >>>
        (j + k)) = _
    rw [hdouble, ih]
    have hhalf : (2 * a + 1) / 2 = a := by omega
    have hodd : (2 * a + 1) % 2 = 1 := by omega
    simp [ExtendedMantissa.shiftRightOne, hhalf, hodd]
    omega

/-- A number with ones behind a significand of full length: it lies just below the next one. -/
theorem log2_ones {a i : Nat} (ha : Normal a) : (a * 2 ^ i + (2 ^ i - 1)).log2 = 52 + i := by
  have hpos := Nat.two_pow_pos i
  have hlower : 2 ^ 52 * 2 ^ i ≤ a * 2 ^ i := Nat.mul_le_mul_right _ ha.lower
  have hupper : (a + 1) * 2 ^ i ≤ 2 ^ 53 * 2 ^ i := Nat.mul_le_mul_right _ ha.upper
  refine (Nat.log2_eq_iff (by omega)).mpr ⟨?_, ?_⟩
  · rw [Nat.pow_add]
    omega
  · rw [show 52 + i + 1 = 53 + i by omega, Nat.pow_add]
    rw [Nat.add_mul] at hupper
    omega

/-- A run of ones keeps its last places when it is rounded. -/
theorem targetExponent_ones {a i : Nat} (ha : Normal a) :
    Format.binary64.targetExponent
      (totalExponent ((a * 2 ^ i + (2 ^ i - 1)) * 2 ^ 52) (-52)) = i := by
  have hne : a * 2 ^ i + (2 ^ i - 1) ≠ 0 := by
    have := Nat.mul_pos ha.pos (Nat.two_pow_pos i)
    omega
  simp only [Format.targetExponent, totalExponent, log2_mul_two_pow hne, log2_ones ha,
    Format.mantissaBits, Format.minExponent]
  omega

theorem shiftToTargetExponent_ones {a i : Nat} (ha : Normal a) :
    shiftToTargetExponent .binary64 ((a * 2 ^ i + (2 ^ i - 1)) * 2 ^ 52) (-52) .exact =
      (⟨a, decide (1 ≤ i), decide (2 ≤ i)⟩, (i : Int)) := by
  have hamount : ((i : Int) - -52).toNat = 52 + i := by omega
  simp only [shiftToTargetExponent, targetExponent_ones ha, shiftToExponent, hamount]
  exact Prod.ext (shiftRight_ones a 52 i) (by omega)

/-! ## One less -/

section

variable {x : Float} {m k : Nat}

theorem normalize_natCast {n : Nat} (hn : 0 < n) (f : Int) :
    UnpackedFloat.normalize .binary64 n f .positive =
      UnpackedFloat.round .binary64 .positive n f := by
  have hcompare : compare (n : Int) 0 = .gt := Int.compare_eq_gt.mpr (by omega)
  simp only [UnpackedFloat.normalize, hcompare, Int.toNat_natCast]

/-- The parts of a number that is one less. -/
theorem unpack_sub_one (hm : Normal m)
    (hx : x.toModel.unpack = .finite .positive m (k - 52) hm.pos) :
    (x - 1).toModel.unpack = (Float.Model.pack
      (UnpackedFloat.normalize .binary64 ((m * 2 ^ k : Nat) - (2 ^ 52 : Nat)) (-52)
        .positive)).unpack := by
  change (Float.Model.pack (UnpackedFloat.sub .binary64 x.toModel.unpack
    (1 : Float).toModel.unpack)).unpack = _
  rw [hx, unpack_one]
  have hmin : min ((k : Int) - 52) (-52) = -52 := by omega
  have hamount : ((k : Int) - 52 - -52).toNat = k := by omega
  simp only [UnpackedFloat.sub, hmin, decreaseExponent, hamount, Nat.shiftLeft_eq]
  rfl

/-- The whole part of a number is the whole part of what it stands for. -/
theorem toInt_finite {j n : Nat} {hpos : 0 < m}
    (hx : x.toModel.unpack = .finite .positive m (j - n) hpos) :
    toInt x = (m * 2 ^ j / 2 ^ n : Nat) := by
  have hwhole : (if (j : Int) - n ≥ 0 then m <<< ((j : Int) - n).toNat
      else m >>> (-((j : Int) - n)).toNat) = m * 2 ^ j / 2 ^ n := by
    split
    · rw [show ((j : Int) - n).toNat = j - n by omega, Nat.shiftLeft_eq,
        ← Nat.pow_div (by omega) (by decide), Nat.mul_div_assoc _ (Nat.pow_dvd_pow 2 (by omega))]
    · rw [show (-((j : Int) - n)).toNat = n - j by omega, Nat.shiftRight_eq_div_pow,
        ← Nat.mul_div_mul_right m (2 ^ (n - j)) (Nat.two_pow_pos j), ← Nat.pow_add,
        Nat.sub_add_cancel (by omega)]
  have hbinary : binary x = .finite false m (j - n) := by rw [binary_eq_ofParts, hx]; rfl
  unfold toInt
  rw [hbinary]
  dsimp only
  rw [hwhole]
  rfl

/-- How a number counts is the whole part of what it stands for. -/
theorem toCount_finite {bound j n : Nat} {hpos : 0 < m}
    (hx : x.toModel.unpack = .finite .positive m (j - n) hpos) :
    toCount bound x = min bound (m * 2 ^ j / 2 ^ n) := by
  have hbinary : binary x = .finite false m (j - n) := by rw [binary_eq_ofParts, hx]; rfl
  unfold toCount
  rw [hbinary, toInt_finite hx]
  rfl

/-- What a difference counts that needs no rounding. -/
theorem toCount_sub_one {a j : Nat} (hm : Normal m)
    (hx : x.toModel.unpack = .finite .positive m (k - 52) hm.pos) (ha : a < 2 ^ 53) (hj : j ≤ 53)
    (hless : a * 2 ^ j + 2 ^ 52 = m * 2 ^ k) (bound : Nat) :
    toCount bound (x - 1) = min bound (a * 2 ^ j / 2 ^ 52) := by
  have hunpack := unpack_sub_one hm hx
  have hdifference : ((m * 2 ^ k : Nat) - (2 ^ 52 : Nat) : Int) = (a * 2 ^ j : Nat) := by omega
  rw [hdifference] at hunpack
  by_cases hzero : a = 0
  · subst hzero
    rw [Nat.zero_mul] at hunpack ⊢
    have hbinary : binary (x - 1) = .finite false 0 leastExponent := by
      rw [binary_eq_ofParts, hunpack]
      rfl
    unfold toCount toInt
    rw [hbinary]
    rfl
  · have hpos : 0 < a * 2 ^ j := Nat.mul_pos (Nat.pos_of_ne_zero hzero) (Nat.two_pow_pos j)
    have hlog := log2_le_of_lt hzero ha
    rw [normalize_natCast hpos, round_exact hzero ha .positive j (f := -52) (by omega),
      unpack_pack_normal (.of_whole hzero hlog) (by omega) (by omega)] at hunpack
    have hexponent : (-52 : Int) + j - (52 - a.log2 : Nat) = j - (52 + (52 - a.log2) : Nat) := by
      omega
    simp only [hexponent] at hunpack
    rw [toCount_finite hunpack, Nat.pow_add, Nat.mul_right_comm,
      Nat.mul_div_mul_right _ _ (Nat.two_pow_pos _)]

/-- One less is less where it needs no rounding. -/
theorem toCount_sub_one_lt {a j : Nat} (hm : Normal m)
    (hx : x.toModel.unpack = .finite .positive m (k - 52) hm.pos) (ha : a < 2 ^ 53) (hj : j ≤ 53)
    (hless : a * 2 ^ j + 2 ^ 52 = m * 2 ^ k) :
    toCount maxCount (x - 1) < toCount maxCount x := by
  have hquotient : a * 2 ^ j / 2 ^ 52 < 2 ^ 54 := by
    refine Nat.div_lt_of_lt_mul ?_
    calc a * 2 ^ j < 2 ^ 53 * 2 ^ j := Nat.mul_lt_mul_of_pos_right ha (Nat.two_pow_pos j)
      _ ≤ 2 ^ 53 * 2 ^ 53 := Nat.mul_le_mul_left _ (Nat.pow_le_pow_right (by decide) hj)
      _ = 2 ^ 52 * 2 ^ 54 := by decide
  have hcount : toCount maxCount x = min maxCount (m * 2 ^ k / 2 ^ 52) := toCount_finite hx
  have hmax : maxCount = 2 ^ 64 - 1 := rfl
  rw [toCount_sub_one hm hx ha hj hless, hcount, ← hless,
    Nat.add_div_right _ (Nat.two_pow_pos 52), hmax]
  omega

/-- A number of ones in front of the unit is one less than the next number. -/
theorem ones_add_one (a i : Nat) :
    (a * 2 ^ i + (2 ^ i - 1)) * 2 ^ 52 + 2 ^ 52 = (a + 1) * 2 ^ (52 + i) := by
  have hpos := Nat.two_pow_pos i
  have hones : a * 2 ^ i + (2 ^ i - 1) + 1 = (a + 1) * 2 ^ i := by
    rw [Nat.add_mul]
    omega
  calc (a * 2 ^ i + (2 ^ i - 1)) * 2 ^ 52 + 2 ^ 52
      = (a * 2 ^ i + (2 ^ i - 1) + 1) * 2 ^ 52 := by ring
    _ = (a + 1) * 2 ^ (52 + i) := by rw [hones, Nat.mul_assoc, ← Nat.pow_add, Nat.add_comm i]

/-- Rounding such a number starts with the digits that are moved out. -/
theorem round_eq_roundWithAccuracy {a i : Nat} (ha : Normal a) (s : Sign) :
    UnpackedFloat.round .binary64 s ((a * 2 ^ i + (2 ^ i - 1)) * 2 ^ 52) (-52) =
      roundWithAccuracy .binary64 s ((a * 2 ^ i + (2 ^ i - 1)) * 2 ^ 52) (-52) .exact := by
  have htarget := targetExponent_ones (i := i) ha
  have hamount : (-52 - (i : Int)).toNat = 0 := by omega
  simp only [UnpackedFloat.round, htarget, decreaseExponent, hamount, Nat.shiftLeft_zero]
  rfl

/-- A difference just below a number of full length. -/
theorem round_ones {a r i : Nat} (ha : Normal a) (hr : Normal r)
    (hround : (⟨a, decide (1 ≤ i), decide (2 ≤ i)⟩ : ExtendedMantissa).roundedMantissa = r)
    (s : Sign) :
    UnpackedFloat.round .binary64 s ((a * 2 ^ i + (2 ^ i - 1)) * 2 ^ 52) (-52) =
      .finite s r i hr.pos := by
  rw [round_eq_roundWithAccuracy ha]
  exact roundWithAccuracy_normal s (shiftToTargetExponent_ones ha) hround hr (by omega)

theorem normal_power : Normal (2 ^ 52) := ⟨le_rfl, by decide⟩

theorem normal_ones : Normal (2 ^ 53 - 1) := ⟨by decide, by decide⟩

/-- A significand that was rounded up to one bit more loses a zero. -/
theorem shiftToTargetExponent_carry {e : Int} (he : -1074 ≤ e) :
    shiftToTargetExponent .binary64 (2 ^ 53) e .exact = (⟨2 ^ 52, false, false⟩, e + 1) := by
  have htarget : Format.binary64.targetExponent (totalExponent (2 ^ 53) e) = e + 1 := by
    have hshift := targetExponent_normal normal_power (e := e + 1) (by omega) 1
    rwa [show e + 1 - (1 : Nat) = e by omega] at hshift
  have hhalf := shiftRight_exact (2 ^ 52) 1
  rw [← Nat.pow_add] at hhalf
  simp only [shiftToTargetExponent, htarget, shiftToExponent,
    show (e + 1 - e).toNat = 1 by omega]
  exact Prod.ext hhalf rfl

/-- A difference just below a power of two, where the numbers lie twice as close. -/
theorem round_ones_of_power {i : Nat} (hi : 1 ≤ i) (s : Sign) :
    UnpackedFloat.round .binary64 s (((2 ^ 53 - 1) * 2 ^ i + (2 ^ i - 1)) * 2 ^ 52) (-52) =
      .finite s (2 ^ 52) (i + 1) normal_power.pos := by
  have hround : (⟨2 ^ 53 - 1, decide (1 ≤ i), decide (2 ≤ i)⟩ : ExtendedMantissa).roundedMantissa =
      2 ^ 53 := by
    rw [decide_eq_true hi]
    cases decide (2 ≤ i) <;> rfl
  rw [round_eq_roundWithAccuracy normal_ones]
  simp only [roundWithAccuracy, shiftToTargetExponent_ones normal_ones, hround,
    shiftToTargetExponent_carry (e := i) (by omega), dif_neg normal_power.pos.ne']

theorem cast_sub_eq {n d p : Nat} (h : n + d = p) : (p : Int) - d = n := by omega

/-- One less than a number from `2 ^ 53` on, before it is rounded. -/
theorem unpack_sub_one_of_many {a i : Nat} (hm : Normal m) (ha : Normal a)
    (hx : x.toModel.unpack = .finite .positive m (k - 52) hm.pos)
    (hones : (a + 1) * 2 ^ (52 + i) = m * 2 ^ k) :
    (x - 1).toModel.unpack = (Float.Model.pack (UnpackedFloat.round .binary64 .positive
      ((a * 2 ^ i + (2 ^ i - 1)) * 2 ^ 52) (-52))).unpack := by
  have hpos : 0 < (a * 2 ^ i + (2 ^ i - 1)) * 2 ^ 52 :=
    Nat.mul_pos (Nat.add_pos_left (Nat.mul_pos ha.pos (Nat.two_pow_pos i)) _) (Nat.two_pow_pos 52)
  rw [unpack_sub_one hm hx, cast_sub_eq ((ones_add_one a i).trans hones), normalize_natCast hpos]

/-- One less than a power of two from `2 ^ 54` on is rounded up. -/
theorem sub_one_of_power {i : Nat} (hi : i ≤ 969)
    (hx : x.toModel.unpack = .finite .positive (2 ^ 52) ((54 + i : Nat) - 52) normal_power.pos) :
    x - 1 = x := by
  have hones : (2 ^ 53 - 1 + 1) * 2 ^ (52 + (i + 1)) = 2 ^ 52 * 2 ^ (54 + i) := by
    rw [Nat.sub_add_cancel (by decide), ← Nat.pow_add, ← Nat.pow_add]
    congr 1
    omega
  have hexponent : ((i + 1 : Nat) : Int) + 1 = (54 + i : Nat) - 52 := by omega
  refine eq_of_unpack ((unpack_sub_one_of_many normal_power normal_ones hx hones).trans ?_)
  rw [round_ones_of_power (by omega), unpack_pack_normal normal_power (by omega) (by omega), hx]
  simp only [hexponent]

/-- One less than another number from `2 ^ 53` on lies in the middle between two numbers, or nearer
to that number. -/
theorem sub_one_of_large {i : Nat} (hm : Normal m) (hlower : 2 ^ 52 < m) (hi : i ≤ 970)
    (hx : x.toModel.unpack = .finite .positive m ((53 + i : Nat) - 52) hm.pos) :
    x - 1 = x ∨ toCount maxCount (x - 1) < toCount maxCount x := by
  have hupper := hm.upper
  have hbelow : Normal (m - 1) := ⟨by omega, by omega⟩
  have hones : (m - 1 + 1) * 2 ^ (52 + (i + 1)) = m * 2 ^ (53 + i) := by
    rw [Nat.sub_add_cancel hm.pos, show 52 + (i + 1) = 53 + i by omega]
  have hexponent : ((i + 1 : Nat) : Int) = (53 + i : Nat) - 52 := by omega
  have hsub := unpack_sub_one_of_many hm hbelow hx hones
  have hup (hround : (⟨m - 1, decide (1 ≤ i + 1), decide (2 ≤ i + 1)⟩ :
      ExtendedMantissa).roundedMantissa = m) : x - 1 = x := by
    refine eq_of_unpack (hsub.trans ?_)
    rw [round_ones hbelow hm hround, unpack_pack_normal hm (by omega) (by omega), hx]
    simp only [hexponent]
  cases i with
  | succ i =>
    exact .inl (hup (Nat.sub_add_cancel hm.pos))
  | zero =>
    -- A tie: the even one of the two significands is taken.
    have htie : (⟨m - 1, decide (1 ≤ 0 + 1), decide (2 ≤ 0 + 1)⟩ :
        ExtendedMantissa).roundedMantissa = m - 1 + (m - 1) % 2 := rfl
    rcases Nat.mod_two_eq_zero_or_one (m - 1) with heven | hodd
    · right
      rw [round_ones hbelow hbelow (htie.trans (by rw [heven, Nat.add_zero])),
        unpack_pack_normal hbelow (by decide) (by decide)] at hsub
      have hdouble (n : Nat) : n * 2 ^ 53 / 2 ^ 52 = n * 2 := by
        rw [Nat.mul_div_assoc n (Nat.pow_dvd_pow 2 (by decide)),
          Nat.pow_div (by decide) (by decide)]
      have hcount : toCount maxCount x = min maxCount (m * 2 ^ 53 / 2 ^ 52) := toCount_finite hx
      have hcount' : toCount maxCount (x - 1) = min maxCount ((m - 1) * 2 ^ 53 / 2 ^ 52) :=
        toCount_finite hsub
      have hmax : maxCount = 2 ^ 64 - 1 := rfl
      rw [hcount, hcount', hdouble, hdouble, hmax]
      omega
    · exact .inl (hup (htie.trans (by rw [hodd, Nat.sub_add_cancel hm.pos])))

/-- **One less is less, or the same.** -/
theorem sub_one {x : Float} (hx : x ≥ 1) :
    x - 1 = x ∨ toCount maxCount (x - 1) < toCount maxCount x := by
  obtain hinfinity | ⟨m, k, hm, hk, hunpack⟩ := unpack_of_one_le hx
  · left
    refine eq_of_unpack ?_
    change (Float.Model.pack (UnpackedFloat.sub .binary64 x.toModel.unpack
      (1 : Float).toModel.unpack)).unpack = _
    rw [hinfinity, unpack_one]
    rfl
  rcases Nat.lt_or_ge 52 k with hmany | hfew
  · obtain ⟨i, rfl⟩ : ∃ i, k = 53 + i := ⟨k - 53, by omega⟩
    rcases Nat.eq_or_lt_of_le hm.lower with heq | hlower
    · subst heq
      cases i with
      | zero =>
        right
        exact toCount_sub_one_lt hm hunpack (a := 2 ^ 53 - 1) (j := 52) (by decide) (by decide)
          (by decide)
      | succ i =>
        left
        rw [show 53 + (i + 1) = 54 + i by omega] at hunpack
        exact sub_one_of_power (by omega) hunpack
    · exact sub_one_of_large hm hlower (by omega) hunpack
  · -- No digit is lost below `2 ^ 53`.
    right
    have hpower : 2 ^ (52 - k) ≤ m := (Nat.pow_le_pow_right (by decide) (by omega)).trans hm.lower
    refine toCount_sub_one_lt hm hunpack (a := m - 2 ^ (52 - k)) ?_ (hfew.trans (by decide)) ?_
    · have hupper := hm.upper
      have hpos := Nat.two_pow_pos (52 - k)
      omega
    · have hsplit : 2 ^ (52 - k) * 2 ^ k = 2 ^ 52 := by
        rw [← Nat.pow_add, Nat.sub_add_cancel hfew]
      rw [Nat.sub_mul, hsplit]
      have := Nat.mul_le_mul_right (2 ^ k) hpower
      omega

end

/-! ## Counting down -/

/-- **A number that one can be taken from again and again** and that stays at least one. -/
def IsEndless (x : Float) : Prop := ∀ n : Nat, (fun y : Float => y - 1)^[n] x ≥ 1

namespace IsEndless

variable {x : Float}

theorem ge (h : IsEndless x) : x ≥ 1 := h 0

theorem sub_one (h : IsEndless x) : IsEndless (x - 1) := fun n => h (n + 1)

/-- A count that is endless once one is taken off was endless before. -/
theorem of_sub_one (hx : x ≥ 1) (h : IsEndless (x - 1)) : IsEndless x := by
  intro n
  cases n with
  | zero => exact hx
  | succ n => exact h n

/-- A number that stays the same stays so forever. -/
theorem of_eq (hx : x ≥ 1) (h : x - 1 = x) : IsEndless x := fun n => by
  rw [Function.iterate_fixed (f := fun y : Float => y - 1) h n]
  exact hx

end IsEndless

theorem isEndless_infinity : IsEndless infinity := .of_eq (by decide) (by decide)

/-- **Counting down from any other number comes to an end.** -/
theorem toCount_lt_of_not_isEndless {x : Float} (hx : x ≥ 1) (h : ¬ IsEndless x) :
    toCount maxCount (x - 1) < toCount maxCount x :=
  (sub_one hx).resolve_left fun heq => h (.of_eq hx heq)

end ScriptTrace.Number
