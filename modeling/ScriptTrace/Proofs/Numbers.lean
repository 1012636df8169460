import Mathlib
import ScriptTrace.Number.Binary

/-!
# Proofs/Numbers — whole numbers are held exactly

A number is its parts: a sign, a significand and an exponent.  A whole number of at most 53 bits
fills the significand when its digits are moved to the left, so no operation on it rounds: it is
whole, its whole part is itself, and it is not past the greatest safe integer.
-/

namespace ScriptTrace.Number

open Float.Model (Format totalExponent UnpackedFloat)
open Float.Model.UnpackedFloat

/-- Whether a sign is that of numbers below zero. -/
def isMinus : Sign → Bool
  | .negative => true
  | .positive => false

/-- The exponent of a number, as its bits have it. -/
theorem toNat_biased (bits : UInt64) :
    ((bits >>> 52) &&& 0x7ff).toNat = (@unpackExponent .binary64 bits.toBitVec).toNat := by
  rw [UInt64.toNat_and, UInt64.toNat_shiftRight, unpackExponent_def, BitVec.extractLsb'_toNat]
  exact Nat.and_two_pow_sub_one_eq_mod _ 11

/-- The places of a number, as its bits have them. -/
theorem toNat_fraction (bits : UInt64) :
    (bits &&& 0xfffffffffffff).toNat = (@unpackMantissa .binary64 bits.toBitVec).toNat := by
  rw [UInt64.toNat_and, unpackMantissa_def, BitVec.extractLsb'_toNat]
  exact Nat.and_two_pow_sub_one_eq_mod _ 52

/-- The highest bit of a number is its sign. -/
theorem sign_eq (bits : UInt64) :
    (bits >>> 63 != 0) = isMinus (.ofBitVec (@unpackSign .binary64 bits.toBitVec)) := by
  have htop : (bits >>> 63).toNat = (@unpackSign .binary64 bits.toBitVec).toNat := by
    rw [UInt64.toNat_shiftRight, unpackSign_def, BitVec.extractLsb'_toNat]
    have hlt : bits.toNat < 2 ^ 64 := bits.toNat_lt
    change bits.toNat >>> 63 = bits.toNat >>> 63 % 2
    rw [Nat.shiftRight_eq_div_pow]
    omega
  generalize @unpackSign .binary64 bits.toBitVec = v at htop
  have hzero : bits >>> 63 = 0 ↔ v = 0#1 := by
    rw [← UInt64.toNat_inj, htop, ← BitVec.toNat_inj]
    rfl
  unfold Sign.ofBitVec
  by_cases hv : v = 0#1
  · rw [if_pos hv, hzero.mpr hv]
    rfl
  · rw [if_neg hv, bne_iff_ne.mpr (mt hzero.mp hv)]
    rfl

/-- What a number stands for, told from its parts. -/
def Binary.ofParts : UnpackedFloat → Binary
  | .notANumber => .nan
  | .infinity s => .infinite (isMinus s)
  | .zero s => .finite (isMinus s) 0 leastExponent
  | .finite s m e _ => .finite (isMinus s) m e

/-- **The bits of a number are read as the library reads them.** -/
theorem binary_eq_ofParts (x : Float) : binary x = .ofParts x.toModel.unpack := by
  change _ = Binary.ofParts (unpack .binary64 x.toBits.toBitVec)
  unfold binary Binary.ofBits unpack
  dsimp only
  rw [toNat_biased, toNat_fraction, sign_eq]
  have hones : (@unpackExponent .binary64 x.toBits.toBitVec).toNat = 0x7ff ↔ _ :=
    @BitVec.toNat_inj 11 _ (-1#11)
  have hzeros : (@unpackExponent .binary64 x.toBits.toBitVec).toNat = 0 ↔ _ :=
    @BitVec.toNat_inj 11 _ 0#11
  have hnone : (@unpackMantissa .binary64 x.toBits.toBitVec).toNat = 0 ↔ _ :=
    @BitVec.toNat_inj 52 _ 0#52
  simp only [hones, hzeros, hnone]
  split
  · split <;> rfl
  · split
    · rename_i hlow
      split
      · rename_i hfraction
        rw [hfraction]
        rfl
      · rw [hlow]
        rfl
    · refine congrArg₂ _ ?_ rfl
      rw [BitVec.toNat_append]
      exact Nat.two_pow_add_eq_or_of_lt
        (BitVec.isLt (@unpackMantissa .binary64 x.toBits.toBitVec)) 1

/-- A finite number is negative if its sign is a minus. -/
theorem isNegative_of_unpack {x : Float} {s : Sign} {m : Nat} {e : Int} {hm : 0 < m}
    (h : x.toModel.unpack = .finite s m e hm) : isNegative x = isMinus s := by
  change unpack .binary64 x.toBits.toBitVec = _ at h
  unfold unpack at h
  unfold isNegative
  rw [sign_eq]
  dsimp only at h
  -- All bits of the exponent are set, or none is, or the number is a normal one.
  split at h
  · split at h
    · cases h
    · cases h
  split at h
  · split at h
    · cases h
    · cases h
      rfl
  · cases h
    rfl

/-- A number is its parts. -/
theorem eq_of_unpack {x y : Float} (h : x.toModel.unpack = y.toModel.unpack) : x = y :=
  Float.toBits_inj.mp (UInt64.toBitVec_inj.mp
    ((unpack_inj_of_valid x.toModel.valid y.toModel.valid).mp h))

/-- There is one infinite positive number. -/
theorem eq_infinity_of_binary {x : Float} (h : binary x = .infinite false) : x = infinity := by
  refine eq_of_unpack ?_
  rw [binary_eq_ofParts] at h
  cases hx : x.toModel.unpack with
  | infinity s =>
    rw [hx] at h
    cases s with
    | positive => rfl
    | negative => cases h
  | notANumber | zero | finite =>
    rw [hx] at h
    cases h

/-- A count of a number that is not infinite is never more than its whole part. -/
theorem toCount_le {bound : Nat} {x : Float} (h : (x == infinity) = false) :
    toCount bound x ≤ (toInt x).toNat := by
  unfold toCount
  cases hx : binary x with
  | nan => exact Nat.zero_le _
  | infinite negative =>
    cases negative with
    | true => exact Nat.zero_le _
    | false =>
      rw [eq_infinity_of_binary hx] at h
      exact absurd h (by decide)
  | finite => exact Nat.min_le_right _ _

/-! ## Whole numbers that a significand holds -/

/-- A significand of full length. -/
structure Normal (m : Nat) : Prop where
  lower : 2 ^ 52 ≤ m
  upper : m < 2 ^ 53

namespace Normal

variable {m : Nat}

theorem pos (h : Normal m) : 0 < m := (Nat.two_pow_pos 52).trans_le h.lower

theorem log2_eq (h : Normal m) : m.log2 = 52 :=
  (Nat.log2_eq_iff h.pos.ne').mpr ⟨h.lower, h.upper⟩

/-- A whole number of few digits fills a significand when its digits are moved to the left. -/
theorem of_whole {n : Nat} (hn : n ≠ 0) (hlog : n.log2 ≤ 52) : Normal (n * 2 ^ (52 - n.log2)) where
  lower := calc
    2 ^ 52 = 2 ^ n.log2 * 2 ^ (52 - n.log2) := by rw [← Nat.pow_add, Nat.add_sub_cancel' hlog]
    _ ≤ n * 2 ^ (52 - n.log2) := Nat.mul_le_mul_right _ (Nat.log2_self_le hn)
  upper := calc
    n * 2 ^ (52 - n.log2) < 2 ^ (n.log2 + 1) * 2 ^ (52 - n.log2) :=
      Nat.mul_lt_mul_of_pos_right Nat.lt_log2_self (Nat.two_pow_pos _)
    _ = 2 ^ 53 := by rw [← Nat.pow_add, Nat.add_right_comm, Nat.add_sub_cancel' hlog]

end Normal

/-- What is moved out to the right is lost; zeros are no loss. -/
theorem shiftRight_exact (m shift : Nat) :
    (⟨m * 2 ^ shift, false, false⟩ : ExtendedMantissa) >>> shift = ⟨m, false, false⟩ := by
  induction shift generalizing m with
  | zero => rw [Nat.pow_zero, Nat.mul_one]; rfl
  | succ shift ih =>
    have hdouble : m * 2 ^ (shift + 1) = m * 2 * 2 ^ shift := by
      rw [Nat.pow_succ, Nat.mul_comm (2 ^ shift), ← Nat.mul_assoc]
    change ExtendedMantissa.shiftRightOne
      ((⟨m * 2 ^ (shift + 1), false, false⟩ : ExtendedMantissa) >>> shift) = _
    rw [hdouble, ih]
    simp [ExtendedMantissa.shiftRightOne]

theorem log2_mul_two_pow {a j : Nat} (ha : a ≠ 0) : (a * 2 ^ j).log2 = a.log2 + j := by
  refine (Nat.log2_eq_iff (Nat.mul_ne_zero ha (Nat.two_pow_pos j).ne')).mpr ⟨?_, ?_⟩
  · rw [Nat.pow_add]
    exact Nat.mul_le_mul_right _ (Nat.log2_self_le ha)
  · rw [Nat.add_right_comm, Nat.pow_add]
    exact Nat.mul_lt_mul_of_pos_right Nat.lt_log2_self (Nat.two_pow_pos j)

theorem targetExponent_normal {m : Nat} (hm : Normal m) {e : Int} (he : -1074 ≤ e) (shift : Nat) :
    Format.binary64.targetExponent (totalExponent (m * 2 ^ shift) (e - shift)) = e := by
  have hlog : (m * 2 ^ shift).log2 = 52 + shift := by
    rw [log2_mul_two_pow hm.pos.ne', hm.log2_eq]
  simp only [Format.targetExponent, totalExponent, hlog, Format.mantissaBits, Format.minExponent]
  omega

/-- A significand of full length stays as it is. -/
theorem shiftToTargetExponent_normal {m : Nat} (hm : Normal m) {e : Int} (he : -1074 ≤ e) :
    shiftToTargetExponent .binary64 m e .exact = (⟨m, false, false⟩, e) := by
  have htarget := targetExponent_normal hm he 0
  rw [Nat.pow_zero, Nat.mul_one, Nat.cast_zero, sub_zero] at htarget
  simp only [shiftToTargetExponent, htarget, shiftToExponent, sub_self]
  exact Prod.ext (by rfl) (by omega)

/-- What a number of full length rounds to. -/
theorem roundWithAccuracy_normal {n m : Nat} {f e : Int} {rest : ExtendedMantissa} (s : Sign)
    (hshift : shiftToTargetExponent .binary64 n f .exact = (rest, e))
    (hrest : rest.roundedMantissa = m) (hm : Normal m) (he : -1074 ≤ e) :
    roundWithAccuracy .binary64 s n f .exact = .finite s m e hm.pos := by
  simp only [roundWithAccuracy, hshift, hrest, shiftToTargetExponent_normal hm he,
    dif_neg hm.pos.ne']

/-- **Rounding is exact** where only zeros are lost. -/
theorem roundWithAccuracy_exact {m : Nat} (hm : Normal m) {e : Int} (he : -1074 ≤ e)
    (s : Sign) (shift : Nat) :
    roundWithAccuracy .binary64 s (m * 2 ^ shift) (e - shift) .exact = .finite s m e hm.pos := by
  have hshift : shiftToTargetExponent .binary64 (m * 2 ^ shift) (e - shift) .exact =
      (⟨m, false, false⟩, e) := by
    have hamount : (e - (e - shift)).toNat = shift := by omega
    simp only [shiftToTargetExponent, targetExponent_normal hm he, shiftToExponent, hamount]
    exact Prod.ext (shiftRight_exact m shift) (by omega)
  exact roundWithAccuracy_normal s hshift rfl hm he

/-- The parts of a number of full length are found again in its bits. -/
theorem unpack_pack_normal {m : Nat} (hm : Normal m) {e : Int} (he : -1074 ≤ e) (he' : e ≤ 971)
    (s : Sign) :
    (Float.Model.pack (.finite s m e hm.pos)).unpack = .finite s m e hm.pos := by
  have hbiased : (e + (Format.binary64.exponentBias : Int) +
      (Format.binary64.mantissaBitsWithoutImplicit : Int)).toNat = (e + 1075).toNat := by
    change (e + 1023 + 52).toNat = _
    omega
  have hfits : ¬ 2 ^ Format.binary64.exponentBits ≤ (e + 1075).toNat + 1 := by
    change ¬ 2048 ≤ _
    omega
  have hfull : m.log2 + 1 = Format.binary64.mantissaBits := by rw [hm.log2_eq]; rfl
  change unpack _ (pack _ _) = _
  simp only [pack, hbiased, if_neg hfits, if_pos hfull, unpack, unpackMantissa_packComponents,
    unpackExponent_packComponents, unpackSign_packComponents, Sign.ofBitVec_toBitVec]
  have hexponent : (BitVec.ofNat 11 (e + 1075).toNat).toNat = (e + 1075).toNat := by
    rw [BitVec.toNat_ofNat]
    exact Nat.mod_eq_of_lt (by omega)
  have hsmall : BitVec.ofNat 11 (e + 1075).toNat ≠ -1#11 := fun h => by
    have := congrArg BitVec.toNat h
    rw [hexponent] at this
    change _ = 2047 at this
    omega
  have hlarge : BitVec.ofNat 11 (e + 1075).toNat ≠ 0#11 := fun h => by
    have := congrArg BitVec.toNat h
    rw [hexponent] at this
    change _ = 0 at this
    omega
  have hmantissa : (1#1 ++ BitVec.ofNat 52 m).toNat = m := by
    rw [BitVec.toNat_append, BitVec.toNat_ofNat, Nat.shiftLeft_eq]
    change 1 * 2 ^ 52 ||| m % 2 ^ 52 = m
    have hm₁ := hm.lower
    have hm₂ := hm.upper
    rw [Nat.one_mul, ← Nat.two_pow_add_eq_or_of_lt (Nat.mod_lt _ (Nat.two_pow_pos 52)) 1]
    omega
  rw [if_neg hsmall, if_neg hlarge]
  simp only [hmantissa, hexponent]
  congr 1
  change ((e + 1075).toNat : Int) - (1023 + 52) = e
  omega

/-! ## Whole numbers -/

/-- The parts of a whole number other than zero. -/
def whole (s : Sign) {n : Nat} (hn : n ≠ 0) : UnpackedFloat :=
  .finite s (n * 2 ^ (52 - n.log2)) (n.log2 - 52) (by positivity)

theorem log2_le_of_lt {n : Nat} (hn : n ≠ 0) (h : n < 2 ^ 53) : n.log2 ≤ 52 :=
  Nat.le_of_lt_succ ((Nat.log2_lt hn).mpr h)

/-- A whole number is packed without loss. -/
theorem unpack_pack_whole {n : Nat} (hn : n ≠ 0) (h : n < 2 ^ 53) (s : Sign) :
    (Float.Model.pack (whole s hn)).unpack = whole s hn := by
  have hlog := log2_le_of_lt hn h
  exact unpack_pack_normal (.of_whole hn hlog) (by omega) (by omega) s

/-- **A whole number of few digits is a number without rounding.** -/
theorem unpack_ofNat {n : Nat} (hn : n ≠ 0) (h : n < 2 ^ 53) :
    (Float.ofNat n).toModel.unpack = whole .positive hn := by
  have hlog := log2_le_of_lt hn h
  have hnormal := Normal.of_whole hn hlog
  have hword : n.toUInt64.toNat = n := Nat.mod_eq_of_lt (h.trans (by decide))
  -- converting moves the digits to the left
  have hround : UnpackedFloat.round .binary64 .positive n 0 = whole .positive hn := by
    have htarget : Format.binary64.targetExponent (totalExponent n 0) = n.log2 - 52 := by
      simp only [Format.targetExponent, totalExponent, Format.mantissaBits, Format.minExponent]
      omega
    have hamount : (0 - ((n.log2 : Int) - 52)).toNat = 52 - n.log2 := by omega
    have hexponent : (0 : Int) - ((52 - n.log2 : Nat) : Int) = n.log2 - 52 - (0 : Nat) := by omega
    have hexact := roundWithAccuracy_exact hnormal (e := n.log2 - 52) (by omega) .positive 0
    rw [Nat.pow_zero, Nat.mul_one] at hexact
    simp only [UnpackedFloat.round, htarget, decreaseExponent, hamount, Nat.shiftLeft_eq, hexponent]
    exact hexact
  have hconvert : Float.Model.ofUInt64 n.toUInt64 = Float.Model.pack (whole .positive hn) := by
    have hpos : compare (n : Int) 0 = .gt := Int.compare_eq_gt.mpr (by omega)
    simp only [Float.Model.ofUInt64, UnpackedFloat.ofUInt64, UnpackedFloat.ofNat,
      UnpackedFloat.ofInt, UnpackedFloat.normalize, hword, hpos, Int.toNat_natCast, hround]
  -- and multiplying by one moves them back and forth
  have hone : (Float.ofBits 4607182418800017408).toModel.unpack =
      .finite .positive (2 ^ 52) (-52) (by decide) := rfl
  have hproduct : roundWithAccuracy .binary64 .positive (n * 2 ^ (52 - n.log2) * 2 ^ 52)
      ((n.log2 - 52) + (-52)) .exact = whole .positive hn :=
    roundWithAccuracy_exact hnormal (e := n.log2 - 52) (by omega) .positive 52
  have hofNat : Float.ofNat n = n.toUInt64.toFloat * Float.ofBits 4607182418800017408 := by
    change Float.ofScientific n false 0 = _
    unfold Float.ofScientific
    rw [dif_pos ⟨h, by decide⟩]
    rfl
  rw [hofNat]
  change (Float.Model.pack (UnpackedFloat.mul .binary64 (Float.Model.ofUInt64 n.toUInt64).unpack
    (Float.ofBits 4607182418800017408).toModel.unpack)).unpack = _
  rw [hconvert, unpack_pack_whole hn h, hone]
  change (Float.Model.pack (roundWithAccuracy .binary64 .positive
    (n * 2 ^ (52 - n.log2) * 2 ^ 52) ((n.log2 - 52) + (-52)) .exact)).unpack = _
  rw [hproduct, unpack_pack_whole hn h]


section

variable {x : Float} {s : Sign} {n : Nat} {hn : n ≠ 0}

/-- A whole number converts to the integer that it is. -/
theorem toInt_whole (h : x.toModel.unpack = whole s hn) (hlt : n < 2 ^ 53) :
    toInt x = s.apply n := by
  have hlog := log2_le_of_lt hn hlt
  have hshift : (if (n.log2 : Int) - 52 ≥ 0 then
      (n * 2 ^ (52 - n.log2)) <<< ((n.log2 : Int) - 52).toNat
      else (n * 2 ^ (52 - n.log2)) >>> (-((n.log2 : Int) - 52)).toNat) = n := by
    have hamount : (-((n.log2 : Int) - 52)).toNat = 52 - n.log2 := by omega
    split
    · have hfull : n.log2 = 52 := by omega
      rw [hfull]
      exact Nat.mul_one n
    · rw [hamount, Nat.shiftRight_eq_div_pow, Nat.mul_div_cancel _ (Nat.two_pow_pos _)]
  unfold toInt
  rw [binary_eq_ofParts, h]
  dsimp only [whole, Binary.ofParts]
  rw [hshift]
  cases s <;> rfl

/-- The size of a whole number is whole. -/
theorem unpack_abs_whole (h : x.toModel.unpack = whole s hn) (hlt : n < 2 ^ 53) :
    x.abs.toModel.unpack = whole .positive hn := by
  change (Float.Model.pack x.toModel.unpack.abs).unpack = _
  rw [h]
  exact unpack_pack_whole hn hlt .positive

/-- A whole number with the other sign is whole. -/
theorem unpack_neg_whole (h : x.toModel.unpack = whole s hn) (hlt : n < 2 ^ 53) :
    (-x).toModel.unpack = whole (-s) hn := by
  change (Float.Model.pack x.toModel.unpack.neg).unpack = _
  rw [h]
  exact unpack_pack_whole hn hlt (-s)

theorem lt_iff {x y : Float} : x < y ↔ x.toModel.unpack.lt y.toModel.unpack = true :=
  decide_eq_true_iff

theorem le_iff {x y : Float} : x ≤ y ↔ x.toModel.unpack.le y.toModel.unpack = true :=
  decide_eq_true_iff

/-- A whole number is finite. -/
theorem isFinite_whole (h : x.toModel.unpack = whole s hn) (hlt : n < 2 ^ 53) :
    isFinite x = true := by
  have hinf : (Float.ofBits 0x7ff0000000000000).toModel.unpack = .infinity .positive := rfl
  refine decide_eq_true (lt_iff.mpr ?_)
  rw [unpack_abs_whole h hlt, hinf]
  rfl

/-- Converting to a count of 64 bits and back changes nothing. -/
theorem toUInt64_whole (h : x.toModel.unpack = whole .positive hn) (hlt : n < 2 ^ 53) :
    x.toUInt64.toNat = n := by
  have hlog := log2_le_of_lt hn hlt
  have hint : UnpackedFloat.toInt 0 (UInt64.size - 1) x.toModel.unpack = n := by
    have hnone : (((n.log2 : Int) - 52) - 0).toNat = 0 := by omega
    have hamount : (0 - ((n.log2 : Int) - 52 - (0 : Nat))).toNat = 52 - n.log2 := by omega
    rw [h]
    change roundToInt .positive (n * 2 ^ (52 - n.log2)) (n.log2 - 52) = n
    simp only [roundToInt, decreaseExponent, hnone, Nat.shiftLeft_zero, shiftToExponent, hamount,
      ExtendedMantissa.ofMantissaAndAccuracy, shiftRight_exact]
    rfl
  change (UInt64.ofNatClamp
    (UnpackedFloat.toInt 0 (UInt64.size - 1) x.toModel.unpack).toNat).toNat = n
  rw [hint, Int.toNat_natCast]
  exact UInt64.toNat_ofNatClamp_of_lt (hlt.trans (by decide))

/-- A whole number is its own whole part. -/
theorem truncate_whole (h : x.toModel.unpack = whole s hn) (hlt : n < 2 ^ 53) :
    truncate x = x := by
  have habs := unpack_abs_whole h hlt
  unfold truncate
  split
  · rw [toUInt64_whole habs hlt, isNegative_of_unpack h]
    refine eq_of_unpack ?_
    cases s with
    | positive => exact (unpack_ofNat hn hlt).trans h.symm
    | negative => exact (unpack_neg_whole (unpack_ofNat hn hlt) hlt).trans h.symm
  · rfl

/-- The greatest number below which no whole number is left out. -/
theorem abs_le_whole (h : x.toModel.unpack = whole s hn) (hlt : n < 2 ^ 53) :
    x.abs ≤ Float.ofNat 9007199254740991 := by
  have hlog := log2_le_of_lt hn hlt
  rw [le_iff, unpack_abs_whole h hlt, unpack_ofNat (by decide) (by decide)]
  have hmax : (9007199254740991).log2 = 52 := rfl
  change (((compare ((n.log2 : Int) - 52) (((9007199254740991).log2 : Int) - 52)).then
    (compare (n * 2 ^ (52 - n.log2))
      (9007199254740991 * 2 ^ (52 - (9007199254740991).log2)))).isLE) = true
  rw [hmax]
  rcases Nat.lt_or_eq_of_le hlog with hless | hfull
  · rw [Int.compare_eq_lt.mpr (by omega)]
    rfl
  · rw [hfull, Int.compare_eq_eq.mpr rfl]
    exact Nat.isLE_compare.mpr (by omega)

theorem isWhole_whole (h : x.toModel.unpack = whole s hn) (hlt : n < 2 ^ 53) :
    isWhole x = true := by
  rw [isWhole, isFinite_whole h hlt, truncate_whole h hlt, Bool.true_and, Float.beq_self_iff]
  rintro rfl
  cases h

end

/-! ## Integers -/

/-- **Integers of at most 53 bits** are numbers without rounding. -/
theorem unpack_ofInt {n : Int} (hn : n ≠ 0) (hlt : n.natAbs < 2 ^ 53) :
    ∃ s : Sign, s.apply n.natAbs = n ∧
      (Float.ofInt n).toModel.unpack = whole s (Int.natAbs_ne_zero.mpr hn) := by
  cases n with
  | ofNat n => exact ⟨.positive, rfl, unpack_ofNat (Int.natAbs_ne_zero.mpr hn) hlt⟩
  | negSucc n => exact ⟨.negative, rfl, unpack_neg_whole (unpack_ofNat n.succ_ne_zero hlt) hlt⟩

/-- **A number that equals an integer** of at most 53 bits: the integer is its whole part.  The
number may be a zero with either sign. -/
theorem of_beq_ofInt {x : Float} {n : Int} (hlt : n.natAbs < 2 ^ 53)
    (h : (x == Float.ofInt n) = true) :
    isWhole x = true ∧ x.abs ≤ Float.ofNat 9007199254740991 ∧ toInt x = n := by
  obtain ⟨-, -, h⟩ := Float.beq_iff_ne_nan_and_eq.mp h
  by_cases hn : n = 0
  · subst hn
    have hzero : Float.ofInt 0 = 0 := rfl
    rw [hzero] at h
    have hx : x = 0 ∨ x = -0 := by
      obtain h | ⟨h, -⟩ | ⟨h, -⟩ := h
      · exact .inl h
      · exact .inl h
      · exact .inr h
    obtain rfl | rfl := hx
    · exact of_decide_eq_true rfl
    · exact of_decide_eq_true rfl
  · obtain ⟨s, hs, hunpack⟩ := unpack_ofInt hn hlt
    have hx : x = Float.ofInt n := by
      obtain h | ⟨-, h⟩ | ⟨-, h⟩ := h
      · exact h
      · rw [h] at hunpack
        cases hunpack
      · rw [h] at hunpack
        cases hunpack
    subst hx
    exact ⟨isWhole_whole hunpack hlt, abs_le_whole hunpack hlt, (toInt_whole hunpack hlt).trans hs⟩

/-- A whole number is equal to itself. -/
theorem beq_ofInt_self {n : Int} (hlt : n.natAbs < 2 ^ 53) :
    (Float.ofInt n == Float.ofInt n) = true := by
  rw [Float.beq_self_iff]
  intro hnan
  by_cases hn : n = 0
  · subst hn
    exact absurd hnan (of_decide_eq_true rfl)
  · obtain ⟨s, -, hunpack⟩ := unpack_ofInt hn hlt
    rw [hnan] at hunpack
    cases hunpack


end ScriptTrace.Number
