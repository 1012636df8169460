import ScriptTrace.Proofs.Countdown

/-!
# Proofs/Number/Whole — sums and products without rounding

Whole numbers up to `2 ^ 53` are held exactly.  A sum or a product of such numbers that is not
greater than `2 ^ 53` is a number of this kind, so that nothing of it is lost: digits can be taken
together to the count that they write.
-/

namespace ScriptTrace.Number

open Float.Model (Format totalExponent UnpackedFloat)
open Float.Model.UnpackedFloat

/-- **The significand of a whole number** of at most 54 bits, and how far it is moved. -/
structure Places (n m k : Nat) : Prop where
  normal : Normal m
  le : k ≤ 53
  eq : m * 2 ^ k = n * 2 ^ 52

/-- A number is a whole number other than zero. -/
def IsCount (x : Float) (n : Nat) : Prop :=
  ∃ (m k : Nat) (h : Places n m k), x.toModel.unpack = .finite .positive m (k - 52) h.normal.pos

section

variable {x y : Float} {n m k m' k' a b : Nat}

namespace Places

theorem ne_zero (h : Places n m k) : n ≠ 0 := by
  rintro rfl
  have hpos := Nat.mul_pos h.normal.pos (Nat.two_pow_pos k)
  rw [h.eq, Nat.zero_mul] at hpos
  exact Nat.lt_irrefl 0 hpos

/-- The significand of a number and how far it is moved are told by the number. -/
theorem unique (h : Places n m k) (h' : Places n m' k') : m = m' ∧ k = k' := by
  have heq := h.eq.trans h'.eq.symm
  have hlog := congrArg Nat.log2 heq
  rw [log2_mul_two_pow h.normal.pos.ne', log2_mul_two_pow h'.normal.pos.ne', h.normal.log2_eq,
    h'.normal.log2_eq] at hlog
  obtain rfl : k = k' := Nat.add_left_cancel hlog
  exact ⟨Nat.eq_of_mul_eq_mul_right (Nat.two_pow_pos k) heq, rfl⟩

/-- A whole number of at most 53 bits has its places. -/
theorem exists_of_le (hn : n ≠ 0) (hle : n ≤ 2 ^ 53) : ∃ m k, Places n m k := by
  rcases Nat.lt_or_eq_of_le hle with hlt | rfl
  · have hlog := log2_le_of_lt hn hlt
    refine ⟨_, n.log2, .of_whole hn hlog, by omega, ?_⟩
    rw [Nat.mul_assoc, ← Nat.pow_add, Nat.sub_add_cancel hlog]
  · exact ⟨2 ^ 52, 53, normal_power, le_rfl, by decide⟩

end Places

namespace IsCount

/-- There is one number for each count. -/
theorem eq (hx : IsCount x n) (hy : IsCount y n) : x = y := by
  obtain ⟨m, k, h, hx⟩ := hx
  obtain ⟨m', k', h', hy⟩ := hy
  obtain ⟨rfl, rfl⟩ := h.unique h'
  exact eq_of_unpack (hx.trans hy.symm)

/-- The parts of a whole number are found again in its bits. -/
theorem unpack_pack (h : Places n m k) (s : Sign) :
    (Float.Model.pack (.finite s m (k - 52) h.normal.pos)).unpack =
      .finite s m (k - 52) h.normal.pos := by
  have hle := h.le
  exact unpack_pack_normal h.normal (by omega) (by omega) s

end IsCount

/-- **Whole numbers up to `2 ^ 53` are held exactly.** -/
theorem isCount_ofNat (hn : n ≠ 0) (hle : n ≤ 2 ^ 53) : IsCount (Float.ofNat n) n := by
  rcases Nat.lt_or_eq_of_le hle with hlt | rfl
  · have hlog := log2_le_of_lt hn hlt
    refine ⟨_, n.log2, ⟨.of_whole hn hlog, by omega, ?_⟩, unpack_ofNat hn hlt⟩
    rw [Nat.mul_assoc, ← Nat.pow_add, Nat.sub_add_cancel hlog]
  · exact ⟨2 ^ 52, 53, ⟨normal_power, le_rfl, by decide⟩, by rfl⟩

/-! ## Rounding where nothing is lost -/

/-- A number that is a significand once its digits are moved is rounded to that significand. -/
theorem round_of_places {p q : Nat} {e f : Int} (hm : Normal m) (heq : a * 2 ^ p = m * 2 ^ q)
    (hf : f = e + p - q) (he : -1074 ≤ e) (s : Sign) :
    UnpackedFloat.round .binary64 s a f = .finite s m e hm.pos := by
  have ha : a ≠ 0 := by
    rintro rfl
    rw [Nat.zero_mul] at heq
    exact (Nat.mul_pos hm.pos (Nat.two_pow_pos q)).ne heq
  have hlog := congrArg Nat.log2 heq
  rw [log2_mul_two_pow ha, log2_mul_two_pow hm.pos.ne', hm.log2_eq] at hlog
  have htarget : Format.binary64.targetExponent (totalExponent a f) = e := by
    simp only [Format.targetExponent, totalExponent, Format.mantissaBits, Format.minExponent]
    omega
  have hmoved : a * 2 ^ (f - e).toNat = m * 2 ^ (q - p) := by
    have hamount : p + (q - p) = q + (f - e).toNat := by omega
    refine Nat.eq_of_mul_eq_mul_right (Nat.two_pow_pos p) ?_
    calc a * 2 ^ (f - e).toNat * 2 ^ p = m * 2 ^ q * 2 ^ (f - e).toNat := by rw [← heq]; ring
      _ = m * 2 ^ (p + (q - p)) := by rw [hamount, Nat.pow_add, Nat.mul_assoc]
      _ = m * 2 ^ (q - p) * 2 ^ p := by ring
  have hexponent : f - (f - e).toNat = e - (q - p : Nat) := by omega
  simp only [UnpackedFloat.round, htarget, decreaseExponent, Nat.shiftLeft_eq, hmoved, hexponent]
  exact roundWithAccuracy_exact hm he s (q - p)

/-! ## Products -/

/-- The product of counts is exact as long as it has 53 bits. -/
theorem IsCount.mul (hx : IsCount x a) (hy : IsCount y b) (hle : a * b ≤ 2 ^ 53) :
    IsCount (x * y) (a * b) := by
  obtain ⟨m₁, k₁, h₁, hx⟩ := hx
  obtain ⟨m₂, k₂, h₂, hy⟩ := hy
  obtain ⟨m, k, h⟩ := Places.exists_of_le (Nat.mul_ne_zero h₁.ne_zero h₂.ne_zero) hle
  refine ⟨m, k, h, ?_⟩
  have hproduct : m₁ * m₂ * 2 ^ (k₁ + k₂) = m * 2 ^ (k + 52) := calc
    m₁ * m₂ * 2 ^ (k₁ + k₂) = (m₁ * 2 ^ k₁) * (m₂ * 2 ^ k₂) := by ring
    _ = (a * b * 2 ^ 52) * 2 ^ 52 := by rw [h₁.eq, h₂.eq]; ring
    _ = m * 2 ^ (k + 52) := by rw [← h.eq]; ring
  -- The product has too many digits by 52 or 53, all of them zeros.
  have hmany : 2 ^ 104 ≤ m₁ * m₂ := calc
    2 ^ 104 = 2 ^ 52 * 2 ^ 52 := (Nat.pow_add 2 52 52)
    _ ≤ m₁ * m₂ := Nat.mul_le_mul h₁.normal.lower h₂.normal.lower
  have hfew : k₁ + k₂ ≤ k + 52 := by
    have hlog := congrArg Nat.log2 hproduct
    rw [log2_mul_two_pow (by omega), log2_mul_two_pow h.normal.pos.ne', h.normal.log2_eq] at hlog
    have := (Nat.le_log2 (by omega)).mpr hmany
    omega
  have hshift : m₁ * m₂ = m * 2 ^ (k + 52 - (k₁ + k₂)) := by
    refine Nat.eq_of_mul_eq_mul_right (Nat.two_pow_pos (k₁ + k₂)) ?_
    rw [hproduct, Nat.mul_assoc, ← Nat.pow_add, Nat.sub_add_cancel hfew]
  have hexponent : ((k₁ : Int) - 52) + (k₂ - 52) = k - 52 - (k + 52 - (k₁ + k₂) : Nat) := by omega
  change (Float.Model.pack (UnpackedFloat.mul .binary64 x.toModel.unpack y.toModel.unpack)).unpack =
    _
  rw [hx, hy]
  change (Float.Model.pack (roundWithAccuracy .binary64 .positive (m₁ * m₂) _ .exact)).unpack = _
  rw [hexponent, hshift, roundWithAccuracy_exact h.normal (by omega), IsCount.unpack_pack h]

/-- Zero times a count is zero. -/
theorem IsCount.zero_mul (hx : IsCount x a) : Float.ofNat 0 * x = Float.ofNat 0 := by
  obtain ⟨m, k, h, hx⟩ := hx
  refine eq_of_unpack ?_
  change (Float.Model.pack (UnpackedFloat.mul .binary64 (Float.ofNat 0).toModel.unpack
    x.toModel.unpack)).unpack = _
  rw [hx]
  rfl

/-- A count times zero is zero. -/
theorem IsCount.mul_zero (hx : IsCount x a) : x * Float.ofNat 0 = Float.ofNat 0 := by
  obtain ⟨m, k, h, hx⟩ := hx
  refine eq_of_unpack ?_
  change (Float.Model.pack (UnpackedFloat.mul .binary64 x.toModel.unpack
    (Float.ofNat 0).toModel.unpack)).unpack = _
  rw [hx]
  rfl

/-- **A product of whole numbers up to `2 ^ 53` is exact.** -/
theorem ofNat_mul (ha : a ≤ 2 ^ 53) (hb : b ≤ 2 ^ 53) (hle : a * b ≤ 2 ^ 53) :
    Float.ofNat a * Float.ofNat b = Float.ofNat (a * b) := by
  rcases Nat.eq_zero_or_pos a with rfl | hpos
  · rcases Nat.eq_zero_or_pos b with rfl | hpos'
    · rfl
    · rw [Nat.zero_mul]
      exact (isCount_ofNat hpos'.ne' hb).zero_mul
  · rcases Nat.eq_zero_or_pos b with rfl | hpos'
    · exact (isCount_ofNat hpos.ne' ha).mul_zero
    · exact ((isCount_ofNat hpos.ne' ha).mul (isCount_ofNat hpos'.ne' hb) hle).eq
        (isCount_ofNat (Nat.mul_ne_zero hpos.ne' hpos'.ne') hle)

/-! ## Sums -/

/-- Zero and a count are the count. -/
theorem IsCount.zero_add (hx : IsCount x a) : IsCount (Float.ofNat 0 + x) a := by
  obtain ⟨m, k, h, hx⟩ := hx
  refine ⟨m, k, h, ?_⟩
  change (Float.Model.pack (UnpackedFloat.add .binary64 (Float.ofNat 0).toModel.unpack
    x.toModel.unpack)).unpack = _
  rw [hx]
  exact IsCount.unpack_pack h .positive

/-- A count and zero are the count. -/
theorem IsCount.add_zero (hx : IsCount x a) : IsCount (x + Float.ofNat 0) a := by
  obtain ⟨m, k, h, hx⟩ := hx
  refine ⟨m, k, h, ?_⟩
  change (Float.Model.pack (UnpackedFloat.add .binary64 x.toModel.unpack
    (Float.ofNat 0).toModel.unpack)).unpack = _
  rw [hx]
  exact IsCount.unpack_pack h .positive

/-- The sum of counts is exact as long as it has 53 bits. -/
theorem IsCount.add (hx : IsCount x a) (hy : IsCount y b) (hle : a + b ≤ 2 ^ 53) :
    IsCount (x + y) (a + b) := by
  obtain ⟨m₁, k₁, h₁, hx⟩ := hx
  obtain ⟨m₂, k₂, h₂, hy⟩ := hy
  obtain ⟨m, k, h⟩ := Places.exists_of_le (by have := h₁.ne_zero; omega) hle
  refine ⟨m, k, h, ?_⟩
  have hmin : min ((k₁ : Int) - 52) (k₂ - 52) = (min k₁ k₂ : Nat) - 52 := by omega
  have hamount₁ : ((k₁ : Int) - 52 - ((min k₁ k₂ : Nat) - 52)).toNat = k₁ - min k₁ k₂ := by omega
  have hamount₂ : ((k₂ : Int) - 52 - ((min k₁ k₂ : Nat) - 52)).toNat = k₂ - min k₁ k₂ := by omega
  have hsum : (m₁ * 2 ^ (k₁ - min k₁ k₂) + m₂ * 2 ^ (k₂ - min k₁ k₂)) * 2 ^ min k₁ k₂ =
      m * 2 ^ k := by
    rw [Nat.add_mul, Nat.mul_assoc, Nat.mul_assoc, ← Nat.pow_add, ← Nat.pow_add,
      Nat.sub_add_cancel (Nat.min_le_left ..), Nat.sub_add_cancel (Nat.min_le_right ..), h₁.eq,
      h₂.eq, h.eq, Nat.add_mul]
  have hpos : 0 < m₁ * 2 ^ (k₁ - min k₁ k₂) + m₂ * 2 ^ (k₂ - min k₁ k₂) :=
    Nat.add_pos_left (Nat.mul_pos h₁.normal.pos (Nat.two_pow_pos _)) _
  change (Float.Model.pack (UnpackedFloat.add .binary64 x.toModel.unpack y.toModel.unpack)).unpack =
    _
  rw [hx, hy]
  simp only [UnpackedFloat.add, hmin, decreaseExponent, hamount₁, hamount₂, Nat.shiftLeft_eq]
  change (Float.Model.pack (UnpackedFloat.normalize .binary64 ((_ : Nat) + (_ : Nat)) _ _)).unpack =
    _
  rw [← Int.natCast_add, normalize_natCast hpos,
    round_of_places (e := k - 52) h.normal hsum (by omega) (by omega), IsCount.unpack_pack h]

/-- **A sum of whole numbers up to `2 ^ 53` is exact.** -/
theorem ofNat_add (hle : a + b ≤ 2 ^ 53) : Float.ofNat a + Float.ofNat b = Float.ofNat (a + b) := by
  rcases Nat.eq_zero_or_pos a with rfl | hpos
  · rcases Nat.eq_zero_or_pos b with rfl | hpos'
    · rfl
    · have hy := isCount_ofNat hpos'.ne' (by omega)
      rw [Nat.zero_add]
      exact hy.zero_add.eq hy
  · have hx := isCount_ofNat hpos.ne' (by omega)
    rcases Nat.eq_zero_or_pos b with rfl | hpos'
    · exact hx.add_zero.eq hx
    · exact (hx.add (isCount_ofNat hpos'.ne' (by omega)) hle).eq (isCount_ofNat (by omega) hle)

end

end ScriptTrace.Number
