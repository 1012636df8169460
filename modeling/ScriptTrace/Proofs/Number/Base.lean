import Mathlib.Data.Nat.Digits.Lemmas
import ScriptTrace.Evaluation.Run
import ScriptTrace.Proofs.Number.Quotient

/-!
# Proofs/Number/Base — whole numbers in a base and back

A whole number up to `2 ^ 53` is written with the digits that it has in the base, and reading these
digits gives the number again:

    255  ↦  ff  ↦  15 · 16 + 15

Writing divides and drops fractions, reading multiplies and adds; neither loses anything
(`truncate_div`, `ofNat_mul`, `ofNat_add`).
-/

namespace ScriptTrace.Number

open Float.Model (UnpackedFloat)
open Float.Model.UnpackedFloat

/-- The digits of a count in a base, the last one first; zero has the digit zero. -/
def digitsIn (base n : Nat) : List Nat := if n = 0 then [0] else base.digits n

/-- The digits of a count as they are written. -/
def numeralIn (base n : Nat) : List Char := (digitsIn base n).reverse.map digitChar

/-- **Digits of a base** without a zero in front; zero is a single digit. -/
structure IsNumeral (base : Nat) (cs : List Char) : Prop where
  ne_nil : cs ≠ []
  digits : ∀ c ∈ cs, ∃ d < base, c = digitChar d
  plain : cs = ['0'] ∨ cs.head? ≠ some '0'

section

variable {b n d : Nat} {cs : List Char}

/-- A number below the base is its own digit. -/
theorem digitsIn_of_lt (h : n < b) : digitsIn b n = [n] := by
  unfold digitsIn
  split
  · rw [‹n = 0›]
  · exact Nat.digits_of_lt b n ‹_› h

/-- The last digit is the remainder, and the others are those of the quotient. -/
theorem digitsIn_of_le (hb : 1 < b) (h : b ≤ n) : digitsIn b n = n % b :: digitsIn b (n / b) := by
  have hn : n ≠ 0 := by omega
  have hquotient : n / b ≠ 0 := (Nat.div_pos h (by omega)).ne'
  rw [digitsIn, digitsIn, if_neg hn, if_neg hquotient, Nat.digits_def' hb (Nat.pos_of_ne_zero hn)]

/-- A digit lies below the base. -/
theorem lt_of_mem_digitsIn (hb : 1 < b) (hd : d ∈ digitsIn b n) : d < b := by
  unfold digitsIn at hd
  split at hd
  · rw [List.mem_singleton.mp hd]
    omega
  · exact Nat.digits_lt_base hb hd

theorem digitsIn_ne_nil : digitsIn b n ≠ [] := by
  unfold digitsIn
  split
  · exact List.cons_ne_nil _ _
  · exact Nat.digits_ne_nil_iff_ne_zero.mpr ‹_›

/-! ## Digits as characters -/

/-- The characters of the digits: each has its value, and none is a space or a sign. -/
theorem digitChar_facts : ∀ d < 36, digitValue? (digitChar d) = some d ∧
    Text.isBlank (digitChar d) = false ∧ digitChar d ≠ '-' ∧ digitChar d ≠ '+' ∧
    (digitChar d = '0' → d = 0) := by
  decide

theorem digitIn?_digitChar (hd : d < b) (hb : b ≤ 36) : digitIn? b (digitChar d) = some d := by
  rw [digitIn?, (digitChar_facts d (by omega)).1]
  exact Option.filter_eq_some_iff.mpr ⟨rfl, decide_eq_true hd⟩

/-- A whole number is written as a numeral of its base. -/
theorem isNumeral_numeralIn (hb : 1 < b) (hb' : b ≤ 36) (n : Nat) :
    IsNumeral b (numeralIn b n) where
  ne_nil := by simpa [numeralIn] using digitsIn_ne_nil
  digits c hc := by
    obtain ⟨d, hd, rfl⟩ := List.mem_map.mp hc
    exact ⟨d, lt_of_mem_digitsIn hb (List.mem_reverse.mp hd), rfl⟩
  plain := by
    rcases Nat.eq_zero_or_pos n with rfl | hpos
    · exact .inl rfl
    · right
      intro hzero
      have hdigits : digitsIn b n = b.digits n := if_neg hpos.ne'
      rw [numeralIn, hdigits, List.head?_map, List.head?_reverse,
        List.getLast?_eq_some_getLast (Nat.digits_ne_nil_iff_ne_zero.mpr hpos.ne')] at hzero
      have hlast := Option.some.inj hzero
      have hlt : (b.digits n).getLast (Nat.digits_ne_nil_iff_ne_zero.mpr hpos.ne') < b :=
        Nat.digits_lt_base hb (List.getLast_mem _)
      exact Nat.getLast_digit_ne_zero b hpos.ne' ((digitChar_facts _ (by omega)).2.2.2.2 hlast)

end

/-! ## Writing -/

section

variable {x : Float} {s : Sign} {a b m k fuel : Nat}

/-- A count from one on is not below one. -/
theorem IsCount.not_lt_one (hx : IsCount x a) : ¬ x < 1 := by
  obtain ⟨m, k, h, hx⟩ := hx
  rw [lt_iff, hx, unpack_one]
  change ¬ (some ((compare ((k : Int) - 52) (-52)).then (compare m (2 ^ 52))) == some .lt) = true
  rcases Nat.eq_zero_or_pos k with rfl | hpos
  · rcases Nat.eq_or_lt_of_le h.normal.lower with heq | hlt
    · rw [Int.compare_eq_eq.mpr (by omega), Nat.compare_eq_eq.mpr heq.symm]
      decide
    · rw [Int.compare_eq_eq.mpr (by omega), Nat.compare_eq_gt.mpr hlt]
      decide
  · rw [Int.compare_eq_gt.mpr (by omega)]
    exact Bool.false_ne_true

/-- Nothing is left of a count if it is zero. -/
theorem ofNat_lt_one_iff (ha : a ≤ 2 ^ 53) : Float.ofNat a < 1 ↔ a = 0 := by
  refine ⟨fun h => ?_, ?_⟩
  · by_contra hne
    exact (isCount_ofNat hne ha).not_lt_one h
  · rintro rfl
    exact of_decide_eq_true rfl

/-- One digit is written. -/
theorem wholeDigits_succ (hb : 1 < b) (hb' : b ≤ 36) (ha : a ≤ 2 ^ 53) :
    wholeDigits (Float.ofNat b) (fuel + 1) (Float.ofNat a) =
      if a < b then [digitChar (a % b)]
      else digitChar (a % b) :: wholeDigits (Float.ofNat b) fuel (Float.ofNat (a / b)) := by
  have hlarge : b ≤ 2 ^ 53 := hb'.trans (by decide)
  have hrest : Float.ofNat (a / b) < 1 ↔ a < b := by
    rw [ofNat_lt_one_iff ((Nat.div_le_self ..).trans ha), Nat.div_eq_zero_iff]
    omega
  rw [wholeDigits, toInt_remainder ha (by omega) hlarge, truncate_div ha hb hlarge,
    Int.toNat_natCast]
  simp only [hrest]

/-- **The loop writes the digits**, the last one first. -/
theorem wholeDigits_ofNat (hb : 1 < b) (hb' : b ≤ 36) (ha : a ≤ 2 ^ 53) (hfuel : a < 2 ^ fuel)
    (hpos : 0 < fuel) :
    wholeDigits (Float.ofNat b) fuel (Float.ofNat a) = (digitsIn b a).map digitChar := by
  induction fuel generalizing a with
  | zero => exact absurd hpos (Nat.lt_irrefl 0)
  | succ fuel ih =>
    rw [wholeDigits_succ hb hb' ha]
    split
    · rw [Nat.mod_eq_of_lt ‹_›, digitsIn_of_lt ‹_›]
      rfl
    · have hle : b ≤ a := Nat.not_lt.mp ‹_›
      have hquotient : a / b < 2 ^ fuel := by
        refine Nat.div_lt_of_lt_mul (hfuel.trans_le ?_)
        rw [Nat.pow_succ, Nat.mul_comm]
        exact Nat.mul_le_mul_right _ hb
      have hmore : 0 < fuel := by
        by_contra hnone
        obtain rfl : fuel = 0 := by omega
        rw [Nat.pow_one] at hfuel
        omega
      rw [ih ((Nat.div_le_self ..).trans ha) hquotient hmore, digitsIn_of_le hb hle]
      rfl

/-! ### Numbers with a sign -/

/-- Parts of a number that is whole and other than zero. -/
structure Signed (x : Float) (s : Sign) (a m k : Nat) : Prop where
  places : Places a m k
  le : a ≤ 2 ^ 53
  unpack_eq : x.toModel.unpack = .finite s m (k - 52) places.normal.pos

namespace Signed

/-- The size of a whole number is a count. -/
theorem abs_eq (h : Signed x s a m k) : x.abs = Float.ofNat a := by
  have habs : IsCount x.abs a := by
    refine ⟨m, k, h.places, ?_⟩
    change (Float.Model.pack x.toModel.unpack.abs).unpack = _
    rw [h.unpack_eq]
    exact IsCount.unpack_pack h.places .positive
  exact habs.eq (isCount_ofNat h.places.ne_zero h.le)

theorem isFinite (h : Signed x s a m k) : isFinite x = true := by
  obtain ⟨m, k, h', hunpack⟩ := isCount_ofNat h.places.ne_zero h.le
  have hinf : (Float.ofBits 0x7ff0000000000000).toModel.unpack = .infinity .positive := rfl
  refine decide_eq_true (lt_iff.mpr ?_)
  rw [h.abs_eq, hunpack, hinf]
  rfl

theorem lt_zero_iff (h : Signed x s a m k) : x < 0 ↔ isMinus s = true := by
  have hzero : (0 : Float).toModel.unpack = .zero .positive := rfl
  rw [lt_iff, h.unpack_eq, hzero]
  cases s <;> exact Iff.rfl

theorem binary_eq (h : Signed x s a m k) : binary x = .finite (isMinus s) m (k - 52) := by
  rw [binary_eq_ofParts, h.unpack_eq]
  rfl

end Signed

/-- A whole number has no fraction. -/
theorem truncate_ofNat (ha : a ≤ 2 ^ 53) : truncate (Float.ofNat a) = Float.ofNat a := by
  rcases Nat.eq_zero_or_pos a with rfl | hpos
  · rfl
  rcases Nat.lt_or_eq_of_le ha with hlt | rfl
  · exact truncate_whole (unpack_ofNat hpos.ne' hlt) hlt
  · rfl

/-- A count has no places. -/
theorem fraction_ofNat (ha : a ≤ 2 ^ 53) : fraction (Float.ofNat a) = 0 := by
  rw [fraction, truncate_ofNat ha]
  rcases Nat.eq_zero_or_pos a with rfl | hpos
  · rfl
  · obtain ⟨m, k, h, hx⟩ := isCount_ofNat hpos.ne' ha
    refine eq_of_unpack ?_
    change (Float.Model.pack (UnpackedFloat.sub .binary64 (Float.ofNat a).toModel.unpack
      (Float.ofNat a).toModel.unpack)).unpack = _
    rw [hx]
    simp only [UnpackedFloat.sub, sub_self]
    rfl

/-- **A whole number is written in a base** other than ten. -/
theorem radixText_of_ne_ten (hb : 1 < b) (hb' : b ≤ 36) (hten : b ≠ 10) (h : Signed x s a m k) :
    radixText b x = String.ofList (if isMinus s then '-' :: numeralIn b a else numeralIn b a) := by
  have hdigits : wholeDigits (Float.ofNat b) maxWholeDigits (Float.ofNat a) =
      (digitsIn b a).map digitChar :=
    wholeDigits_ofNat hb hb' h.le (h.le.trans_lt (Nat.pow_lt_pow_right (by decide) (by decide)))
      (by decide)
  have hnone : ¬ (0 : Float) > 0 := of_decide_eq_true rfl
  unfold radixText
  rw [if_neg (by simp [hten, h.isFinite])]
  simp only [h.abs_eq, truncate_ofNat h.le, fraction_ofNat h.le, hdigits, h.lt_zero_iff,
    if_neg hnone, numeralIn, List.map_reverse]

/-! ### Base ten -/

theorem digitChar_eq : ∀ d < 10, d.digitChar = digitChar d := by decide

/-- Decimal digits are the digits of base ten. -/
theorem digitsOf_eq (n : Nat) : digitsOf n = numeralIn 10 n := by
  induction n using Nat.strong_induction_on with
  | _ n ih =>
    rw [digitsOf, Nat.toDigits_eq_if (by decide)]
    split
    · rw [numeralIn, digitsIn_of_lt ‹_›, digitChar_eq n ‹_›]
      rfl
    · have hle : 10 ≤ n := Nat.not_lt.mp ‹_›
      have hrest : Nat.toDigits 10 (n / 10) = numeralIn 10 (n / 10) :=
        ih (n / 10) (Nat.div_lt_self (by omega) (by decide))
      rw [hrest, numeralIn, numeralIn, digitsIn_of_le (by decide) hle,
        digitChar_eq _ (Nat.mod_lt _ (by decide)), List.reverse_cons, List.map_append]
      rfl

/-- Zeros that are dropped at the end. -/
theorem exists_dropTrailingZeros (ds : List Char) : ∃ n, ds = dropTrailingZeros ds ++ zeros n := by
  refine ⟨(ds.reverse.takeWhile (· = '0')).length, ?_⟩
  have hzeros : ds.reverse.takeWhile (· = '0') =
      zeros (ds.reverse.takeWhile (· = '0')).length :=
    List.eq_replicate_iff.mpr ⟨rfl, fun c hc => by simpa using List.mem_takeWhile_imp hc⟩
  rw [← List.reverse_inj, List.reverse_append, dropTrailingZeros, List.reverse_reverse, zeros,
    List.reverse_replicate, ← zeros, ← hzeros, List.takeWhile_append_dropWhile]

/-- **A count is written with its digits.** -/
theorem chars_ofCount (ha : a ≤ 2 ^ 53) : Layout.script.chars (.ofCount a) = digitsOf a := by
  have hpos : 0 < (digitsOf a).length := Nat.length_toDigits_pos
  have hfew : (digitsOf a).length ≤ 16 :=
    (Nat.length_toDigits_le_iff (by decide) (by decide)).mpr (ha.trans_lt (by decide))
  have hpositional : Layout.script.isPositional ((digitsOf a).length - 1) = true := by
    simp [Layout.isPositional, Layout.script]
    omega
  have hplaces : (((digitsOf a).length : Int) - 1).toNat + 1 = (digitsOf a).length := by omega
  obtain ⟨n, hn⟩ := exists_dropTrailingZeros (digitsOf a)
  have hlength : (digitsOf a).length = (dropTrailingZeros (digitsOf a)).length + n := by
    have := congrArg List.length hn
    rwa [List.length_append, zeros, List.length_replicate] at this
  have hmissing : (digitsOf a).length - (dropTrailingZeros (digitsOf a)).length = n := by omega
  simp only [Layout.chars, Decimal.ofCount, hpositional, if_true, positionalChars, hplaces,
    hmissing]
  rw [if_neg (by omega), if_pos (by omega)]
  change _ ++ [] = _
  rw [List.append_nil, ← hn]

/-- **The shortest digits of a whole number are its own.** -/
theorem shortest_of_whole (h : Places a m k) (hlt : a < 2 ^ 53) :
    shortest m (k - 52) = .ofCount a := by
  have hk : k ≤ 52 := by
    by_contra hlarge
    have hle : 2 ^ 53 * 2 ^ 52 ≤ a * 2 ^ 52 := by
      rw [← h.eq, Nat.mul_comm]
      exact Nat.mul_le_mul h.normal.lower (Nat.pow_le_pow_right (by decide) (by omega))
    exact absurd (Nat.le_of_mul_le_mul_right hle (by decide)) (Nat.not_le.mpr hlt)
  have hm : m = a * 2 ^ (52 - k) := by
    refine Nat.eq_of_mul_eq_mul_right (Nat.two_pow_pos k) ?_
    rw [h.eq, Nat.mul_assoc, ← Nat.pow_add, Nat.sub_add_cancel hk]
  have hcount : wholeCount? m (k - 52) = some a := by
    have hin : ((k : Int) - 52 > 0 || (k : Int) - 52 < -53) = false := by
      simp
      omega
    have hamount : (-((k : Int) - 52)).toNat = 52 - k := by omega
    rw [wholeCount?, hin, hamount, Nat.one_shiftLeft, hm]
    simp
  rw [shortest, hcount]

/-- **A whole number is written in base ten.** -/
theorem text_of_whole (h : Signed x s a m k) :
    text x = String.ofList (if isMinus s then '-' :: numeralIn 10 a else numeralIn 10 a) := by
  have hm := h.places.normal.pos.ne'
  have hwrite : text x = Layout.script.write (isMinus s) m (k - 52) := by
    rw [text, h.binary_eq]
    exact if_neg hm
  rcases Nat.lt_or_eq_of_le h.le with hlt | rfl
  · rw [hwrite, Layout.write, if_neg hm, shortest_of_whole h.places hlt, chars_ofCount h.le,
      digitsOf_eq]
  · obtain ⟨rfl, rfl⟩ := h.places.unique ⟨normal_power, le_rfl, by decide⟩
    rw [hwrite, ← digitsOf_eq]
    cases s <;> exact of_decide_eq_true rfl

/-- A whole number is written with its sign and the digits of the base. -/
theorem radixText_of_whole (hb : 1 < b) (hb' : b ≤ 36) (h : Signed x s a m k) :
    radixText b x = String.ofList (if isMinus s then '-' :: numeralIn b a else numeralIn b a) := by
  by_cases hten : b = 10
  · subst hten
    exact text_of_whole h
  · exact radixText_of_ne_ten hb hb' hten h

end

/-! ## Reading -/

section

variable {a b : Nat} {cs : List Char} {negative : Bool}

/-- Neither a blank nor a sign stands in front of digits. -/
theorem splitSign_numeral (hb : b ≤ 36) (h : IsNumeral b cs) :
    splitSign (Text.dropBlanks (if negative then '-' :: cs else cs)) = (negative, cs) := by
  obtain ⟨c, cs, rfl⟩ := List.exists_cons_of_ne_nil h.ne_nil
  obtain ⟨d, hd, rfl⟩ := h.digits c List.mem_cons_self
  obtain ⟨-, hblank, hminus, hplus, -⟩ := digitChar_facts d (by omega)
  cases negative with
  | true => rfl
  | false =>
    have hkept : Text.dropBlanks (digitChar d :: cs) = digitChar d :: cs :=
      List.dropWhile_cons_of_neg (by simp [hblank])
    rw [if_neg Bool.false_ne_true, hkept]
    unfold splitSign
    split
    · exact absurd (List.cons.inj ‹_›).1 hminus
    · exact absurd (List.cons.inj ‹_›).1 hplus
    · rfl

/-- The base that digits are read in, and the digits. -/
def announced (base : Nat) (cs : List Char) : Nat × List Char :=
  match cs with
  | '0' :: x :: digits =>
    if (x = 'x' || x = 'X') && (base = 0 || base = 16) then (16, digits) else (base, cs)
  | _ => (base, cs)

/-- The number that is read from digits, as far as there are any. -/
def readDigits (negative : Bool) (base : Nat) (cs : List Char) : Float :=
  let ds := (cs.takeWhile fun c => (digitIn? base c).isSome).filterMap (digitIn? base)
  if ds.isEmpty then nan else signed negative (ofDigits base ds)

/-- Behind sign and prefix the digits of the base are read. -/
theorem ofRadixPrefix_eq {s : String} {base : Nat} (hb : 1 < base) (hb' : base ≤ 36)
    (hsign : splitSign (Text.dropBlanks s.toList) = (negative, cs))
    (hbase : announced b cs = (base, cs)) : ofRadixPrefix b s = readDigits negative base cs := by
  have hsplit : ofRadixPrefix b s =
      (if (if (announced b cs).1 = 0 then 10 else (announced b cs).1) < 2 ||
          (if (announced b cs).1 = 0 then 10 else (announced b cs).1) > 36 then nan
        else readDigits negative (if (announced b cs).1 = 0 then 10 else (announced b cs).1)
          (announced b cs).2) := by
    unfold ofRadixPrefix
    rw [hsign]
    rfl
  rw [hsplit, hbase, if_neg (show base ≠ 0 by omega), if_neg (by simp; omega)]

/-- Digits without a zero in front announce no base. -/
theorem announced_numeral (h : IsNumeral b cs) : announced b cs = (b, cs) := by
  unfold announced
  split
  · rcases h.plain with hzero | hhead
    · cases hzero
    · exact absurd rfl hhead
  · rfl

/-- The digits of a numeral are those of the number, the highest first. -/
theorem readDigits_numeralIn (hb : 1 < b) (hb' : b ≤ 36) (a : Nat) :
    ((numeralIn b a).takeWhile fun c => (digitIn? b c).isSome).filterMap (digitIn? b) =
      (digitsIn b a).reverse := by
  have hread : ∀ d ∈ (digitsIn b a).reverse, digitIn? b (digitChar d) = some d := fun d hd =>
    digitIn?_digitChar (lt_of_mem_digitsIn hb (List.mem_reverse.mp hd)) hb'
  have hall : (numeralIn b a).takeWhile (fun c => (digitIn? b c).isSome) = numeralIn b a := by
    refine List.takeWhile_eq_self_iff.mpr fun c hc => ?_
    obtain ⟨d, hd, rfl⟩ := List.mem_map.mp hc
    rw [hread d hd]
    rfl
  rw [hall, numeralIn, List.filterMap_map]
  refine (List.filterMap_congr hread).trans List.filterMap_some

/-- **The digits of a count write the count.** -/
theorem ofDigits_digitsIn (hb : 1 < b) (hb' : b ≤ 36) (ha : a ≤ 2 ^ 53) :
    ofDigits b (digitsIn b a).reverse = Float.ofNat a := by
  have hlarge : b ≤ 2 ^ 53 := hb'.trans (by decide)
  rw [ofDigits, List.foldl_reverse]
  induction a using Nat.strong_induction_on with
  | _ a ih =>
    have hstep (q d : Nat) (hle : q * b + d ≤ 2 ^ 53) (hq : q ≤ 2 ^ 53) :
        Float.ofNat q * Float.ofNat b + Float.ofNat d = Float.ofNat (q * b + d) := by
      rw [ofNat_mul hq hlarge (by omega), ofNat_add hle]
    rcases Nat.lt_or_ge a b with hlt | hge
    · rw [digitsIn_of_lt hlt]
      have := hstep 0 a (by omega) (by decide)
      rwa [Nat.zero_mul, Nat.zero_add] at this
    · have hsmaller : a / b < a := Nat.div_lt_self (by omega) hb
      have hparts : a / b * b + a % b = a := Nat.div_add_mod' a b
      rw [digitsIn_of_le hb hge, List.foldr_cons, ih _ hsmaller (by omega),
        hstep _ _ (by omega) (by omega), hparts]

/-- **A numeral is read as the count that it writes.** -/
theorem ofRadixPrefix_numeralIn (hb : 1 < b) (hb' : b ≤ 36) (ha : a ≤ 2 ^ 53) :
    ofRadixPrefix b (String.ofList (if negative then '-' :: numeralIn b a else numeralIn b a)) =
      signed negative (Float.ofNat a) := by
  have hnumeral := isNumeral_numeralIn hb hb' a
  have hdigits : (digitsIn b a).reverse.isEmpty = false := by
    simpa using digitsIn_ne_nil
  have hsign : splitSign (Text.dropBlanks (String.ofList
      (if negative then '-' :: numeralIn b a else numeralIn b a)).toList) =
        (negative, numeralIn b a) := by
    rw [String.toList_ofList, splitSign_numeral hb' hnumeral]
  rw [ofRadixPrefix_eq hb hb' hsign (announced_numeral hnumeral), readDigits,
    readDigits_numeralIn hb hb', hdigits, ofDigits_digitsIn hb hb' ha]
  exact if_neg Bool.false_ne_true

end

/-! ## There and back -/

section

variable {x : Float} {b : Nat} {n : Int}

/-- The parts of a number that equals an integer other than zero. -/
theorem signed_of_beq (hn : n ≠ 0) (hle : n.natAbs ≤ 2 ^ 53) (hx : (x == Float.ofInt n) = true) :
    x = Float.ofInt n ∧
      ∃ (s : Sign) (m k : Nat), Signed x s n.natAbs m k ∧ isMinus s = decide (n < 0) := by
  have hparts : ∃ (s : Sign) (m k : Nat), Signed (Float.ofInt n) s n.natAbs m k ∧
      isMinus s = decide (n < 0) := by
    obtain ⟨m, k, h, hunpack⟩ := isCount_ofNat (Int.natAbs_ne_zero.mpr hn) hle
    cases n with
    | ofNat n => exact ⟨.positive, m, k, ⟨h, hle, hunpack⟩, by simp [isMinus]⟩
    | negSucc n =>
      refine ⟨.negative, m, k, ⟨h, hle, ?_⟩, by simp [isMinus]⟩
      change (Float.Model.pack (Float.ofNat (n + 1)).toModel.unpack.neg).unpack = _
      have hsame : (Float.ofNat (n + 1)).toModel.unpack =
        .finite .positive m (k - 52) h.normal.pos :=
        hunpack
      rw [hsame]
      exact IsCount.unpack_pack h .negative
  obtain ⟨s, m, k, hsigned, hs⟩ := hparts
  obtain ⟨-, -, heq⟩ := Float.beq_iff_ne_nan_and_eq.mp hx
  have hsame : x = Float.ofInt n := by
    obtain heq | ⟨-, heq⟩ | ⟨-, heq⟩ := heq
    · exact heq
    all_goals
      have hzero := (congrArg (·.toModel.unpack) heq).symm.trans hsigned.unpack_eq
      cases hzero
  exact ⟨hsame, s, m, k, hsame ▸ hsigned, hs⟩

theorem radixText_zero : ∀ b < 37, 1 < b → radixText b 0 = "0" ∧ radixText b (-0) = "0" := by
  decide +kernel

/-- **The text of an integer** in a base. -/
theorem radixText_of_beq (hb : 1 < b) (hb' : b ≤ 36) (hle : n.natAbs ≤ 2 ^ 53)
    (hx : (x == Float.ofInt n) = true) :
    radixText b x = String.ofList
      (if n < 0 then '-' :: numeralIn b n.natAbs else numeralIn b n.natAbs) := by
  by_cases hn : n = 0
  · subst hn
    obtain ⟨hzero, hminus⟩ := radixText_zero b (by omega) hb
    obtain ⟨-, -, hx⟩ := Float.beq_iff_ne_nan_and_eq.mp hx
    have hcases : x = 0 ∨ x = -0 := by
      obtain h | ⟨h, -⟩ | ⟨h, -⟩ := hx
      · exact .inl h
      · exact .inl h
      · exact .inr h
    rcases hcases with rfl | rfl
    · exact hzero
    · exact hminus
  · obtain ⟨-, s, m, k, hsigned, hs⟩ := signed_of_beq hn hle hx
    rw [radixText_of_whole hb hb' hsigned, hs]
    simp only [decide_eq_true_eq]

/-- **Reading the text** gives the integer again. -/
theorem ofRadixPrefix_numeral (hb : 1 < b) (hb' : b ≤ 36) (hle : n.natAbs ≤ 2 ^ 53) :
    ofRadixPrefix b (String.ofList
      (if n < 0 then '-' :: numeralIn b n.natAbs else numeralIn b n.natAbs)) = Float.ofInt n := by
  have hread : ofRadixPrefix b (String.ofList (if decide (n < 0) then '-' :: numeralIn b n.natAbs
      else numeralIn b n.natAbs)) = signed (decide (n < 0)) (Float.ofNat n.natAbs) :=
    ofRadixPrefix_numeralIn hb hb' hle
  simp only [decide_eq_true_eq] at hread
  rw [hread]
  cases n <;> simp [signed] <;> rfl

theorem base_facts : ∀ b < 37, 1 < b → (Float.ofNat b ≥ 2 && Float.ofNat b ≤ 36) = true ∧
    toCount 36 (Float.ofNat b) = b ∧ toCount ((1 <<< 32) - 1) (Float.ofNat b) = b := by
  decide +kernel

end

end ScriptTrace.Number

namespace ScriptTrace

open Number

/-- **An integer is written in a base and read again.** -/
theorem toString_parseInt (ev : Evaluator) (m : Machine) (line : Nat) {n : Int} {x : Float} {b : Nat}
    (hle : n.natAbs ≤ 2 ^ 53) (hx : (x == Float.ofInt n) = true) (hb : 2 ≤ b) (hb' : b ≤ 36) :
    ∃ (s : String) (cs : List Char), IsNumeral b cs ∧
      s = String.ofList (if n < 0 then '-' :: cs else cs) ∧
      ev.callMethod (.number x) "toString" [.number (Float.ofNat b)] line m = .ok (.string s) m ∧
      Exec.parseInt [.string s, .number (Float.ofNat b)] m = .ok (.number (Float.ofInt n)) m := by
  obtain ⟨hrange, hbase, hbase'⟩ := base_facts b (by omega) hb
  refine ⟨_, numeralIn b n.natAbs, isNumeral_numeralIn hb hb' _, rfl, ?_, ?_⟩
  · have hwritten : ev.callMethod (.number x) "toString" [.number (Float.ofNat b)] line m =
        (if (Float.ofNat b ≥ 2 && Float.ofNat b ≤ 36) = true then
          pure (Value.string (radixText (toCount 36 (Float.ofNat b)) x))
        else Exec.raise .rangeError "toString() radix must be between 2 and 36" line : Exec Value) m := rfl
    rw [hwritten, if_pos hrange, hbase, radixText_of_beq hb hb' hle hx]
    rfl
  · have hread (s : String) : Exec.parseInt [.string s, .number (Float.ofNat b)] m =
        .ok (.number (ofRadixPrefix (toCount ((1 <<< 32) - 1) (Float.ofNat b)) s)) m := rfl
    rw [hread, hbase', ofRadixPrefix_numeral hb hb' hle]

/-- The least integer of all in the greatest base. -/
theorem toString_parseInt_least :
    (-9007199254740992 : Int).natAbs ≤ 2 ^ 53 ∧
    (Float.ofInt (-9007199254740992) == Float.ofInt (-9007199254740992)) = true ∧
    (∃ s, (Evaluator.bounded 1).callMethod (.number (Float.ofInt (-9007199254740992))) "toString"
        [.number (Float.ofNat 36)] 1 (.initial .default) = .ok (.string s) (.initial .default) ∧
      Exec.parseInt [.string s, .number (Float.ofNat 36)] (.initial .default) =
        .ok (.number (Float.ofInt (-9007199254740992))) (.initial .default)) := by
  have hle : (-9007199254740992 : Int).natAbs ≤ 2 ^ 53 := by decide
  have hx : (Float.ofInt (-9007199254740992) == Float.ofInt (-9007199254740992)) = true := by
    decide +kernel
  obtain ⟨s, cs, -, -, hwritten, hread⟩ :=
    toString_parseInt (.bounded 1) (.initial .default) 1 hle hx (b := 36) (by decide) (by decide)
  exact ⟨hle, hx, s, hwritten, hread⟩

end ScriptTrace
