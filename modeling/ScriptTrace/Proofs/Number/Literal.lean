import ScriptTrace.Proofs.Number.Whole
import ScriptTrace.Proofs.Syntax.Numeral

/-!
# Proofs/Number/Literal — a number in a program and the same text as a value

A number in a program is what its text is converted to — but for counts in a base that need all of
64 bits, which are numbers in a program and NaN as texts.  What is refused in a program is NaN as a
text, and it needs more than 64 bits:

    0xff  ↦  255  255        0x8000000000000000  ↦  9223372036854776000  NaN
    1.5e3  ↦  1500  1500     0x10000000000000000  ↦  refused  NaN
-/

namespace ScriptTrace.Number

open Float.Model (Format UnpackedFloat)
open Float.Model.UnpackedFloat
open Grammar (Position)
open Syntax (IsLiteral numberValue)

/-! ## Counts are numbers -/

/-- What is rounded is a number. -/
theorem roundWithAccuracy_ne_notANumber (s : Sign) (m : Nat) (e : Int) (acc : Accuracy) :
    roundWithAccuracy .binary64 s m e acc ≠ .notANumber := by
  unfold roundWithAccuracy
  dsimp only
  split <;> exact nofun

theorem mul_finite_ne_notANumber {s s' : Sign} {m m' : Nat} {e e' : Int} (hm : 0 < m)
    (hm' : 0 < m') :
    UnpackedFloat.mul .binary64 (.finite s m e hm) (.finite s' m' e' hm') ≠ .notANumber :=
  roundWithAccuracy_ne_notANumber _ _ _ _

/-- What is not NaN is not NaN in its bits. -/
theorem unpack_pack_ne_notANumber {x : UnpackedFloat} (hx : x ≠ .notANumber) :
    (Float.Model.pack x).unpack ≠ .notANumber := by
  have hinfinity (s : Sign) : unpack .binary64 (packedInfinity .binary64 s) = .infinity s := by
    cases s <;> rfl
  have hcomponents (s : Sign) {k : Nat} (hk : k + 1 < 2048) (m : BitVec 52) :
      unpack .binary64 (packComponents .binary64 s (BitVec.ofNat 11 k) m) ≠ .notANumber := by
    have hones : BitVec.ofNat 11 k ≠ -1#11 := fun h => by
      have := congrArg BitVec.toNat h
      rw [BitVec.toNat_ofNat, Nat.mod_eq_of_lt (by omega)] at this
      change _ = 2047 at this
      omega
    simp only [unpack, unpackExponent_packComponents, if_neg hones]
    split
    · split <;> exact nofun
    · exact nofun
  change unpack _ (pack _ _) ≠ _
  cases x with
  | notANumber => exact absurd rfl hx
  | infinity s =>
    rw [pack, hinfinity]
    exact nofun
  | zero s => exact hcomponents s (k := 0) (by decide) 0
  | finite s m e hm =>
    simp only [pack]
    split
    · rw [hinfinity]
      exact nofun
    split
    · exact hcomponents s (Nat.not_le.mp ‹_›) _
    · exact hcomponents s (k := 0) (by decide) _

/-- **No count is NaN.** -/
theorem ofNat_ne_nan (n : Nat) : Float.ofNat n ≠ nan := by
  have hnan : nan.toModel.unpack = .notANumber := by rfl
  suffices h : (Float.ofNat n).toModel.unpack ≠ .notANumber from fun heq => h (heq ▸ hnan)
  rcases Nat.eq_zero_or_pos n with rfl | hpos
  · exact nofun
  rcases Nat.lt_or_ge n (2 ^ 53) with hlt | hge
  · rw [unpack_ofNat hpos.ne' hlt]
    exact nofun
  · have hofNat : (Float.ofNat n).toModel = .pack (UnpackedFloat.ofScientific .binary64 n 0) := by
      change (Float.ofScientific n false 0).toModel = _
      unfold Float.ofScientific
      rw [dif_neg fun h => Nat.not_lt.mpr hge h.1]
      rfl
    rw [hofNat]
    have hsmall : (0 : Int) ≤ 2 ^ Format.binary64.exponentBits + n.log2 := by positivity
    refine unpack_pack_ne_notANumber ?_
    unfold UnpackedFloat.ofScientific
    rw [dif_neg hpos.ne', if_neg (by decide), if_neg (by omega), if_pos le_rfl]
    exact mul_finite_ne_notANumber _ _

/-! ## Characters of numbers -/

/-- The count that a text writes in a base. -/
def basedCount? (cs : List Char) : Option Nat :=
  (splitBase? cs).bind fun p => natOfBase? p.1 p.2

section

variable {c : Char} {cs ds : List Char} {b n : Nat} {v : Numeral}

/-- A character of decimal numerals. -/
def isDecimalChar (c : Char) : Bool :=
  isDigit c || c = '.' || c = 'e' || c = 'E' || c = '+' || c = '-'

theorem isDecimalChar_of_isDigit (h : isDigit c = true) : isDecimalChar c = true := by
  simp [isDecimalChar, h]

/-- A significand consists of digits and a point. -/
theorem IsSignificand.chars {i k : Nat} (h : IsSignificand cs i k) :
    ∀ c ∈ cs, isDecimalChar c = true := by
  cases h with
  | whole hds => exact fun c hc => isDecimalChar_of_isDigit (hds.all c hc)
  | point hds hplaces =>
    intro c hc
    rcases List.mem_append.mp hc with hc | hc
    · exact isDecimalChar_of_isDigit (hds.all c hc)
    · rcases List.mem_cons.mp hc with rfl | hc
      · rfl
      · exact isDecimalChar_of_isDigit (hplaces c hc)
  | fraction hplaces =>
    intro c hc
    rcases List.mem_cons.mp hc with rfl | hc
    · rfl
    · exact isDecimalChar_of_isDigit (hplaces.all c hc)

/-- An exponent consists of its letter, a sign and digits. -/
theorem IsExponent.chars {i : Int} (h : IsExponent cs i) : ∀ c ∈ cs, isDecimalChar c = true := by
  cases h with
  | mk he hsign hds =>
    intro c hc
    rcases List.mem_cons.mp hc with rfl | hc
    · rcases he with rfl | rfl <;> rfl
    · rcases List.mem_append.mp hc with hc | hc
      · cases hsign with
        | none => cases hc
        | plus => rw [List.mem_singleton.mp hc]; rfl
        | minus => rw [List.mem_singleton.mp hc]; rfl
      · exact isDecimalChar_of_isDigit (hds.all c hc)

/-- A decimal consists of digits, points, signs and the letter of the exponent. -/
theorem IsDecimal.chars (h : IsDecimal cs v) : ∀ c ∈ cs, isDecimalChar c = true := by
  cases h with
  | plain h => exact h.chars
  | scaled h he => exact fun c hc => (List.mem_append.mp hc).elim (h.chars c) (he.chars c)

/-- A decimal numeral announces no base. -/
theorem IsDecimal.splitBase?_eq (h : IsDecimal cs v) : splitBase? cs = none := by
  unfold splitBase?
  split
  · rename_i b rest
    have hb : isDecimalChar b = true := h.chars b (by simp)
    have hmark : b ≠ 'x' ∧ b ≠ 'X' ∧ b ≠ 'b' ∧ b ≠ 'B' := by
      refine ⟨?_, ?_, ?_, ?_⟩ <;> rintro rfl <;> exact absurd hb (by decide)
    simp [hmark]
  · rfl

/-- No blank is written in a number. -/
theorem not_isBlank (h : isDecimalChar c = true ∨ (digitValue? c).isSome = true) :
    Text.isBlank c = false := by
  have hnone : Syntax.blanks.all (fun c => !isDecimalChar c && (digitValue? c).isNone) = true := by
    decide
  rw [Bool.eq_false_iff]
  intro hblank
  have hc := List.all_eq_true.mp hnone c (Syntax.mem_blanks hblank)
  rcases h with h | h <;> simp_all

theorem isSome_digitValue? (h : (digitIn? b c).isSome = true) : (digitValue? c).isSome = true := by
  obtain ⟨d, hd⟩ := Option.isSome_iff_exists.mp h
  exact Option.isSome_of_eq_some (Option.filter_eq_some_iff.mp hd).1

/-- A literal has no space in it. -/
theorem not_isBlank_of_isLiteral (h : IsLiteral cs) : ∀ c ∈ cs, Text.isBlank c = false := by
  cases h with
  | @based ds b hmark hne hds =>
    obtain ⟨x, rfl, hx⟩ := exists_of_splitBase? hmark
    have hxblank : Text.isBlank x = false := by
      rcases hx with ⟨-, rfl | rfl⟩ | ⟨-, rfl | rfl⟩ <;> rfl
    exact List.forall_mem_cons.mpr ⟨rfl, List.forall_mem_cons.mpr
      ⟨hxblank, fun d hd => not_isBlank (.inr (isSome_digitValue? (hds d hd)))⟩⟩
  | decimal h => exact fun c hc => not_isBlank (.inl (h.chars c hc))

/-- Without space there is nothing to trim. -/
theorem trim_eq (h : ∀ c ∈ cs, Text.isBlank c = false) : Text.trim cs = cs := by
  have hdrop {cs : List Char} (h : ∀ c ∈ cs, Text.isBlank c = false) :
      cs.dropWhile Text.isBlank = cs := by
    cases cs with
    | nil => rfl
    | cons c cs => exact List.dropWhile_cons_of_neg (by simp [h c List.mem_cons_self])
  rw [Text.trim, Text.dropBlanks, hdrop h, Text.dropBlanksEnd,
    hdrop fun c hc => h c (List.mem_reverse.mp hc), List.reverse_reverse]

/-! ## Values -/

/-- **Digits of a base write a count.** -/
theorem exists_natOfBase? (hne : ds ≠ []) (hds : ∀ d ∈ ds, (digitIn? b d).isSome = true) :
    ∃ n, natOfBase? b ds = some n := by
  have hfold (acc : Nat) :
      ∃ n, ds.foldlM (fun n c => (digitIn? b c).map (b * n + ·)) acc = some n := by
    clear hne
    induction ds generalizing acc with
    | nil => exact ⟨acc, rfl⟩
    | cons d ds ih =>
      obtain ⟨hd, hds⟩ := List.forall_mem_cons.mp hds
      obtain ⟨k, hk⟩ := Option.isSome_iff_exists.mp hd
      obtain ⟨n, hn⟩ := ih hds (b * acc + k)
      exact ⟨n, by rw [List.foldlM_cons, hk]; exact hn⟩
  rw [natOfBase?, if_neg (mt List.isEmpty_iff.mp hne)]
  exact hfold 0

/-- The first digit of a base is no sign. -/
theorem splitSign_digits (hds : ∀ d ∈ ds, (digitIn? b d).isSome = true) :
    splitSign ds = (false, ds) := by
  refine splitSign_sign .none fun c rest h => ?_
  have hc := isSome_digitValue? (hds c (h ▸ List.mem_cons_self))
  constructor <;> rintro rfl <;> exact absurd hc (by decide)

/-- The conversion of the text of a number. -/
theorem ofText_of_isLiteral {t : String} (h : IsLiteral t.toList) :
    ofText t = (splitBase? t.toList).elim ((ofDecimal? t.toList).getD nan) fun p =>
      (intOfBase? p.1 p.2).elim nan Float.ofInt := by
  obtain ⟨x, rest, hcs, hx⟩ := h.head
  have hword {w : List Char} {y : Char} (hw : w.head? = some y) (hy : y ∉ Syntax.numberStarts) :
      t.toList ≠ w := by
    rintro rfl
    rw [hcs] at hw
    exact hy (Option.some.inj hw ▸ hx)
  have hplain : t.toList ≠ "Infinity".toList := hword rfl (by decide)
  have hplus : t.toList ≠ "+Infinity".toList := hword rfl (by decide)
  have hminus : t.toList ≠ "-Infinity".toList := hword rfl (by decide)
  have hsome : ¬ t.toList.isEmpty = true := by
    rw [hcs]
    exact Bool.false_ne_true
  have hnoword : ¬ (t.toList = "Infinity".toList || t.toList = "+Infinity".toList) = true := by
    rw [Bool.or_eq_true, decide_eq_true_eq, decide_eq_true_eq]
    exact not_or.mpr ⟨hplain, hplus⟩
  unfold ofText
  rw [trim_eq (not_isBlank_of_isLiteral h)]
  refine (if_neg hsome).trans ?_
  cases splitBase? t.toList with
  | some p => rfl
  | none => exact (if_neg hnoword).trans (if_neg hminus)

/-- **A decimal numeral has its value** in a program and as a text. -/
theorem ofLiteral?_of_isDecimal {t : String} (h : IsDecimal t.toList v) :
    ofLiteral? t.toList = some v.toFloat ∧ ofText t = v.toFloat := by
  have hdecimal : ofDecimal? t.toList = some v.toFloat := by
    obtain ⟨x, rest, hcs, hx⟩ := h.head
    have hsign : splitSign t.toList = (false, t.toList) := by
      refine splitSign_sign .none fun c rest' hc => ?_
      obtain ⟨rfl, -⟩ := List.cons.inj (hcs.symm.trans hc)
      rcases hx with hx | rfl
      · exact ⟨(isDigit_ne hx).2.1, (isDigit_ne hx).2.2.1⟩
      · decide
    simp only [ofDecimal?, hsign, read?_of_isDecimal h]
    rfl
  rw [ofText_of_isLiteral (.decimal h), ofLiteral?, h.splitBase?_eq]
  exact ⟨hdecimal, by rw [hdecimal]; rfl⟩

/-- Digits of a base without a sign are read up to 63 bits. -/
theorem intOfBase?_of_digits (hds : ∀ d ∈ ds, (digitIn? b d).isSome = true)
    (hn : natOfBase? b ds = some n) :
    intOfBase? b ds = if n < 2 ^ 63 then some (n : Int) else none := by
  unfold intOfBase?
  rw [splitSign_digits hds, Nat.one_shiftLeft]
  dsimp only
  rw [hn]
  exact if_neg Bool.false_ne_true

/-- **A count in a base** has its value in a program up to 64 bits, and as a text up to 63. -/
theorem ofLiteral?_of_basedCount {t : String} (h : IsLiteral t.toList)
    (hn : basedCount? t.toList = some n) :
    ofLiteral? t.toList = (if n < 2 ^ 64 then some (Float.ofNat n) else none) ∧
      ofText t = if n < 2 ^ 63 then Float.ofNat n else nan := by
  have htext := ofText_of_isLiteral h
  generalize t.toList = cs at *
  cases h with
  | decimal h =>
    rw [basedCount?, h.splitBase?_eq] at hn
    cases hn
  | @based ds base hmark hne hds =>
    rw [basedCount?, hmark, Option.bind_some] at hn
    rw [hmark, Option.elim_some] at htext
    constructor
    · have hliteral : ofLiteral? cs =
          ((natOfBase? base ds).filter (· < 1 <<< 64)).map Float.ofNat := by
        unfold ofLiteral?
        rw [hmark]
      rw [hliteral, hn, Option.filter_some, Nat.one_shiftLeft]
      by_cases hlt : n < 2 ^ 64
      · rw [if_pos hlt, if_pos (decide_eq_true hlt), Option.map_some]
      · rw [if_neg hlt, if_neg (by simpa using hlt), Option.map_none]
    · rw [htext, intOfBase?_of_digits hds hn]
      by_cases hlt : n < 2 ^ 63
      · rw [if_pos hlt, if_pos hlt]
        rfl
      · rw [if_neg hlt, if_neg hlt, Option.elim_none]

section

variable {t : String} {p : Position}

/-- A decimal numeral has no count in a base. -/
theorem numberValue_of_none (h : IsLiteral t.toList) (hn : basedCount? t.toList = none) :
    numberValue t.toList p = .ok (ofText t) := by
  have hdecimal : ∃ v, IsDecimal t.toList v := by
    cases h with
    | decimal h => exact ⟨_, h⟩
    | based hmark hne hds =>
      obtain ⟨n, hcount⟩ := exists_natOfBase? hne hds
      rw [basedCount?, hmark] at hn
      cases hn.symm.trans hcount
  obtain ⟨v, hv⟩ := hdecimal
  obtain ⟨hliteral, htext⟩ := ofLiteral?_of_isDecimal hv
  rw [numberValue, hliteral, htext]

/-- A literal in another base is refused from 2⁶⁴ on. -/
theorem numberValue_of_some (h : IsLiteral t.toList) (hn : basedCount? t.toList = some n) :
    numberValue t.toList p =
      if n < 2 ^ 64 then .ok (Float.ofNat n) else .error ⟨.numberLiteral t, p⟩ := by
  rw [numberValue, (ofLiteral?_of_basedCount h hn).1]
  by_cases hlt : n < 2 ^ 64
  · rw [if_pos hlt, if_pos hlt]
  · rw [if_neg hlt, if_neg hlt, String.ofList_toList]
    rfl

end

end

end ScriptTrace.Number

namespace ScriptTrace

open Grammar (Position)
open Number
open Syntax (IsLiteral IsNumberText numberValue readExpression)

/-- **A number is read as its text is converted**, and is refused only if its text is no number. -/
def ReadsAsConverted (t : String) (p : Position) : Prop :=
  match numberValue t.toList p with
  | .ok x => x = ofText t
  | .error _ => ofText t = nan

/-- A literal in another base reads as the text converts, but for the counts with 64 bits. -/
theorem readsAsConverted_of_some {t : String} {p : Position} {n : Nat} (h : IsLiteral t.toList)
    (hn : basedCount? t.toList = some n) :
    ReadsAsConverted t p ↔ n < 2 ^ 63 ∨ 2 ^ 64 ≤ n := by
  rw [ReadsAsConverted, numberValue_of_some h hn, (ofLiteral?_of_basedCount h hn).2]
  rcases Nat.lt_or_ge n (2 ^ 63) with hlow | hhigh
  · have hlow' : n < 2 ^ 64 := by omega
    rw [if_pos hlow, if_pos hlow']
    exact iff_of_true rfl (.inl hlow)
  rw [if_neg (Nat.not_lt.mpr hhigh)]
  rcases Nat.lt_or_ge n (2 ^ 64) with hlow | hhigh'
  · rw [if_pos hlow]
    exact iff_of_false (ofNat_ne_nan n) (by omega)
  · rw [if_neg (Nat.not_lt.mpr hhigh')]
    exact iff_of_true rfl (.inr hhigh')

/-- **The value of a number** in a program is the value of its text but for counts of 64 bits in a
base, and what is refused needs more bits. -/
theorem number_readsAsConverted (t : String) (p : Position) (h : IsNumberText t.toList) :
    readExpression t = (numberValue t.toList .start).map (fun x => .mk (.number x) .start) ∧
    (ReadsAsConverted t p ↔ ∀ n, basedCount? t.toList = some n → n < 2 ^ 63 ∨ 2 ^ 64 ≤ n) ∧
    (∀ e, numberValue t.toList p = .error e ↔
      ∃ n, basedCount? t.toList = some n ∧ 2 ^ 64 ≤ n ∧ e = ⟨.numberLiteral t, p⟩) ∧
    ∀ n, basedCount? t.toList = some n → n < 2 ^ 64 →
      numberValue t.toList p = .ok (Float.ofNat n) := by
  obtain ⟨hliteral, -⟩ := h.result_number 0
  refine ⟨Syntax.readExpression_of_isNumberText h, ?_, fun e => ?_, fun n hn hlt => ?_⟩
  · cases hn : basedCount? t.toList with
    | none =>
      rw [ReadsAsConverted, numberValue_of_none hliteral hn]
      exact iff_of_true rfl nofun
    | some n =>
      rw [readsAsConverted_of_some hliteral hn]
      exact ⟨fun h _ heq => Option.some.inj heq ▸ h, fun h => h n rfl⟩
  · cases hn : basedCount? t.toList with
    | none =>
      rw [numberValue_of_none hliteral hn]
      exact iff_of_false nofun nofun
    | some n =>
      rw [numberValue_of_some hliteral hn]
      constructor
      · intro he
        split at he
        · cases he
        · cases he
          exact ⟨n, rfl, by omega, rfl⟩
      · rintro ⟨n', heq, hge, rfl⟩
        cases heq
        rw [if_neg (by omega)]
  · rw [numberValue_of_some hliteral hn, if_pos hlt]

/-- A number in a base, in capitals. -/
theorem number_readsAsConverted_hex :
    IsNumberText "0XfF".toList ∧ ReadsAsConverted "0XfF" .start ∧
    readExpression "0XfF" = .ok (.mk (.number 255) .start) := by
  have htext : IsNumberText "0XfF".toList := ⟨_, _, rfl, rfl⟩
  obtain ⟨hread, hagree, -, hvalue⟩ := number_readsAsConverted "0XfF" .start htext
  have hcount : basedCount? "0XfF".toList = some 255 := by decide
  refine ⟨htext, hagree.mpr fun n hn => ?_, ?_⟩
  · cases hcount.symm.trans hn
    exact .inl (by decide)
  · rw [hread, hvalue 255 hcount (by decide)]
    rfl

/-- A count of 64 bits. -/
def wideText : String := "0x8000000000000000"

/-- **Not every number is read as its text is converted.** -/
theorem wideText_not_readsAsConverted :
    (¬ ∀ (t : String) (p : Position), IsNumberText t.toList → ReadsAsConverted t p) ∧
    readExpression wideText = .ok (.mk (.number (Float.ofNat (2 ^ 63))) .start) ∧
    ofText wideText = nan := by
  have htext : IsNumberText wideText.toList := ⟨_, _, rfl, rfl⟩
  have hliteral := (htext.result_number 0).1
  have hcount : basedCount? wideText.toList = some (2 ^ 63) := by decide
  refine ⟨fun hall => ?_, ?_, ?_⟩
  · have hagree := hall wideText .start htext
    rw [readsAsConverted_of_some hliteral hcount] at hagree
    omega
  · rw [Syntax.readExpression_of_isNumberText htext, numberValue_of_some hliteral hcount,
      if_pos (by decide)]
    rfl
  · rw [(ofLiteral?_of_basedCount hliteral hcount).2, if_neg (by decide)]

end ScriptTrace
