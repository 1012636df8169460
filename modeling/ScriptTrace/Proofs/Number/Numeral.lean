import Mathlib.Data.List.Infix
import Mathlib.Data.List.TakeWhile
import ScriptTrace.Number.Reading

/-!
# Proofs/Number/Numeral — what a decimal numeral looks like

    digits [. [digits]] [exponent]      . digits [exponent]      exponent = (e | E) [+ | -] digits

`IsDecimal` tells this grammar with the value that a numeral writes.  A reader that takes as many
digits as there are in each place reads a numeral (`isDecimal_read?`), and no longer one stands at
the front of the text (`exists_read?`).
-/

namespace ScriptTrace.Number

/-- Decimal digits, at least one. -/
structure IsDigits (ds : List Char) : Prop where
  ne_nil : ds ≠ []
  all : ∀ d ∈ ds, isDigit d = true

/-- The sign of an exponent or of a number, or none. -/
inductive IsSign : List Char → Bool → Prop
  | none : IsSign [] false
  | plus : IsSign ['+'] false
  | minus : IsSign ['-'] true

/-- The value of an exponent. -/
def exponentOf (negative : Bool) (ds : List Char) : Int :=
  if negative then -natOfDigits ds else natOfDigits ds

/-- An exponent part. -/
inductive IsExponent : List Char → Int → Prop
  | mk {e : Char} {sign ds : List Char} {negative : Bool} (he : e = 'e' ∨ e = 'E')
      (hsign : IsSign sign negative) (hds : IsDigits ds) :
      IsExponent (e :: (sign ++ ds)) (exponentOf negative ds)

/-- Digits, with a point or without: the count that they write, and how many stand behind the
point. -/
inductive IsSignificand : List Char → Nat → Nat → Prop
  | whole {ds : List Char} (hds : IsDigits ds) : IsSignificand ds (natOfDigits ds) 0
  | point {ds places : List Char} (hds : IsDigits ds) (hplaces : ∀ d ∈ places, isDigit d = true) :
      IsSignificand (ds ++ '.' :: places) (natOfDigits (ds ++ places)) places.length
  | fraction {places : List Char} (hplaces : IsDigits places) :
      IsSignificand ('.' :: places) (natOfDigits places) places.length

/-- **A decimal numeral** without a sign, and its value. -/
inductive IsDecimal : List Char → Numeral → Prop
  | plain {cs : List Char} {n k : Nat} (h : IsSignificand cs n k) : IsDecimal cs ⟨n, 0 - k⟩
  | scaled {cs es : List Char} {n k : Nat} {e : Int} (h : IsSignificand cs n k)
      (he : IsExponent es e) : IsDecimal (cs ++ es) ⟨n, e - k⟩

section

variable {c e : Char} {cs ds es t rest places : List Char} {n k : Nat} {i : Int} {negative : Bool}
  {v : Numeral}

/-! ## Characters of numerals -/

theorem isDigit_ne (hc : isDigit c = true) : c ≠ '.' ∧ c ≠ '+' ∧ c ≠ '-' ∧ c ≠ 'e' ∧ c ≠ 'E' := by
  refine ⟨?_, ?_, ?_, ?_, ?_⟩ <;> rintro rfl <;> exact absurd hc (by decide)

/-- A text in front of which no digit stands. -/
def Halts (cs : List Char) : Prop := ∀ c rest, cs = c :: rest → isDigit c = false

theorem Halts.nil : Halts [] := fun _ _ h => nomatch h

theorem Halts.cons (hc : isDigit c = false) : Halts (c :: cs) := by
  rintro d rest h
  obtain ⟨rfl, -⟩ := List.cons.inj h
  exact hc

theorem takeWhile_digits (hds : ∀ d ∈ ds, isDigit d = true) :
    (ds ++ t).takeWhile isDigit = ds ++ t.takeWhile isDigit :=
  List.takeWhile_append_of_pos hds

theorem dropWhile_digits (hds : ∀ d ∈ ds, isDigit d = true) :
    (ds ++ t).dropWhile isDigit = t.dropWhile isDigit :=
  List.dropWhile_append_of_pos hds

theorem Halts.takeWhile_eq (h : Halts cs) : cs.takeWhile isDigit = [] := by
  cases cs with
  | nil => rfl
  | cons c cs => exact List.takeWhile_cons_of_neg (by simp [h c cs rfl])

theorem Halts.dropWhile_eq (h : Halts cs) : cs.dropWhile isDigit = cs := by
  cases cs with
  | nil => rfl
  | cons c cs => exact List.dropWhile_cons_of_neg (by simp [h c cs rfl])

/-- Digits at the front of a text. -/
theorem isDigits_takeWhile (h : cs.takeWhile isDigit ≠ []) : IsDigits (cs.takeWhile isDigit) :=
  ⟨h, fun _ hd => List.mem_takeWhile_imp hd⟩

/-! ## The first character -/

/-- A significand begins with a digit or a point. -/
theorem IsSignificand.head {n k : Nat} (h : IsSignificand cs n k) :
    ∃ c rest, cs = c :: rest ∧ (isDigit c = true ∨ c = '.') := by
  cases h with
  | whole hds =>
    obtain ⟨d, ds, rfl⟩ := List.exists_cons_of_ne_nil hds.ne_nil
    exact ⟨d, ds, rfl, .inl (hds.all d List.mem_cons_self)⟩
  | @point ds places hds _ =>
    obtain ⟨d, ds, rfl⟩ := List.exists_cons_of_ne_nil hds.ne_nil
    exact ⟨d, _, rfl, .inl (hds.all d List.mem_cons_self)⟩
  | fraction _ => exact ⟨_, _, rfl, .inr rfl⟩

/-- A decimal begins with a digit or a point. -/
theorem IsDecimal.head (h : IsDecimal cs v) :
    ∃ c rest, cs = c :: rest ∧ (isDigit c = true ∨ c = '.') := by
  cases h with
  | plain h => exact h.head
  | scaled h _ =>
    obtain ⟨c, rest, rfl, hc⟩ := h.head
    exact ⟨c, _, rfl, hc⟩

/-- A base is announced by a letter behind a zero. -/
theorem exists_of_splitBase? {b : Nat} (h : splitBase? cs = some (b, ds)) :
    ∃ x, cs = '0' :: x :: ds ∧ (b = 16 ∧ (x = 'x' ∨ x = 'X') ∨ b = 2 ∧ (x = 'b' ∨ x = 'B')) := by
  unfold splitBase? at h
  split at h
  · rename_i x rest
    split at h
    · obtain ⟨rfl, rfl⟩ := Prod.mk.inj (Option.some.inj h)
      exact ⟨x, rfl, .inl ⟨rfl, by simpa using ‹(x = 'x' || x = 'X') = true›⟩⟩
    split at h
    · obtain ⟨rfl, rfl⟩ := Prod.mk.inj (Option.some.inj h)
      exact ⟨x, rfl, .inr ⟨rfl, by simpa using ‹(x = 'b' || x = 'B') = true›⟩⟩
    · cases h
  · cases h

/-! ## Exponents -/

/-- A sign that may stand in front of digits, as the reader takes it off. -/
theorem splitSign_sign {sign : List Char} (hsign : IsSign sign negative)
    (hcs : ∀ c rest, cs = c :: rest → c ≠ '+' ∧ c ≠ '-') : splitSign (sign ++ cs) =
    (negative, cs) := by
  cases hsign with
  | plus => rfl
  | minus => rfl
  | none =>
    rw [List.nil_append]
    unfold splitSign
    split
    · exact absurd rfl (hcs _ _ rfl).2
    · exact absurd rfl (hcs _ _ rfl).1
    · rfl

/-- A text is a sign, which may be missing, and the rest. -/
theorem exists_splitSign (cs : List Char) :
    ∃ sign, IsSign sign (splitSign cs).1 ∧ cs = sign ++ (splitSign cs).2 := by
  unfold splitSign
  split
  · exact ⟨['-'], .minus, rfl⟩
  · exact ⟨['+'], .plus, rfl⟩
  · exact ⟨[], .none, rfl⟩

/-- Behind its letter an exponent needs at least one digit. -/
theorem readExponent?_cons (he : e = 'e' ∨ e = 'E') (cs : List Char) :
    readExponent? (e :: cs) =
      if ((splitSign cs).2.takeWhile isDigit).isEmpty then none
      else some (exponentOf (splitSign cs).1 ((splitSign cs).2.takeWhile isDigit),
        (splitSign cs).2.dropWhile isDigit) := by
  have hmark : (e = 'e' || e = 'E') = true := by simpa using he
  unfold readExponent?
  dsimp only
  rw [if_pos hmark]
  rfl

/-- An exponent is read, with all digits that stand there. -/
theorem exists_readExponent? (h : IsExponent es i) (t : List Char) :
    ∃ i' rest, readExponent? (es ++ t) = some (i', rest) ∧ rest.length ≤ t.length ∧
      (Halts t → i' = i ∧ rest = t) := by
  cases h with
  | @mk e sign ds negative he hsign hds =>
    obtain ⟨d, ds', rfl⟩ := List.exists_cons_of_ne_nil hds.ne_nil
    have hsplit : splitSign (sign ++ (d :: ds' ++ t)) = (negative, d :: ds' ++ t) := by
      refine splitSign_sign hsign fun c rest h => ?_
      obtain ⟨rfl, -⟩ := List.cons.inj h
      obtain ⟨-, hplus, hminus, -⟩ := isDigit_ne (hds.all d List.mem_cons_self)
      exact ⟨hplus, hminus⟩
    rw [List.cons_append, List.append_assoc, readExponent?_cons he, hsplit,
      takeWhile_digits hds.all, dropWhile_digits hds.all]
    refine ⟨_, _, rfl, (List.dropWhile_suffix _).length_le, fun hhalts => ?_⟩
    rw [hhalts.takeWhile_eq, hhalts.dropWhile_eq, List.append_nil]
    exact ⟨rfl, rfl⟩

/-- What is read as an exponent is one. -/
theorem isExponent_readExponent? (h : readExponent? cs = some (i, rest)) :
    ∃ es, IsExponent es i ∧ cs = es ++ rest := by
  cases cs with
  | nil => cases h
  | cons e cs =>
    by_cases he : e = 'e' ∨ e = 'E'
    · rw [readExponent?_cons he] at h
      split at h
      · cases h
      · obtain ⟨rfl, rfl⟩ := Prod.mk.inj (Option.some.inj h)
        obtain ⟨sign, hsign, hcs⟩ := exists_splitSign cs
        refine ⟨_, .mk he hsign (isDigits_takeWhile (mt List.isEmpty_iff.mpr ‹_›)), ?_⟩
        rw [List.cons_append, List.append_assoc, List.takeWhile_append_dropWhile, ← hcs]
    · have hmark : (e = 'e' || e = 'E') = false := by simpa using he
      unfold readExponent? at h
      dsimp only at h
      rw [hmark] at h
      cases h

/-! ## Numerals -/

/-- A numeral with the exponent that stands behind its digits. -/
def withExponent (n k : Nat) (cs : List Char) : Numeral × List Char :=
  (⟨n, ((readExponent? cs).getD (0, cs)).1 - k⟩, ((readExponent? cs).getD (0, cs)).2)

/-- Digits may stand on both sides of a point, and must on one. -/
theorem read?_of_point (h : cs.dropWhile isDigit = '.' :: t) :
    Numeral.read? cs =
      if (cs.takeWhile isDigit).isEmpty && (t.takeWhile isDigit).isEmpty then none
      else some (withExponent (natOfDigits (cs.takeWhile isDigit ++ t.takeWhile isDigit))
        (t.takeWhile isDigit).length (t.dropWhile isDigit)) := by
  unfold Numeral.read?
  rw [h]
  rfl

/-- Without a point there must be digits. -/
theorem read?_of_no_point (h : ∀ t, cs.dropWhile isDigit ≠ '.' :: t) :
    Numeral.read? cs =
      if (cs.takeWhile isDigit).isEmpty then none
      else some (withExponent (natOfDigits (cs.takeWhile isDigit)) 0 (cs.dropWhile isDigit)) := by
  unfold Numeral.read?
  dsimp only
  split
  · exact absurd ‹_› (h _)
  · rw [List.append_nil, List.isEmpty_nil, Bool.and_true]
    rfl

/-- An exponent belongs to the decimal only if it is complete. -/
theorem withExponent_spec (h : IsSignificand cs n k) (hv : withExponent n k t = (v, rest)) :
    ∃ p, IsDecimal p v ∧ cs ++ t = p ++ rest := by
  unfold withExponent at hv
  cases hread : readExponent? t with
  | none =>
    rw [hread] at hv
    obtain ⟨rfl, rfl⟩ := Prod.mk.inj hv
    exact ⟨cs, .plain h, rfl⟩
  | some found =>
    obtain ⟨i, rest'⟩ := found
    rw [hread] at hv
    obtain ⟨rfl, rfl⟩ := Prod.mk.inj hv
    obtain ⟨es, hes, rfl⟩ := isExponent_readExponent? hread
    exact ⟨cs ++ es, .scaled h hes, (List.append_assoc ..).symm⟩

/-- Digits in front of a point or behind it. -/
theorem isSignificand_point (h : cs.takeWhile isDigit = [] → t.takeWhile isDigit ≠ []) :
    IsSignificand (cs.takeWhile isDigit ++ '.' :: t.takeWhile isDigit)
      (natOfDigits (cs.takeWhile isDigit ++ t.takeWhile isDigit)) (t.takeWhile isDigit).length := by
  by_cases hnone : cs.takeWhile isDigit = []
  · rw [hnone]
    exact .fraction (isDigits_takeWhile (h hnone))
  · exact .point (isDigits_takeWhile hnone) fun _ hd => List.mem_takeWhile_imp hd

/-- **The reader reads a numeral.** -/
theorem isDecimal_read? (h : Numeral.read? cs = some (v, rest)) :
    ∃ p, IsDecimal p v ∧ cs = p ++ rest := by
  have hparts := List.takeWhile_append_dropWhile (p := isDigit) (l := cs)
  by_cases hpoint : ∃ t, cs.dropWhile isDigit = '.' :: t
  · obtain ⟨t, ht⟩ := hpoint
    have hplaces := List.takeWhile_append_dropWhile (p := isDigit) (l := t)
    rw [read?_of_point ht] at h
    split at h
    · cases h
    · rename_i hsome
      rw [Bool.and_eq_true, List.isEmpty_iff, List.isEmpty_iff, not_and] at hsome
      obtain ⟨p, hp, heq⟩ := withExponent_spec (isSignificand_point hsome) (Option.some.inj h)
      refine ⟨p, hp, ?_⟩
      rw [← heq, List.append_assoc, List.cons_append, hplaces, ← ht, hparts]
  · have hno : ∀ t, cs.dropWhile isDigit ≠ '.' :: t := fun t ht => hpoint ⟨t, ht⟩
    rw [read?_of_no_point hno] at h
    split at h
    · cases h
    · obtain ⟨p, hp, heq⟩ := withExponent_spec
        (.whole (isDigits_takeWhile (mt List.isEmpty_iff.mpr ‹_›))) (Option.some.inj h)
      exact ⟨p, hp, hparts.symm.trans heq⟩

/-! ## No numeral is longer -/

/-- A text in front of which neither a digit nor a point stands. -/
def Ends (cs : List Char) : Prop := Halts cs ∧ ∀ t, cs ≠ '.' :: t

/-- What is left behind an exponent is no longer than before. -/
theorem withExponent_length (n k : Nat) (cs : List Char) :
    (withExponent n k cs).2.length ≤ cs.length := by
  unfold withExponent
  cases hread : readExponent? cs with
  | none => exact le_rfl
  | some found =>
    obtain ⟨i, rest⟩ := found
    obtain ⟨es, -, rfl⟩ := isExponent_readExponent? hread
    rw [List.length_append]
    exact Nat.le_add_left ..

/-- Digits on both sides of a point are read. -/
theorem read?_point (hds : ∀ d ∈ ds, isDigit d = true) (hplaces : ∀ d ∈ places, isDigit d = true)
    (hsome : ds = [] → places ≠ []) (t : List Char) :
    Numeral.read? (ds ++ '.' :: (places ++ t)) =
      some (withExponent (natOfDigits (ds ++ (places ++ t.takeWhile isDigit)))
        (places ++ t.takeWhile isDigit).length (t.dropWhile isDigit)) := by
  have hhalts : Halts ('.' :: (places ++ t)) := .cons (by decide)
  rw [read?_of_point (by rw [dropWhile_digits hds, hhalts.dropWhile_eq]), takeWhile_digits hds,
    hhalts.takeWhile_eq, List.append_nil, takeWhile_digits hplaces, dropWhile_digits hplaces]
  refine if_neg ?_
  rw [Bool.and_eq_true, List.isEmpty_iff, List.isEmpty_iff, List.append_eq_nil_iff]
  exact fun h => hsome h.1 h.2.1

/-- What stands behind the digits of a numeral is read as far as that. -/
theorem exists_read?_of_significand (h : IsSignificand cs n k) (t : List Char) :
    ∃ (n' k' : Nat) (rest : List Char), Numeral.read? (cs ++ t) = some (withExponent n' k' rest) ∧
      rest.length ≤ t.length ∧ (Ends t → n' = n ∧ k' = k ∧ rest = t) := by
  have hlength := (List.dropWhile_suffix (l := t) isDigit).length_le
  cases h with
  | whole hds =>
    have hsome : (cs ++ t.takeWhile isDigit).isEmpty = false := by simp [hds.ne_nil]
    by_cases hpoint : ∃ t', t.dropWhile isDigit = '.' :: t'
    · obtain ⟨t', ht'⟩ := hpoint
      rw [read?_of_point (by rw [dropWhile_digits hds.all, ht']), takeWhile_digits hds.all, hsome]
      refine ⟨_, _, _, if_neg Bool.false_ne_true, ?_, fun hends => ?_⟩
      · have hshort := (List.dropWhile_suffix (l := t') isDigit).length_le
        rw [ht', List.length_cons] at hlength
        omega
      · rw [hends.1.dropWhile_eq] at ht'
        exact absurd ht' (hends.2 t')
    · rw [read?_of_no_point (by rw [dropWhile_digits hds.all]; exact fun t' ht' => hpoint ⟨t', ht'⟩),
        takeWhile_digits hds.all, dropWhile_digits hds.all, hsome]
      refine ⟨_, _, _, if_neg Bool.false_ne_true, hlength, fun hends => ?_⟩
      rw [hends.1.takeWhile_eq, hends.1.dropWhile_eq, List.append_nil]
      exact ⟨rfl, rfl, rfl⟩
  | @point ds places hds hplaces =>
    rw [List.append_assoc, List.cons_append, read?_point hds.all hplaces (absurd · hds.ne_nil)]
    refine ⟨_, _, _, rfl, hlength, fun hends => ?_⟩
    rw [hends.1.takeWhile_eq, hends.1.dropWhile_eq, List.append_nil]
    exact ⟨rfl, rfl, rfl⟩
  | @fraction places hplaces =>
    rw [List.cons_append, ← List.nil_append ('.' :: _),
      read?_point (List.forall_mem_nil _) hplaces.all fun _ => hplaces.ne_nil]
    refine ⟨_, _, _, rfl, hlength, fun hends => ?_⟩
    rw [hends.1.takeWhile_eq, hends.1.dropWhile_eq, List.append_nil]
    exact ⟨rfl, rfl, rfl⟩

/-- An exponent part ends the digits in front of it. -/
theorem ends_of_isExponent (h : IsExponent es i) (t : List Char) : Ends (es ++ t) := by
  cases h with
  | @mk e sign ds negative he hsign hds =>
    rcases he with rfl | rfl <;>
      exact ⟨.cons (by decide), fun _ h => absurd (List.cons.inj h).1 (by decide)⟩

/-- **The reader takes as much as there is**: no longer numeral stands at the front of the text. -/
theorem exists_read? (h : IsDecimal cs v) (t : List Char) :
    ∃ v' rest, Numeral.read? (cs ++ t) = some (v', rest) ∧ rest.length ≤ t.length ∧
      (t = [] → v' = v) := by
  cases h with
  | @plain _ n k h =>
    obtain ⟨n', k', rest, hread, hlength, heq⟩ := exists_read?_of_significand h t
    refine ⟨_, _, hread, (withExponent_length n' k' rest).trans hlength, ?_⟩
    rintro rfl
    obtain ⟨rfl, rfl, rfl⟩ := heq ⟨.nil, fun _ h => nomatch h⟩
    rfl
  | @scaled cs es n k i h he =>
    obtain ⟨n', k', rest, hread, -, heq⟩ := exists_read?_of_significand h (es ++ t)
    obtain ⟨rfl, rfl, rfl⟩ := heq (ends_of_isExponent he t)
    obtain ⟨i', rest, hexponent, hlength, hexact⟩ := exists_readExponent? he t
    refine ⟨⟨n', i' - k'⟩, rest, ?_, hlength, ?_⟩
    · rw [List.append_assoc, hread, withExponent, hexponent]
      rfl
    · rintro rfl
      rw [(hexact .nil).1]

/-- **A numeral is read as a whole**, with its value. -/
theorem read?_of_isDecimal (h : IsDecimal cs v) : Numeral.read? cs = some (v, []) := by
  obtain ⟨v', rest, hread, hlength, hvalue⟩ := exists_read? h []
  rw [List.append_nil, hvalue rfl, List.length_eq_zero_iff.mp (Nat.le_zero.mp hlength)] at hread
  exact hread

end

end ScriptTrace.Number
