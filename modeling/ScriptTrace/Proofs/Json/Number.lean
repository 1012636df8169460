import ScriptTrace.Proofs.Json.Reader

/-!
# Proofs/Json/Number — how far a number is read

    -12.5e+3 , …   ──readValue──▸   , …      or an error

The text of a number is digits, perhaps a point with digits behind it, perhaps an exponent
(`IsNumberBody`).  Its value may be rounded on the way back, or be found to be out of range; but if
it is read at all, then all of its text is, and nothing behind it (`passes_number`).
-/

namespace ScriptTrace.Json

/-- **A reader goes over a text**, if it does not fail: it leaves what stands behind, and its value
is such a one. -/
def Passes {α : Type} (Behind : List Char → Prop) (r : Reader α) (t : List Char) (P : α → Prop) :
    Prop :=
  ∀ ⦃i i' : Input⦄ ⦃rest : List Char⦄ ⦃a : α⦄, Behind rest → i.rest = t ++ rest →
    r i = .ok (a, i') → i'.rest = rest ∧ P a

/-- A text that is read as a value is gone over. -/
theorem Reads.passes {α : Type} {Behind : List Char → Prop} {r : Reader α} {t : List Char} {a : α}
    (h : Reads Behind r t a) : Passes Behind r t fun b => b = a := by
  intro i i' rest b hrest hi hread
  obtain ⟨i'', hread', hrest'⟩ := h i rest hrest hi
  cases hread.symm.trans hread'
  exact ⟨hrest', rfl⟩

/-- A document that is a number. -/
def IsNumber : Json → Prop
  | .integer _ | .real _ => True
  | _ => False

/-- Digits and nothing else. -/
def AllDigits (ds : List Char) : Prop := ∀ d ∈ ds, Number.isDigit d = true

/-- A point with digits behind it, or nothing. -/
inductive IsFraction : List Char → Prop
  | none : IsFraction []
  | point {ds : List Char} (hds : AllDigits ds) : IsFraction ('.' :: ds)

/-- An exponent with its sign, or nothing. -/
inductive IsExponent : List Char → Prop
  | none : IsExponent []
  | signed {sign : Char} {ds : List Char} (hsign : sign = '+' ∨ sign = '-') (hds : AllDigits ds) :
    IsExponent ('e' :: sign :: ds)

/-- **The text of a number behind its sign.** -/
def IsNumberBody (t : List Char) : Prop :=
  ∃ ds fraction exponent, t = ds ++ (fraction ++ exponent) ∧ AllDigits ds ∧ IsFraction fraction ∧
    IsExponent exponent

section

variable {negative : Bool} {significand : Nat} {start : Int} {i i' : Input} {j : Json}
  {ds rest t fraction exponent : List Char}

/-! ## Reading -/

/-- A text that does not go on with a digit. -/
def NoDigit (rest : List Char) : Prop := ∀ c ∈ rest.head?, Number.isDigit c = false

theorem Stops.noDigit (h : Stops rest) : NoDigit rest := fun c hc => (h c hc).1

/-- The digits here are those up to what is no digit. -/
theorem digitsHere_eq (hds : AllDigits ds) (hrest : NoDigit rest) (h : i.rest = ds ++ rest) :
    digitsHere i = ds := by
  rw [digitsHere, h, List.takeWhile_append_of_pos hds]
  cases rest with
  | nil => exact List.append_nil _
  | cons c cs =>
    rw [List.takeWhile_cons_of_neg (by rw [hrest c rfl]; exact Bool.false_ne_true),
      List.append_nil]

/-- Whatever is scaled is a number. -/
theorem isNumber_of_scaled (h : scaled negative significand start i = .ok (j, i')) :
    i' = i ∧ j.IsNumber := by
  unfold scaled at h
  split at h
  · cases h
    exact ⟨rfl, trivial⟩
  · cases h

/-- An exponent is read to its end. -/
theorem passes_readExponent (hds : AllDigits ds) {sign : Char} (hsign : sign = '+' ∨ sign = '-') :
    Passes Stops (readExponent negative significand start) (sign :: ds) IsNumber := by
  intro i i' rest j hrest hi h
  have hbehind : (i.drop 1).rest = ds ++ rest := Input.rest_drop_one hi
  have hdigits : digitsHere (i.drop 1) = ds := digitsHere_eq hds hrest.noDigit hbehind
  have hend := Input.rest_drop_append hbehind
  unfold readExponent at h
  rw [hi] at h
  rcases hsign with rfl | rfl
  all_goals
    simp only [List.cons_append] at h
    split at h
    · cases h
    split at h
    · rw [hdigits] at h
      split at h
      · split at h
        · cases h
        · cases h
          exact ⟨hend, trivial⟩
      · obtain ⟨rfl, hj⟩ := isNumber_of_scaled h
        exact ⟨hend, hj⟩
    · cases h

/-- Behind a significand an exponent is read, if there is one. -/
theorem passes_readScaled (hexponent : IsExponent exponent) :
    Passes Stops (readScaled negative significand start) exponent IsNumber := by
  intro i i' rest j hrest hi h
  unfold readScaled at h
  cases hexponent with
  | none =>
    rw [List.nil_append] at hi
    split at h
    · rename_i heq
      exact absurd rfl (hrest 'e' (by rw [← hi, heq]; rfl)).2.2.1
    · rename_i heq
      exact absurd rfl (hrest 'E' (by rw [← hi, heq]; rfl)).2.2.2
    · obtain ⟨rfl, hj⟩ := isNumber_of_scaled h
      exact ⟨hi, hj⟩
  | signed hsign hds =>
    rw [hi] at h
    exact passes_readExponent hds hsign hrest (Input.rest_drop_one hi) h

theorem IsExponent.noDigit (hexponent : IsExponent exponent) (hrest : Stops rest) :
    NoDigit (exponent ++ rest) := by
  cases hexponent with
  | none => exact hrest.noDigit
  | signed => rintro _ ⟨⟩; rfl

/-- Behind a point places are read, and then an exponent. -/
theorem passes_readPlaces (hds : AllDigits ds) (hexponent : IsExponent exponent) :
    Passes Stops (readPlaces negative significand start) (ds ++ exponent) IsNumber := by
  intro i i' rest j hrest hi h
  rw [List.append_assoc] at hi
  unfold readPlaces at h
  dsimp only at h
  rw [digitsHere_eq hds (hexponent.noDigit hrest) hi] at h
  cases ds with
  | nil =>
    dsimp only at h
    split at h <;> cases h
  | cons d ds =>
    exact passes_readScaled hexponent hrest (Input.rest_drop_append hi) h

/-- **A number is read to its end**, if it is read. -/
theorem passes_readNumber (ht : IsNumberBody t) :
    Passes Stops (readNumber negative) t IsNumber := by
  intro i i' rest j hrest hi h
  obtain ⟨ds, fraction, exponent, rfl, hds, hfraction, hexponent⟩ := ht
  rw [List.append_assoc, List.append_assoc] at hi
  have hbehind : NoDigit (fraction ++ (exponent ++ rest)) := by
    cases hfraction with
    | none => exact hexponent.noDigit hrest
    | point => rintro _ ⟨⟩; rfl
  have hnext := Input.rest_drop_append hi
  unfold readNumber at h
  dsimp only at h
  rw [digitsHere_eq hds hbehind hi] at h
  split at h
  · split at h <;> cases h
  · cases h
  · cases hfraction with
    | point hplaces =>
      rw [hnext] at h
      have hi' := (Input.rest_drop_one hnext).trans (List.append_assoc ..).symm
      exact passes_readPlaces hplaces hexponent hrest hi' h
    | none =>
      rw [List.nil_append] at hnext
      cases hexponent with
      | signed hsign hes =>
        rw [hnext] at h
        exact passes_readScaled (.signed hsign hes) hrest hnext h
      | none =>
        rw [List.nil_append] at hnext
        split at h
        · rename_i heq
          exact absurd rfl (hrest '.' (by rw [← hnext, heq]; rfl)).2.1
        · rename_i heq
          exact absurd rfl (hrest 'e' (by rw [← hnext, heq]; rfl)).2.2.1
        · rename_i heq
          exact absurd rfl (hrest 'E' (by rw [← hnext, heq]; rfl)).2.2.2
        · split at h
          · obtain ⟨rfl, hj⟩ := isNumber_of_scaled h
            exact ⟨hnext, hj⟩
          · split at h
            · cases h
              exact ⟨hnext, trivial⟩
            · split at h <;> cases h <;> exact ⟨hnext, trivial⟩

/-! ## Writing -/

theorem AllDigits.append {es : List Char} (hds : AllDigits ds) (hes : AllDigits es) :
    AllDigits (ds ++ es) := List.forall_mem_append.mpr ⟨hds, hes⟩

theorem allDigits_digitsOf (n : Nat) : AllDigits (Number.digitsOf n) := fun _ => isDigit_toDigits

theorem allDigits_zeros (n : Nat) : AllDigits (Number.zeros n) := by
  intro c hc
  rw [List.eq_of_mem_replicate hc]
  rfl

/-- Without its last zeros a run of digits is one. -/
theorem AllDigits.dropTrailingZeros (hds : AllDigits ds) :
    AllDigits (Number.dropTrailingZeros ds) := by
  intro c hc
  rw [Number.dropTrailingZeros, List.mem_reverse] at hc
  exact hds c (List.mem_reverse.mp ((List.dropWhile_suffix _).subset hc))

/-- The digits of the shortest decimal are digits. -/
theorem allDigits_shortest (m : Nat) (e : Int) : AllDigits (Number.shortest m e).digits := by
  have hgrids (r : Number.Rounding) (scale : Number.Scale) (point : Int) (fuel count : Nat) :
      AllDigits (Number.shortestFrom r scale point fuel count).digits := by
    induction fuel generalizing count with
    | zero => exact List.forall_mem_singleton.mpr rfl
    | succ fuel ih =>
      unfold Number.shortestFrom
      split
      · exact (allDigits_digitsOf _).dropTrailingZeros
      · exact ih _
  unfold Number.shortest
  split
  · exact (allDigits_digitsOf _).dropTrailingZeros
  · exact hgrids _ _ _ _ _

/-- Digits with a point between them are a number. -/
theorem isNumberBody_positionalChars {d : Number.Decimal} (hd : AllDigits d.digits) :
    IsNumberBody (Number.positionalChars true d) := by
  unfold Number.positionalChars
  split
  · exact ⟨['0'], _, [], congrArg (['0', '.'] ++ ·) (List.append_nil _).symm,
      List.forall_mem_singleton.mpr rfl, .point ((allDigits_zeros _).append hd), .none⟩
  · dsimp only
    split
    · exact ⟨_, ['.', '0'], [], rfl, hd.append (allDigits_zeros _),
        .point (List.forall_mem_singleton.mpr rfl), .none⟩
    · exact ⟨_, _, [], congrArg (d.digits.take _ ++ ·) (List.append_nil _).symm,
        fun c hc => hd c (List.mem_of_mem_take hc),
        .point fun c hc => hd c (List.mem_of_mem_drop hc), .none⟩

/-- Digits with an exponent are a number. -/
theorem isNumberBody_exponentChars {d : Number.Decimal} (hd : AllDigits d.digits) :
    IsNumberBody (Number.exponentChars d) := by
  have hsign : (if d.exponent < 0 then '-' else '+') = '+' ∨
      (if d.exponent < 0 then '-' else '+') = '-' := by
    split
    · exact .inr rfl
    · exact .inl rfl
  unfold Number.exponentChars
  split
  · rename_i first second more hdigits
    rw [hdigits] at hd
    obtain ⟨hfirst, hmore⟩ := List.forall_mem_cons.mp hd
    exact ⟨[first], _, _, rfl, List.forall_mem_singleton.mpr hfirst, .point hmore,
      .signed hsign (allDigits_digitsOf _)⟩
  · exact ⟨_, [], _, rfl, hd, .none, .signed hsign (allDigits_digitsOf _)⟩

/-- **The text of a number**, with its sign in front. -/
inductive IsNumberText : List Char → Prop
  | plain {t : List Char} (ht : IsNumberBody t) (hne : t ≠ []) : IsNumberText t
  | minus {t : List Char} (ht : IsNumberBody t) : IsNumberText ('-' :: t)

/-- A whole number is written as a number. -/
theorem isNumberText_toString (n : Int) : IsNumberText (toString n).toList := by
  have hbody (n : Nat) : IsNumberBody (Nat.toDigits 10 n) :=
    ⟨_, [], [], (List.append_nil _).symm, allDigits_digitsOf n, .none, .none⟩
  cases n with
  | ofNat n =>
    have htext : (toString (Int.ofNat n)).toList = Nat.toDigits 10 n := Nat.toList_repr
    rw [htext]
    exact .plain (hbody n) Nat.toDigits_ne_nil
  | negSucc n =>
    have htext : (toString (Int.negSucc n)).toList = '-' :: Nat.toDigits 10 (n + 1) :=
      String.toList_append.trans (congrArg ('-' :: ·) Nat.toList_repr)
    rw [htext]
    exact .minus (hbody (n + 1))

/-- Every number is written with at least one character. -/
theorem chars_ne_nil (d : Number.Decimal) : Number.Layout.json.chars d ≠ [] := by
  unfold Number.Layout.chars Number.positionalChars Number.exponentChars
  split
  · split
    · exact List.cons_ne_nil _ _
    · dsimp only
      split
      · exact List.append_ne_nil_of_right_ne_nil _ (List.cons_ne_nil _ _)
      · exact List.append_ne_nil_of_right_ne_nil _ (List.cons_ne_nil _ _)
  · exact List.append_ne_nil_of_right_ne_nil _ (List.cons_ne_nil _ _)

/-- The digits of a number make a number, with or without an exponent. -/
theorem isNumberBody_chars {d : Number.Decimal} (hd : AllDigits d.digits) :
    IsNumberBody (Number.Layout.json.chars d) := by
  unfold Number.Layout.chars
  split
  · exact isNumberBody_positionalChars hd
  · exact isNumberBody_exponentChars hd

/-- **Every finite number is written as a number.** -/
theorem isNumberText_write (negative : Bool) (m : Nat) (e : Int) :
    IsNumberText (Number.Layout.json.write negative m e).toList := by
  have hbody : IsNumberBody (if m = 0 then Number.Layout.json.chars ⟨['0'], 0⟩
      else Number.Layout.json.chars (Number.shortest m e)) := by
    split
    · exact isNumberBody_chars (List.forall_mem_singleton.mpr rfl)
    · exact isNumberBody_chars (allDigits_shortest m e)
  unfold Number.Layout.write
  rw [String.toList_ofList]
  cases negative with
  | true => exact .minus hbody
  | false =>
    refine .plain hbody ?_
    rw [if_neg Bool.false_ne_true]
    split <;> exact chars_ne_nil _

/-- A number is written as one, or as `null`. -/
theorem realText_eq (x : Float) :
    IsNumberText (realText x).toList ∨ Number.jsonText? x = none ∧ realText x = "null" := by
  unfold realText Number.jsonText?
  split
  · exact .inl (isNumberText_write ..)
  · exact .inr ⟨rfl, rfl⟩

/-- How a number begins behind its sign. -/
theorem IsNumberBody.opens (ht : IsNumberBody t) (hne : t ≠ []) :
    ∃ c cs, t = c :: cs ∧ (Number.isDigit c = true ∨ c = '.' ∨ c = 'e') := by
  obtain ⟨ds, fraction, exponent, rfl, hds, hfraction, hexponent⟩ := ht
  cases ds with
  | cons d ds => exact ⟨d, _, rfl, .inl (hds d List.mem_cons_self)⟩
  | nil =>
    cases hfraction with
    | point => exact ⟨'.', _, rfl, .inr (.inl rfl)⟩
    | none =>
      cases hexponent with
      | signed => exact ⟨'e', _, rfl, .inr (.inr rfl)⟩
      | none => exact absurd rfl hne

/-- The first character of a number is no white space and ends no list. -/
theorem IsNumberText.starts (ht : IsNumberText t) :
    ∃ c cs, t = c :: cs ∧ isSpace c = false ∧ c ≠ ']' := by
  cases ht with
  | minus => exact ⟨'-', _, rfl, rfl, by decide⟩
  | plain ht hne =>
    obtain ⟨c, cs, rfl, hc⟩ := ht.opens hne
    refine ⟨c, cs, rfl, ?_⟩
    rcases hc with hdigit | rfl | rfl
    · have hc := Number.isDigit_iff.mp hdigit
      constructor
      · rw [← Bool.not_eq_true]
        intro hspace
        have hall : c = ' ' ∨ c = '\n' ∨ c = '\t' ∨ c = '\r' := by
          simpa [isSpace, or_assoc] using hspace
        rcases hall with rfl | rfl | rfl | rfl <;> exact absurd hc (by decide)
      · rintro rfl
        exact absurd hc (by decide)
    all_goals exact ⟨rfl, by decide⟩

end

end ScriptTrace.Json
