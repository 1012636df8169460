import ScriptTrace.Evaluation.Run
import ScriptTrace.Proofs.Number.Numeral

/-!
# Proofs/Number/Beginning — the number at the beginning of a text

A numeric text is a decimal numeral or the word `Infinity`, behind one sign or none.  What is read
at the beginning of a text is the longest numeric text there, and NaN if there is none — but for the
word, which is found behind any run of signs:

    -3.5e+2x  ↦  -350      1e+  ↦  1      --1  ↦  NaN      --Infinity  ↦  -Infinity
-/

namespace ScriptTrace.Number

/-- The name of the infinite number. -/
def infinityWord : List Char := "Infinity".toList

/-- **The text of a number**, with a sign or without. -/
inductive IsNumeric : List Char → Float → Prop
  | word {sign : List Char} {negative : Bool} (hsign : IsSign sign negative) :
      IsNumeric (sign ++ infinityWord) (signed negative infinity)
  | decimal {sign cs : List Char} {negative : Bool} {v : Numeral} (hsign : IsSign sign negative)
      (h : IsDecimal cs v) : IsNumeric (sign ++ cs) (signed negative v.toFloat)

/-- **The value of the longest numeric text** at the beginning of a text; NaN if there is none. -/
inductive Begins (text : List Char) : Float → Prop
  | number {p : List Char} {x : Float} (hp : IsNumeric p x) (hfront : p <+: text)
      (hlongest : ∀ q y, IsNumeric q y → q <+: text → q.length ≤ p.length) : Begins text x
  | none (h : ∀ q y, IsNumeric q y → ¬ q <+: text) : Begins text nan

/-- A character that may be a sign. -/
def isSignChar (c : Char) : Bool := c = '+' || c = '-'

/-- More than one sign in front of the infinite number. -/
def OverSigned (text : List Char) : Prop :=
  ∃ signs rest, text = signs ++ (infinityWord ++ rest) ∧ 2 ≤ signs.length ∧
    ∀ c ∈ signs, isSignChar c = true

section

variable {text cs sign body rest t p : List Char} {x y : Float} {v v' : Numeral} {negative : Bool}
  {c : Char}

/-- What stands behind a sign. -/
def Unsigned (body : List Char) : Prop := ∃ c rest, body = c :: rest ∧ isSignChar c = false

/-- A decimal begins without a sign. -/
theorem IsDecimal.unsigned (h : IsDecimal cs v) (t : List Char) : Unsigned (cs ++ t) := by
  obtain ⟨c, rest, rfl, hc⟩ := h.head
  refine ⟨c, rest ++ t, rfl, ?_⟩
  rcases hc with hc | rfl
  · obtain ⟨-, hplus, hminus, -⟩ := isDigit_ne hc
    simp [isSignChar, hplus, hminus]
  · rfl

theorem unsigned_infinityWord (t : List Char) : Unsigned (infinityWord ++ t) := ⟨'I', _, rfl, rfl⟩

/-- A numeral is not the infinite number. -/
theorem IsDecimal.ne_infinityWord (h : IsDecimal cs v) (t t' : List Char) :
    cs ++ t ≠ infinityWord ++ t' := by
  obtain ⟨c, rest, rfl, hc⟩ := h.head
  intro heq
  obtain ⟨rfl, -⟩ := List.cons.inj heq
  exact absurd hc (by decide)

/-- A sign is taken off by both readers in the same way. -/
theorem splitSign_of_unsigned (hsign : IsSign sign negative) (hbody : Unsigned body) :
    splitSign (sign ++ body) = (negative, body) := by
  refine splitSign_sign hsign fun c rest h => ?_
  obtain ⟨d, rest', rfl, hd⟩ := hbody
  obtain ⟨rfl, -⟩ := List.cons.inj h
  simpa [isSignChar] using hd

/-- Signs are dropped up to what has none. -/
theorem dropSigns_of_unsigned (hsigns : ∀ c ∈ sign, isSignChar c = true) (hbody : Unsigned body) :
    (sign ++ body).dropWhile isSignChar = body := by
  obtain ⟨d, rest, rfl, hd⟩ := hbody
  rw [List.dropWhile_append_of_pos hsigns]
  exact List.dropWhile_cons_of_neg (by simp [hd])

theorem IsSign.all (hsign : IsSign sign negative) : ∀ c ∈ sign, isSignChar c = true := by
  cases hsign <;> simp [isSignChar]

/-! ## Numeric texts -/

/-- A numeric text is a sign and something that is none. -/
theorem IsNumeric.split (h : IsNumeric p x) (t : List Char) :
    ∃ (sign body : List Char) (negative : Bool), IsSign sign negative ∧ Unsigned (body ++ t) ∧
      p = sign ++ body ∧
      (body = infinityWord ∧ x = signed negative infinity ∨
        ∃ v, IsDecimal body v ∧ x = signed negative v.toFloat) := by
  cases h with
  | word hsign => exact ⟨_, _, _, hsign, unsigned_infinityWord t, rfl, .inl ⟨rfl, rfl⟩⟩
  | decimal hsign h => exact ⟨_, _, _, hsign, h.unsigned t, rfl, .inr ⟨_, h, rfl⟩⟩

/-- **A numeric text has one value.** -/
theorem IsNumeric.unique (hx : IsNumeric p x) (hy : IsNumeric p y) : x = y := by
  obtain ⟨sign, body, negative, hsign, hbody, rfl, hxvalue⟩ := hx.split []
  obtain ⟨sign', body', negative', hsign', hbody', heq, hyvalue⟩ := hy.split []
  rw [List.append_nil] at hbody hbody'
  have hsplit := splitSign_of_unsigned hsign hbody
  rw [heq, splitSign_of_unsigned hsign' hbody'] at hsplit
  obtain ⟨rfl, rfl⟩ := Prod.mk.inj hsplit
  obtain ⟨hword, rfl⟩ | ⟨v, hv, rfl⟩ := hxvalue <;>
    obtain ⟨hword', rfl⟩ | ⟨v', hv', rfl⟩ := hyvalue
  · rfl
  · exact absurd (congrArg (· ++ []) hword) (hv'.ne_infinityWord [] [])
  · exact absurd (congrArg (· ++ []) hword') (hv.ne_infinityWord [] [])
  · have hread := (read?_of_isDecimal hv).symm.trans (read?_of_isDecimal hv')
    rw [(Prod.mk.inj (Option.some.inj hread)).1]

/-- **A text begins with one number.** -/
theorem Begins.unique (hx : Begins text x) (hy : Begins text y) : x = y := by
  cases hx with
  | @number p _ hp hfront hlongest =>
    cases hy with
    | @number q _ hq hfront' hlongest' =>
      have hlength := Nat.le_antisymm (hlongest' p x hp hfront) (hlongest q y hq hfront')
      obtain rfl := (List.prefix_of_prefix_length_le hfront hfront' hlength.le).eq_of_length hlength
      exact hp.unique hq
    | none h => exact absurd hfront (h p x hp)
  | none h =>
    cases hy with
    | @number q _ hq hfront' _ => exact absurd hfront' (h q y hq)
    | none _ => rfl

/-! ## The reader -/

/-- **Behind any signs the word for infinity is read**, with the sign of the first. -/
theorem ofPrefix_of_word (s : String)
    (hword : infinityWord <+: (Text.dropBlanks s.toList).dropWhile isSignChar) :
    ofPrefix s = signed ((Text.dropBlanks s.toList).head? = some '-') infinity :=
  if_pos (List.isPrefixOf_iff_prefix.mpr hword)

/-- What does not begin with the word for infinity is read as digits behind one sign. -/
theorem ofPrefix_of_not_word (s : String)
    (hword : ¬ infinityWord <+: (Text.dropBlanks s.toList).dropWhile isSignChar) :
    ofPrefix s = (Numeral.read? (splitSign (Text.dropBlanks s.toList)).2).elim nan fun found =>
        signed (splitSign (Text.dropBlanks s.toList)).1 found.1.toFloat := by
  rw [ofPrefix]
  split
  case isTrue h => exact absurd (List.isPrefixOf_iff_prefix.mp h) hword
  case isFalse =>
    obtain ⟨negative, rest⟩ := splitSign (Text.dropBlanks s.toList)
    dsimp only
    cases Numeral.read? rest <;> rfl

/-- A numeric text at the front, as the reader sees it. -/
theorem IsNumeric.front (h : IsNumeric p x) (hfront : p <+: text) :
    ∃ (sign body rest : List Char) (negative : Bool), IsSign sign negative ∧ p = sign ++ body ∧
      text = sign ++ (body ++ rest) ∧ splitSign text = (negative, body ++ rest) ∧
      text.dropWhile isSignChar = body ++ rest ∧ (body = infinityWord ∨ ∃ v, IsDecimal body v) := by
  obtain ⟨rest, rfl⟩ := hfront
  obtain ⟨sign, body, negative, hsign, hbody, rfl, hvalue⟩ := h.split rest
  refine ⟨sign, body, rest, negative, hsign, rfl, List.append_assoc .., ?_, ?_, ?_⟩
  · rw [List.append_assoc, splitSign_of_unsigned hsign hbody]
  · rw [List.append_assoc, dropSigns_of_unsigned hsign.all hbody]
  · exact hvalue.imp And.left fun ⟨v, hv, _⟩ => ⟨v, hv⟩

/-- **Behind one sign at most**, the infinite number is the longest numeric text. -/
theorem begins_of_word (hsign : IsSign sign negative)
    (htext : text = sign ++ (infinityWord ++ rest)) :
    Begins text (signed negative infinity) := by
  subst htext
  refine .number (.word hsign) ⟨rest, List.append_assoc ..⟩ fun q y hq hfront => ?_
  have hdrop := dropSigns_of_unsigned hsign.all (unsigned_infinityWord rest)
  obtain ⟨sign', body, rest', _, -, rfl, htext, -, hdrop', hbody⟩ := hq.front hfront
  have hsame : infinityWord ++ rest = body ++ rest' := hdrop.symm.trans hdrop'
  rcases hbody with rfl | ⟨v, hv⟩
  · have := congrArg List.length htext
    rw [hsame] at this
    simp only [List.length_append] at this ⊢
    omega
  · exact absurd hsame.symm (hv.ne_infinityWord rest' rest)

/-- **Elsewhere the reader finds the longest numeral.** -/
theorem begins_of_not_word (hword : ¬ infinityWord <+: text.dropWhile isSignChar) :
    Begins text ((Numeral.read? (splitSign text).2).elim nan fun found =>
      signed (splitSign text).1 found.1.toFloat) := by
  have hnumeral {q : List Char} {y : Float} (hq : IsNumeric q y) (hfront : q <+: text) :
      ∃ (sign body rest : List Char) (v : Numeral), q = sign ++ body ∧ text = sign ++ (body ++ rest) ∧
        (splitSign text).2 = body ++ rest ∧ IsDecimal body v := by
    obtain ⟨sign, body, rest, _, -, rfl, htext, hsplit, hdrop, rfl | ⟨v, hv⟩⟩ := hq.front hfront
    · exact absurd ⟨rest, hdrop.symm⟩ hword
    · exact ⟨sign, body, rest, v, rfl, htext, congrArg Prod.snd hsplit, hv⟩
  cases hread : Numeral.read? (splitSign text).2 with
  | none =>
    refine .none fun q y hq hfront => ?_
    obtain ⟨_, body, rest, v, -, -, hsplit, hv⟩ := hnumeral hq hfront
    obtain ⟨v', rest', hsome, -⟩ := exists_read? hv rest
    rw [hsplit, hsome] at hread
    cases hread
  | some found =>
    obtain ⟨v, rest⟩ := found
    obtain ⟨sign, hsign, htext⟩ := exists_splitSign text
    obtain ⟨p, hp, hrest⟩ := isDecimal_read? hread
    refine .number (.decimal hsign hp) ⟨rest, by rw [List.append_assoc, ← hrest, ← htext]⟩
      fun q y hq hfront => ?_
    obtain ⟨sign', body, rest', v', rfl, htext', hsplit, hv⟩ := hnumeral hq hfront
    obtain ⟨v'', rest'', hsome, hlength, -⟩ := exists_read? hv rest'
    rw [hsplit, hsome] at hread
    obtain ⟨-, rfl⟩ := Prod.mk.inj (Option.some.inj hread)
    have hall := congrArg List.length (htext.symm.trans htext')
    have hpart := congrArg List.length hrest
    rw [hsplit] at hall hpart
    simp only [List.length_append] at hall hpart ⊢
    omega

/-- **The infinite number behind more than one sign** is no numeric text. -/
theorem OverSigned.begins (h : OverSigned text) : Begins text nan := by
  obtain ⟨signs, rest, rfl, hmany, hsigns⟩ := h
  refine .none fun q y hq hfront => ?_
  have hdrop := dropSigns_of_unsigned hsigns (unsigned_infinityWord rest)
  obtain ⟨sign, body, rest', _, hsign, -, htext, -, hdrop', -⟩ := hq.front hfront
  have hlength := congrArg List.length htext
  rw [hdrop.symm.trans hdrop'] at hlength
  simp only [List.length_append] at hlength
  have hone : sign.length ≤ 1 := by cases hsign <;> decide
  omega

/-- The infinite number stands behind one sign at most, or behind more. -/
theorem word_cases (hword : infinityWord <+: text.dropWhile isSignChar) :
    OverSigned text ∨ ∃ sign rest, IsSign sign (text.head? = some '-') ∧
      text = sign ++ (infinityWord ++ rest) := by
  obtain ⟨rest, hrest⟩ := hword
  have htext : text = text.takeWhile isSignChar ++ (infinityWord ++ rest) := by
    rw [hrest, List.takeWhile_append_dropWhile]
  have hsigns : ∀ c ∈ text.takeWhile isSignChar, isSignChar c = true := fun _ hc =>
    List.mem_takeWhile_imp hc
  generalize text.takeWhile isSignChar = signs at htext hsigns
  subst htext
  match signs, hsigns with
  | [], _ => exact .inr ⟨[], rest, .none, rfl⟩
  | [c], hsigns =>
    have hc := hsigns c List.mem_cons_self
    rw [isSignChar, Bool.or_eq_true, decide_eq_true_eq, decide_eq_true_eq] at hc
    rcases hc with rfl | rfl
    · exact .inr ⟨['+'], rest, .plus, rfl⟩
    · exact .inr ⟨['-'], rest, .minus, rfl⟩
  | c :: d :: signs, hsigns =>
    exact .inl ⟨c :: d :: signs, rest, rfl, Nat.le_add_left 2 signs.length, hsigns⟩

/-- Behind too many signs stands the word for infinity. -/
theorem OverSigned.word (h : OverSigned text) : infinityWord <+: text.dropWhile isSignChar := by
  obtain ⟨signs, rest, rfl, -, hsigns⟩ := h
  rw [dropSigns_of_unsigned hsigns (unsigned_infinityWord rest)]
  exact List.prefix_append ..

/-- **What is read is what the text begins with**, unless the infinite number has too many signs. -/
theorem begins_ofPrefix {s : String} (h : ¬ OverSigned (Text.dropBlanks s.toList)) :
    Begins (Text.dropBlanks s.toList) (ofPrefix s) := by
  by_cases hword : infinityWord <+: (Text.dropBlanks s.toList).dropWhile isSignChar
  · obtain ⟨sign, rest, hsign, htext⟩ := (word_cases hword).resolve_left h
    rw [ofPrefix_of_word s hword]
    exact begins_of_word hsign htext
  · rw [ofPrefix_of_not_word s hword]
    exact begins_of_not_word hword

end

end ScriptTrace.Number

namespace ScriptTrace

open Number

/-- **The number at the beginning of a text** is read, and an infinite number with too
many signs. -/
theorem parseFloat_begins (s : String) (m : Machine) :
    ∃ x, Exec.parseFloat [.string s] m = .ok (.number x) m ∧
      (¬ OverSigned (Text.dropBlanks s.toList) →
        ∀ y, Begins (Text.dropBlanks s.toList) y ↔ y = x) ∧
      (OverSigned (Text.dropBlanks s.toList) → Begins (Text.dropBlanks s.toList) nan ∧
        x = signed ((Text.dropBlanks s.toList).head? = some '-') infinity) := by
  refine ⟨ofPrefix s, rfl, fun h y => ⟨fun hy => hy.unique (begins_ofPrefix h), ?_⟩, fun h => ?_⟩
  · rintro rfl
    exact begins_ofPrefix h
  · exact ⟨h.begins, ofPrefix_of_word s h.word⟩

/-- Some numeral, some text behind it. -/
theorem parseFloat_begins_incomplete :
    ¬ OverSigned (Text.dropBlanks " -.5e+ü".toList) ∧
    Begins (Text.dropBlanks " -.5e+ü".toList) (-0.5) := by
  have hsigned : ¬ OverSigned (Text.dropBlanks " -.5e+ü".toList) := fun h =>
    absurd h.word (by decide)
  obtain ⟨x, hx, hiff, -⟩ := parseFloat_begins " -.5e+ü" (.initial .default)
  have hvalue : ofPrefix " -.5e+ü" = x := by
    cases hx
    rfl
  refine ⟨hsigned, (hiff hsigned _).mpr ?_⟩
  rw [← hvalue]
  decide +kernel

/-- The infinite number behind two signs. -/
def signsText : String := "--Infinity"

/-- **Not every text is read as what it begins with.** -/
theorem signsText_not_begins :
    (¬ ∀ (s : String) (m : Machine) (x : Float), Exec.parseFloat [.string s] m = .ok (.number x) m →
      Begins (Text.dropBlanks s.toList) x) ∧
    ofPrefix signsText = -infinity ∧ Begins (Text.dropBlanks signsText.toList) nan := by
  have hbegins : Begins (Text.dropBlanks signsText.toList) nan :=
    OverSigned.begins ⟨['-', '-'], [], rfl, by decide, List.all_eq_true.mp rfl⟩
  have hvalue : ofPrefix signsText = -infinity := by decide +kernel
  refine ⟨fun hall => ?_, hvalue, hbegins⟩
  have hnan : ofPrefix signsText = nan :=
    (hall signsText (.initial .default) _ rfl).unique hbegins
  exact absurd (hvalue.symm.trans hnan) (by decide +kernel)

end ScriptTrace
