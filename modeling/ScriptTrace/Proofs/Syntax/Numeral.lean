import ScriptTrace.Proofs.Number.Numeral
import ScriptTrace.Proofs.Syntax.Literal

/-!
# Proofs/Syntax/Numeral — numbers in a program

A number is written in a base, behind `0x` or `0b`, or as a decimal numeral (`IsLiteral`); the rule
for numbers takes no other text (`isLiteral_of_numberText`).  A program that is a number and nothing
else is read as one statement with the value of that number, or is refused for it
(`readExpression_of_isNumberText`).
-/

namespace ScriptTrace.Syntax

open Grammar
open Grammar.Form
open Phrase
open Number (IsDecimal IsDigits IsExponent IsSign IsSignificand isDigit digitIn? splitBase?)

/-- **A number as a program writes it**, in a base or as a decimal numeral. -/
inductive IsLiteral : List Char → Prop
  | based {cs ds : List Char} {base : Nat} (hmark : splitBase? cs = some (base, ds)) (hne : ds ≠ [])
      (hds : ∀ d ∈ ds, (digitIn? base d).isSome = true) : IsLiteral cs
  | decimal {cs : List Char} {v : Number.Numeral} (h : IsDecimal cs v) : IsLiteral cs

/-- **A text that is a number**: the rule for numbers takes all of it. -/
def IsNumberText (t : List Char) : Prop :=
  ∃ v n, Phrase.number.result (follow 0) .free (.ofText t) = .matched v n ∧ n.rest = []

section

variable {call : {α : Type} → Rule α → Spacing → Cursor → Attempt α} {α β : Type} {a b : String}
  {p : Char → Bool} {c m n : Cursor} {v w ds t : List Char} {fuel : Nat}

/-! ## Forms without blanks between their parts -/

/-- The text of a form is what it has matched. -/
theorem exists_of_text {f : Phrase α} (h : (text f).result call .quiet c = .matched v n) :
    ∃ x, f.result call .quiet c = .matched x n ∧ v = c.textTo n := by
  rw [result_text, Outcome.andThen_eq_matched] at h
  obtain ⟨x, m, hf, hn⟩ := h
  cases hn
  exact ⟨x, hf, rfl⟩

/-- Of two forms one behind the other both have matched. -/
theorem exists_of_seqLeft {f : Phrase α} {g : Phrase β} {x : α}
    (h : (f <* g).result call .quiet c = .matched x n) :
    ∃ m y, f.result call .quiet c = .matched x m ∧ g.result call .quiet m = .matched y n := by
  rw [result_seqLeft, Outcome.andThen_eq_matched] at h
  obtain ⟨_, m, hf, hmap⟩ := h
  obtain ⟨y, hg, rfl⟩ := Outcome.map_eq_matched.mp hmap
  exact ⟨m, y, hf, hg⟩

/-- Of two forms one behind the other both have matched. -/
theorem exists_of_seqRight {f : Phrase α} {g : Phrase β} {y : β}
    (h : (f *> g).result call .quiet c = .matched y n) :
    ∃ m x, f.result call .quiet c = .matched x m ∧ g.result call .quiet m = .matched y n := by
  rw [result_seqRight, Outcome.andThen_eq_matched] at h
  obtain ⟨x, m, hf, hg⟩ := h
  exact ⟨m, x, hf, hg⟩

/-- A form that may be missing has matched, or nothing has been read. -/
theorem exists_of_perhaps {f : Phrase α} {x : Option α}
    (h : (Form.perhaps f).result call .quiet c = .matched x n) :
    (∃ y, f.result call .quiet c = .matched y n) ∨ n = c := by
  rw [result_perhaps, Outcome.orElse_eq_matched] at h
  rcases h with h | ⟨-, h⟩
  · obtain ⟨y, hf, -⟩ := Outcome.map_eq_matched.mp h
    exact .inl ⟨y, hf⟩
  · cases h
    exact .inr rfl

/-- One of two texts. -/
theorem over_of_tokens {u : Unit}
    (h : (token a <|> token b : Phrase Unit).result call .quiet c = .matched u n) :
    ∃ w, (w = a ∨ w = b) ∧ c.Over w.toList n := by
  rw [result_orElse, Outcome.orElse_eq_matched] at h
  rcases h with h | ⟨-, h⟩
  · exact ⟨a, .inl rfl, over_of_token h⟩
  · exact ⟨b, .inr rfl, over_of_token h⟩

/-- Characters of one sort have been read. -/
theorem over_of_many_one (hcall : Advancing call)
    (h : (Form.many (.one p) : Phrase (List Char)).result call .quiet c = .matched ds n) :
    (∀ d ∈ ds, p d = true) ∧ c.Over ds n := by
  obtain ⟨hds, hover⟩ := over_of_runs_one (runs_of_many (s := .quiet) hcall rfl rfl h).1
  exact ⟨List.all_eq_true.mp hds, hover⟩

/-- Characters of one sort have been read, at least one of them. -/
theorem over_of_atLeastOne (hcall : Advancing call)
    (h : (atLeastOne (.one p) : Phrase (List Char)).result call .quiet c = .matched ds n) :
    ds ≠ [] ∧ (∀ d ∈ ds, p d = true) ∧ c.Over ds n := by
  rw [atLeastOne, result_combine, Outcome.andThen_eq_matched] at h
  obtain ⟨x, m, hx, h⟩ := h
  obtain ⟨ds, hmany, rfl⟩ := Outcome.map_eq_matched.mp h
  obtain ⟨hx, hover⟩ := over_of_one hx
  obtain ⟨hds, hover'⟩ := over_of_many_one hcall hmany
  exact ⟨List.cons_ne_nil _ _, List.forall_mem_cons.mpr ⟨hx, hds⟩,
    Cursor.Over.append_iff.mpr ⟨m, hover, hover'⟩⟩

/-! ## The texts of numbers -/

/-- A number in a base, behind one of its two marks. -/
theorem isLiteral_of_marked {x y : Char} {base : Nat}
    (hx : ∀ ds, splitBase? ('0' :: x :: ds) = some (base, ds))
    (hy : ∀ ds, splitBase? ('0' :: y :: ds) = some (base, ds)) (ha : a.toList = ['0', x])
    (hb : b.toList = ['0', y]) (hp : ∀ d, p d = true → (digitIn? base d).isSome = true)
    (hcall : Advancing call)
    (h : (text ((token a <|> token b) *> atLeastOne (.one p)) : Phrase _).result call .quiet c =
      .matched v n) : IsLiteral v ∧ c.Over v n := by
  obtain ⟨_, hparts, rfl⟩ := exists_of_text h
  obtain ⟨m, _, hmark, hdigits⟩ := exists_of_seqRight hparts
  obtain ⟨w, hw, hover⟩ := over_of_tokens hmark
  obtain ⟨hne, hds, hover'⟩ := over_of_atLeastOne hcall hdigits
  have hall := Cursor.Over.append_iff.mpr ⟨m, hover, hover'⟩
  rw [hall.textTo]
  refine ⟨.based ?_ hne fun d hd => hp d (hds d hd), hall⟩
  rcases hw with rfl | rfl
  · rw [ha]
    exact hx _
  · rw [hb]
    exact hy _

/-- The digits of a decimal numeral, with a point or without. -/
def significandText : Phrase (List Char) :=
  text (decimalDigits <* .perhaps (token "." <* .many (.one isDigit))) <|>
    text (token "." *> decimalDigits)

/-- The exponent of a decimal numeral. -/
def exponentText : Phrase (List Char) :=
  (token "e" <|> token "E") *> .perhaps (token "+" <|> token "-") *> decimalDigits

/-- What is read as decimal digits consists of them. -/
theorem isDigits_of_decimalDigits (hcall : Advancing call)
    (h : decimalDigits.result call .quiet c = .matched ds n) : IsDigits ds ∧ c.Over ds n := by
  obtain ⟨hne, hds, hover⟩ := over_of_atLeastOne hcall h
  exact ⟨⟨hne, hds⟩, hover⟩

/-- What is read as a significand is one. -/
theorem isSignificand_of_text (hcall : Advancing call)
    (h : significandText.result call .quiet c = .matched v n) :
    ∃ i k, IsSignificand v i k ∧ c.Over v n := by
  have hpoint {m k : Cursor} {u : Unit} {ds : List Char}
      (htoken : (token "." : Phrase Unit).result call .quiet m = .matched u k) (h : k.Over ds n) :
      m.Over ('.' :: ds) n :=
    (Cursor.Over.append_iff (w := ['.'])).mpr ⟨k, over_of_token htoken, h⟩
  rw [significandText, result_orElse, Outcome.orElse_eq_matched] at h
  rcases h with h | ⟨-, h⟩
  · obtain ⟨ds, hparts, rfl⟩ := exists_of_text h
    obtain ⟨m, _, hdigits, hparts⟩ := exists_of_seqLeft hparts
    obtain ⟨hds, hover⟩ := isDigits_of_decimalDigits hcall hdigits
    obtain ⟨_, hparts⟩ | rfl := exists_of_perhaps hparts
    · obtain ⟨k, places, htoken, hmany⟩ := exists_of_seqLeft hparts
      obtain ⟨hplaces, hover'⟩ := over_of_many_one hcall hmany
      have hall := Cursor.Over.append_iff.mpr ⟨m, hover, hpoint htoken hover'⟩
      rw [hall.textTo]
      exact ⟨_, _, .point hds hplaces, hall⟩
    · rw [hover.textTo]
      exact ⟨_, _, .whole hds, hover⟩
  · obtain ⟨ds, hparts, rfl⟩ := exists_of_text h
    obtain ⟨m, _, htoken, hdigits⟩ := exists_of_seqRight hparts
    obtain ⟨hds, hover⟩ := isDigits_of_decimalDigits hcall hdigits
    have hall := hpoint htoken hover
    rw [hall.textTo]
    exact ⟨_, _, .fraction hds, hall⟩

/-- What is read as an exponent is one. -/
theorem isExponent_of_text (hcall : Advancing call)
    (h : exponentText.result call .quiet c = .matched ds n) :
    ∃ es i, IsExponent es i ∧ c.Over es n := by
  obtain ⟨m, _, hparts, hdigits⟩ := exists_of_seqRight h
  obtain ⟨k, _, hmark, hsign⟩ := exists_of_seqRight hparts
  obtain ⟨hds, hover''⟩ := isDigits_of_decimalDigits hcall hdigits
  obtain ⟨sign, negative, hsign, hover'⟩ :
      ∃ sign negative, IsSign sign negative ∧ k.Over sign m := by
    obtain ⟨_, hsign⟩ | rfl := exists_of_perhaps hsign
    · obtain ⟨w, rfl | rfl, hover'⟩ := over_of_tokens hsign
      · exact ⟨_, _, .plus, hover'⟩
      · exact ⟨_, _, .minus, hover'⟩
    · exact ⟨_, _, .none, ⟨rfl, rfl⟩⟩
  obtain ⟨e, he, hover⟩ : ∃ e, (e = 'e' ∨ e = 'E') ∧ c.Over [e] k := by
    obtain ⟨w, rfl | rfl, hover⟩ := over_of_tokens hmark
    · exact ⟨'e', .inl rfl, hover⟩
    · exact ⟨'E', .inr rfl, hover⟩
  exact ⟨_, _, .mk he hsign hds, (Cursor.Over.append_iff (w := [e])).mpr
    ⟨k, hover, Cursor.Over.append_iff.mpr ⟨m, hover', hover''⟩⟩⟩

/-- **What is read as a decimal is one.** -/
theorem isDecimal_of_text (hcall : Advancing call)
    (h : (text (significandText <* .perhaps exponentText) : Phrase _).result call .quiet c =
      .matched v n) : ∃ x, IsDecimal v x ∧ c.Over v n := by
  obtain ⟨cs, hparts, rfl⟩ := exists_of_text h
  obtain ⟨m, _, hdigits, hparts⟩ := exists_of_seqLeft hparts
  obtain ⟨i, k, hcs, hover⟩ := isSignificand_of_text hcall hdigits
  obtain ⟨_, hexponent⟩ | rfl := exists_of_perhaps hparts
  · obtain ⟨es, e, hes, hover'⟩ := isExponent_of_text hcall hexponent
    have hall := Cursor.Over.append_iff.mpr ⟨m, hover, hover'⟩
    rw [hall.textTo]
    exact ⟨_, .scaled hcs hes, hall⟩
  · rw [hover.textTo]
    exact ⟨_, .plain hcs, hover⟩

/-- **The rule for numbers takes numbers only.** -/
theorem isLiteral_of_numberText (hcall : Advancing call)
    (h : numberText.result call .quiet c = .matched v n) : IsLiteral v ∧ c.Over v n := by
  rw [numberText, result_orElse, result_orElse, Outcome.orElse_eq_matched,
    Outcome.orElse_eq_matched] at h
  rcases h with h | ⟨-, h | ⟨-, h⟩⟩
  · exact isLiteral_of_marked (fun _ => rfl) (fun _ => rfl) rfl rfl (fun _ hd => hd) hcall h
  · have hmark (ds : List Char) : splitBase? ('0' :: 'b' :: ds) = some (2, ds) := rfl
    refine isLiteral_of_marked hmark (fun _ => rfl) rfl rfl (fun d hd => ?_) hcall h
    obtain rfl | rfl : d = '0' ∨ d = '1' := by simpa using hd
    · rfl
    · rfl
  · obtain ⟨x, hx, hover⟩ := isDecimal_of_text hcall h
    exact ⟨.decimal hx, hover⟩

/-! ## The front of a number -/

/-- The characters that a number starts with. -/
def numberStarts : List Char := "0123456789.".toList

/-- A number begins with a digit or a point. -/
theorem mem_numberStarts {x : Char} (h : isDigit x = true ∨ x = '.') : x ∈ numberStarts := by
  rcases h with h | rfl
  · obtain ⟨hlow, hhigh⟩ := Bool.and_eq_true_iff.mp h
    replace hlow : 48 ≤ x.toNat := of_decide_eq_true hlow
    replace hhigh : x.toNat ≤ 57 := of_decide_eq_true hhigh
    rw [← Char.ofNat_toNat x]
    generalize x.toNat = k at hlow hhigh
    interval_cases k <;> decide
  · decide

theorem numberStarts_subset : numberStarts ⊆ literalStarts := by decide

/-- A literal begins with a digit or a point. -/
theorem IsLiteral.head (h : IsLiteral t) : ∃ x rest, t = x :: rest ∧ x ∈ numberStarts := by
  cases h with
  | based hmark _ _ =>
    obtain ⟨x, rfl, -⟩ := Number.exists_of_splitBase? hmark
    exact ⟨'0', _, rfl, by decide⟩
  | decimal h =>
    obtain ⟨x, rest, rfl, hx⟩ := h.head
    exact ⟨x, rest, rfl, mem_numberStarts hx⟩

/-- **A number is an operand.** -/
theorem LiteralAt.result_number {number : Position × List Char} (h : LiteralAt fuel c)
    (hnumber : Phrase.number.result (follow fuel) .free c = .matched number n) :
    (newExpression <|> primary : Phrase (Built Expr)).result (follow fuel) .free c =
      .matched ((numberValue number.2 number.1).map fun x => .mk (.number x) number.1) n := by
  obtain ⟨p, text⟩ := number
  rw [h.result_orElse (by decide), primary, h.result_orElse (by decide), Form.result_orElse,
    result_fmap, hnumber, Outcome.map_matched, Outcome.orElse_matched]
  dsimp only
  cases numberValue text p <;> rfl

/-- A text that is a number is read as that text by the rule for numbers, within any rule. -/
theorem IsNumberText.result_number (h : IsNumberText t) (fuel : Nat) :
    IsLiteral t ∧ ∃ n, n.rest = [] ∧
      Phrase.number.result (follow fuel) .free (.ofText t) = .matched (.start, t) n := by
  obtain ⟨v, n, hread, hn⟩ := h
  replace hread : Phrase.number.result (follow fuel) .free (.ofText t) = .matched v n := hread
  rw [Phrase.number, result_placed, Outcome.map_eq_matched] at hread
  obtain ⟨text, htext, -⟩ := hread
  rw [atom, result_named, result_spaced] at htext
  obtain ⟨hliteral, hover⟩ := isLiteral_of_numberText (advancing_follow fuel) htext
  have hall : t = text ++ n.rest := hover.rest_eq
  rw [hn, List.append_nil] at hall
  subst hall
  refine ⟨hliteral, n, hn, ?_⟩
  rw [Phrase.number, result_placed, atom, result_named, result_spaced, htext]
  rfl

/-- **A program that is a number** has the value of that number, or is refused for it. -/
theorem readExpression_of_isNumberText {t : String} (h : IsNumberText t.toList) :
    readExpression t = (numberValue t.toList .start).map fun x => .mk (.number x) .start := by
  obtain ⟨hliteral, n, hn, hnumber⟩ := h.result_number (rulesPerPlace * t.toList.length + 7)
  have hstarts : ∃ x rest, t.toList = x :: rest ∧ x ∈ literalStarts := by
    obtain ⟨x, rest, heq, hx⟩ := hliteral.head
    exact ⟨x, rest, heq, numberStarts_subset hx⟩
  have hat : LiteralAt (rulesPerPlace * t.toList.length + 7) (.ofText t.toList) :=
    ⟨hstarts, Nat.add_le_add_left (by decide) _⟩
  exact readExpression_of_literal hstarts hn (hat.result_number hnumber)

end

end ScriptTrace.Syntax
