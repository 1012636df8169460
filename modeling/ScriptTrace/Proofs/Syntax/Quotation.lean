import ScriptTrace.Machine.Inspect
import ScriptTrace.Proofs.Syntax.Key
import ScriptTrace.Proofs.Syntax.Literal
import ScriptTrace.Text.Escape

/-!
# Proofs/Syntax/Quotation — quoted texts in a program

    a"b  ──quote──▸  "a\"b"  ──string──▸  a\"b  ──unescape──▸  a"b

The rule for strings takes a quoted text to its last quote and no further, whatever stands behind it
(`result_string_quote`): no quoted character is a quote, and a backslash takes the one behind it.
So two quoted texts never begin alike, and a value shown by a console tells which text it is.

A character is quoted as itself or as a backslash with one letter that stands for it
(`quoteChar_cases`), and none of the three letters opens a longer escape.  So resolving
escapes takes the quoted characters apart one by one (`unescape_flatMap_quoteChar`), whatever
stands behind them.
-/

namespace ScriptTrace.Text

variable {cs : List Char} {fuel : Nat}

/-- The letters behind a backslash in a quoted text. -/
def quotedLetters : List Char := ['\\', '"', 'n']

/-- **A character is quoted** as itself, or by a letter that stands for it. -/
theorem quoteChar_cases (c : Char) :
    (quoteChar c = [c] ∧ c ≠ '"' ∧ c ≠ '\\' ∧ c ≠ '\n') ∨
      ∃ d ∈ quotedLetters, quoteChar c = ['\\', d] ∧ escapedChar d = c := by
  by_cases hslash : c = '\\'
  · subst hslash
    exact .inr ⟨'\\', by decide, rfl, rfl⟩
  by_cases hquote : c = '"'
  · subst hquote
    exact .inr ⟨'"', by decide, rfl, rfl⟩
  by_cases hline : c = '\n'
  · subst hline
    exact .inr ⟨'n', by decide, rfl, rfl⟩
  · refine .inl ⟨?_, hquote, hslash, hline⟩
    unfold quoteChar
    split <;> first | contradiction | rfl

/-- **A quoted character is resolved in one step.** -/
theorem unescapeWithin_quoteChar (c : Char) (cs : List Char) :
    unescapeWithin (fuel + 1) (quoteChar c ++ cs) = c :: unescapeWithin fuel cs := by
  rcases quoteChar_cases c with ⟨hquoted, -, hc, -⟩ | ⟨d, hd, hquoted, rfl⟩
  · rw [hquoted, List.singleton_append, unescapeWithin] <;> intros <;> contradiction
  · rw [hquoted]
    simp only [quotedLetters, List.mem_cons, List.not_mem_nil, or_false] at hd
    rcases hd with rfl | rfl | rfl <;> rfl

theorem quoteChar_length_pos (c : Char) : 0 < (quoteChar c).length := by
  rcases quoteChar_cases c with ⟨hquoted, -⟩ | ⟨d, -, hquoted, -⟩ <;> rw [hquoted] <;>
    exact Nat.succ_pos _

/-- By induction on the characters: each takes one step, and is written with one character at
least. -/
theorem unescapeWithin_flatMap_quoteChar (hfuel : (cs.flatMap quoteChar).length ≤ fuel) :
    unescapeWithin fuel (cs.flatMap quoteChar) = cs := by
  induction cs generalizing fuel with
  | nil => cases fuel <;> rfl
  | cons c cs ih =>
    have hpos := quoteChar_length_pos c
    rw [List.flatMap_cons, List.length_append] at hfuel
    obtain ⟨fuel, rfl⟩ : ∃ k, fuel = k + 1 := ⟨fuel - 1, by omega⟩
    rw [List.flatMap_cons, unescapeWithin_quoteChar, ih (by omega)]

/-- **Resolving escapes undoes quoting**, for every text. -/
theorem unescape_flatMap_quoteChar (cs : List Char) : unescape (cs.flatMap quoteChar) = cs :=
  unescapeWithin_flatMap_quoteChar (Nat.le_refl _)

/-- What stands between the quotes. -/
theorem tail_dropLast_quote (cs : List Char) : (quote cs).tail.dropLast = cs.flatMap quoteChar := by
  rw [quote, List.tail_cons, List.dropLast_concat]

/-! ## Quoting as replacement -/

/-- Writes a text in place of a character. -/
def replaceChar (x : Char) (w : List Char) (cs : List Char) : List Char :=
  cs.flatMap fun c => if c = x then w else [c]

/-- **Three replacements, one behind the other, quote a text**: the backslashes go first, so those
of the other two stay. -/
theorem flatMap_quoteChar_eq_replaceChar (cs : List Char) :
    cs.flatMap quoteChar = replaceChar '\n' ['\\', 'n']
      (replaceChar '"' ['\\', '"'] (replaceChar '\\' ['\\', '\\'] cs)) := by
  unfold replaceChar
  rw [List.flatMap_assoc, List.flatMap_assoc]
  refine congrArg (cs.flatMap ·) (funext fun c => ?_)
  by_cases hslash : c = '\\'
  · subst hslash
    rfl
  by_cases hquote : c = '"'
  · subst hquote
    rfl
  by_cases hline : c = '\n'
  · subst hline
    rfl
  · rcases quoteChar_cases c with ⟨hquoted, -⟩ | ⟨d, hd, -, hletter⟩
    · simp [hquoted, hslash, hquote, hline]
    · simp only [quotedLetters, List.mem_cons, List.not_mem_nil, or_false] at hd
      rcases hd with rfl | rfl | rfl <;> subst hletter <;> contradiction

end ScriptTrace.Text

namespace ScriptTrace.Syntax

open Grammar
open Grammar.Form
open Phrase
open Text (quote quoteChar)

section

variable {call : {α : Type} → Rule α → Spacing → Cursor → Attempt α} {c n : Cursor} {x y : Char}
  {cs ds A B Y : List Char} {fuel : Nat}

/-! ## Pieces of a quoted text -/

/-- A piece that is no escape. -/
theorem result_plainPiece (h : c.rest = y :: Y) {p : Char → Bool} (hp : p y = false) :
    ∃ v, (text (.unless (.one p) *> anyChar) : Phrase _).result call .quiet c =
      .matched v c.step := by
  rw [result_text, result_seqRight, result_unless, result_one, h]
  dsimp only
  rw [hp]
  simp only [Bool.false_eq_true, if_false, Outcome.andThen_matched, Spacing.skip, anyChar,
    result_one, h, if_true]
  exact ⟨_, rfl⟩

/-- **A quoted character is one piece** of the inside of a string. -/
theorem exists_stringPiece (h : c.Over (quoteChar x) n) :
    ∃ v, (stringPiece '"').result call .quiet c = .matched v n := by
  rcases Text.quoteChar_cases x with ⟨hquoted, hquote, hslash, hline⟩ | ⟨d, hd, hquoted, -⟩
  · rw [hquoted, Cursor.Over.cons_iff] at h
    obtain ⟨hrest, -, rfl⟩ := h
    have htoken : (token "\\" : Phrase Unit).result call .quiet c = .failed :=
      token_other hrest rfl hslash.symm
    rw [stringPiece, result_orElse, escape, result_text, result_seqRight, htoken,
      Outcome.andThen_failed, Outcome.andThen_failed, Outcome.orElse_failed]
    exact result_plainPiece hrest (by simp [hquote, hslash, hline])
  · rw [hquoted] at h
    obtain ⟨Y, hrest⟩ : ∃ Y, c.rest = '\\' :: d :: Y := ⟨_, h.rest_eq⟩
    obtain rfl := h.eq_advance
    obtain ⟨rest, o, p⟩ := c
    obtain rfl : rest = _ := hrest
    simp only [Text.quotedLetters, List.mem_cons, List.not_mem_nil, or_false] at hd
    rcases hd with rfl | rfl | rfl <;> exact ⟨_, rfl⟩

/-- No piece starts with the closing quote. -/
theorem stringPiece_failed (h : c.rest = '"' :: Y) :
    (stringPiece '"').result call .quiet c = .failed := by
  obtain ⟨rest, o, p⟩ := c
  obtain rfl : rest = _ := h
  rfl

/-- **Quoted characters are read piece by piece.** -/
theorem exists_runs_stringPiece (h : c.Over (cs.flatMap quoteChar) n) :
    ∃ vs, Runs ((stringPiece '"').again call .quiet) c vs n := by
  induction cs generalizing c with
  | nil =>
    obtain ⟨-, rfl⟩ := h
    exact ⟨[], .nil _⟩
  | cons x cs ih =>
    rw [List.flatMap_cons, Cursor.Over.append_iff] at h
    obtain ⟨m, hx, hcs⟩ := h
    obtain ⟨v, hv⟩ := @exists_stringPiece call _ _ _ hx
    obtain ⟨vs, hvs⟩ := ih hcs
    exact ⟨v :: vs, .cons hv hvs⟩

/-! ## Quoted texts -/

/-- **A quoted text is a string**: the rule for strings takes it to its last quote and no
further. -/
theorem result_string_quote (h : c.Over (quote cs) n) :
    (Form.rule .string : Phrase _).result (follow (fuel + 1)) .free c =
      .matched (cs.flatMap quoteChar) n := by
  have hcall : Advancing (follow fuel) := advancing_follow fuel
  obtain ⟨k, hopen, hmore⟩ := Cursor.Over.append_iff.mp (show c.Over (['"'] ++ _) n from h)
  obtain ⟨m, hinside, hclose⟩ := Cursor.Over.append_iff.mp hmore
  obtain ⟨vs, hruns⟩ := @exists_runs_stringPiece (follow fuel) _ _ _ hinside
  have hmany : (Form.many (stringPiece '"')).result (follow fuel) .quiet k = .matched vs m :=
    many_of_runs hcall (consumes_stringPiece '"') hruns (stringPiece_failed hclose.rest_eq) rfl
  have hread : (stringInside '"').result (follow fuel) .tight k =
      .matched (cs.flatMap quoteChar) m := by
    rw [stringInside, atom, result_named, result_spaced]
    change (text (.many (stringPiece '"')) : Phrase _).result (follow fuel) .quiet k = _
    rw [result_text, hmany, Outcome.andThen_matched, hinside.textTo]
  rw [result_string]
  simp only [result_seqLeft, result_seqRight, result_token "\"" hopen, hread,
    Outcome.andThen_matched, Spacing.skip, result_token "\"" hclose, Outcome.map_matched,
    Outcome.orElse_matched]

/-- **Quoted texts that begin alike are the same**, and so is what stands behind them. -/
theorem quote_append_inj (h : quote cs ++ A = quote ds ++ B) : cs = ds ∧ A = B := by
  have hleft := Cursor.Over.of_append (c := .ofText (quote cs ++ A)) rfl
  have hright := Cursor.Over.of_append (c := .ofText (quote cs ++ A)) h
  have hread := (@result_string_quote _ _ _ 0 hleft).symm.trans (result_string_quote hright)
  injection hread with hinside hend
  obtain rfl : cs = ds := by
    rw [← Text.unescape_flatMap_quoteChar cs, hinside, Text.unescape_flatMap_quoteChar]
  exact ⟨rfl, List.append_cancel_left h⟩

/-- A text that is shown in quotes starts a literal. -/
theorem head_quote (cs : List Char) : ∃ x rest, quote cs = x :: rest ∧ x ∈ literalStarts :=
  ⟨_, _, rfl, by decide⟩

/-- **A quoted text is an operand.** -/
theorem LiteralAt.result_quote (h : LiteralAt (fuel + 1) c) (hover : c.Over (quote cs) n) :
    (newExpression <|> primary : Phrase (Built Expr)).result (follow (fuel + 1)) .free c =
      .matched (.ok (.mk (.string (String.ofList cs)) c.position)) n := by
  have hnumber : number.result (follow (fuel + 1)) .free c = .failed :=
    (word_failed hover.rest_eq (by decide)).1
  rw [h.result_orElse (by decide), primary, h.result_orElse (by decide), Form.result_orElse,
    result_fmap, hnumber, Outcome.map_failed, Outcome.orElse_failed, Form.result_orElse, atPlace,
    result_fmap, result_placed, result_fmap, result_string_quote hover, Outcome.map_matched,
    Outcome.map_matched, Outcome.map_matched, Outcome.orElse_matched, stringValue,
    Text.unescape_flatMap_quoteChar]
  rfl

/-- **A program that is a quoted text** is that text. -/
theorem readExpression_quote (cs : List Char) :
    readExpression (String.ofList (quote cs)) = .ok (.mk (.string (String.ofList cs)) .start) := by
  obtain ⟨n, hover, hn⟩ : ∃ n, (Cursor.ofText (quote cs)).Over (quote cs) n ∧ n.rest = [] :=
    ⟨_, .of_append (List.append_nil _).symm, by simp [Cursor.ofText]⟩
  have htext : (String.ofList (quote cs)).toList = quote cs := String.toList_ofList
  refine readExpression_of_literal (n := n) (by rw [htext]; exact head_quote cs) hn ?_
  rw [htext]
  have hat : LiteralAt (rulesPerPlace * (quote cs).length + 6 + 1) (.ofText (quote cs)) :=
    ⟨head_quote cs, Nat.add_le_add_left (by decide : 3 ≤ 7) _⟩
  exact hat.result_quote hover

end

/-- **A text that is one string literal**: wherever it stands, the rule for strings takes all of it
and nothing behind it. -/
def IsStringText (t : List Char) : Prop :=
  ∃ inside, ∀ (fuel : Nat) (c n : Cursor), c.Over t n →
    (Form.rule .string : Phrase _).result (follow (fuel + 1)) .free c = .matched inside n

end ScriptTrace.Syntax

namespace ScriptTrace

namespace Inspect

/-- **A text is shown as the quoted text of its front**, and something stands behind that exactly if
the text is longer. -/
theorem exists_toList_quoted (s : String) :
    ∃ back, (quoted s).toList = Text.quote (s.toList.take characterLimit) ++ back ∧
      (back = [] ↔ s.length ≤ characterLimit) := by
  unfold quoted
  by_cases hfits : s.length - characterLimit = 0
  · have hle : s.length ≤ characterLimit := Nat.le_of_sub_eq_zero hfits
    rw [if_pos hfits, String.toList_ofList, List.take_of_length_le hle]
    exact ⟨[], (List.append_nil _).symm, fun _ => hle, fun _ => rfl⟩
  · rw [if_neg hfits, String.toList_copy_take]
    simp only [String.toList_append, String.toList_ofList, List.append_assoc]
    refine ⟨_, rfl, fun hnil => ?_, fun hle => absurd (Nat.sub_eq_zero_of_le hle) hfits⟩
    exact absurd (List.append_eq_nil_iff.mp hnil).1 (by decide)

end Inspect

namespace Heap

variable {h : Heap} {s t : String}

theorem inspect_string (h : Heap) (s : String) : h.inspect (.string s) = Inspect.quoted s := by
  unfold inspect Inspect.textWithin
  rfl

/-- A text within the limit is shown as it is quoted. -/
theorem inspect_string_of_le (hs : s.length ≤ Inspect.characterLimit) :
    h.inspect (.string s) = String.ofList (Text.quote s.toList) := by
  rw [inspect_string, Inspect.quoted, if_pos (Nat.sub_eq_zero_of_le hs)]

/-- **A text shown in full is shown unlike every other text**, the long ones included. -/
theorem inspect_string_inj (hs : s.length ≤ Inspect.characterLimit)
    (heq : h.inspect (.string t) = h.inspect (.string s)) : t = s := by
  rw [inspect_string, inspect_string, ← String.toList_inj] at heq
  obtain ⟨back, hs', hback⟩ := Inspect.exists_toList_quoted s
  obtain ⟨back', ht', hback'⟩ := Inspect.exists_toList_quoted t
  rw [hs', ht'] at heq
  obtain ⟨hfront, rfl⟩ := Syntax.quote_append_inj heq
  have hall : s.toList.take Inspect.characterLimit = s.toList := List.take_of_length_le hs
  have hall' : t.toList.take Inspect.characterLimit = t.toList :=
    List.take_of_length_le (hback'.mp (hback.mpr hs))
  rw [hall, hall'] at hfront
  exact String.toList_inj.mp hfront

end Heap

/-- **A text that a console shows can be read back**, if it has no more than 10000 characters: it is
shown as one string literal, an expression that has the text as its value, and no other text is
shown so.  Resolving escapes undoes quoting, for texts of any length. -/
theorem shown_text_reads_back (h : Heap) :
    (∀ s : String, s.length ≤ 10000 →
      Syntax.IsStringText (h.inspect (.string s)).toList ∧
      Syntax.readExpression (h.inspect (.string s)) = .ok (.mk (.string s) .start) ∧
      ∀ t, h.inspect (.string t) = h.inspect (.string s) → t = s) ∧
    ∀ cs, Text.unescape (Text.quote cs).tail.dropLast = cs := by
  refine ⟨fun s hs => ⟨?_, ?_, fun t => Heap.inspect_string_inj hs⟩, fun cs => ?_⟩
  · rw [Heap.inspect_string_of_le hs, String.toList_ofList]
    exact ⟨_, fun _ _ _ => Syntax.result_string_quote⟩
  · rw [Heap.inspect_string_of_le hs, Syntax.readExpression_quote, String.ofList_toList]
  · rw [Text.tail_dropLast_quote, Text.unescape_flatMap_quoteChar]

/-- Quotes, backslashes in front of letters of escapes, a line break, a control character and
characters of several bytes. -/
theorem shown_text_reads_back_mixed :
    Heap.empty.inspect (.string "\\u\x7b41\x7d\"\\n\n\x01ß€") =
      "\"\\\\u\x7b41\x7d\\\"\\\\n\\n\x01ß€\"" ∧
    Syntax.readExpression (Heap.empty.inspect (.string "\\u\x7b41\x7d\"\\n\n\x01ß€")) =
      .ok (.mk (.string "\\u\x7b41\x7d\"\\n\n\x01ß€") .start) :=
  ⟨by decide +kernel, ((shown_text_reads_back Heap.empty).1 _ (by decide)).2.1⟩

end ScriptTrace
