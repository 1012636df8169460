import Mathlib.Data.List.TakeWhile
import ScriptTrace.Proofs.Grammar.Cursor
import ScriptTrace.Syntax.Build

/-!
# Proofs/Syntax/Excerpt — places and excerpts against the text

The place of a cursor is the place behind the text in front of it.  The excerpt of a text that does
not start with a blank is the beginning of that text, cut at the end of the line and at the limit.
-/

namespace ScriptTrace.Syntax

open Grammar (Position Cursor)

/-! ## Places -/

/-- The place behind a text that starts at the first line: lines end at the line feed. -/
def placeBehind (before : List Char) : Position :=
  ⟨before.count '\n' + 1, (before.reverse.takeWhile (· ≠ '\n')).length + 1⟩

theorem placeBehind_snoc (before : List Char) (x : Char) :
    placeBehind (before ++ [x]) = (placeBehind before).step x := by
  by_cases hx : x = '\n' <;> simp [placeBehind, Position.step, hx]

/-- **The place of a cursor** is the one behind the text in front of it. -/
theorem position_advance (text : List Char) {k : Nat} (hk : k ≤ text.length) :
    ((Cursor.ofText text).advance k).position = placeBehind (text.take k) := by
  induction k with
  | zero => rfl
  | succ k ih =>
    have hrest : ((Cursor.ofText text).advance k).rest = text[k] :: text.drop (k + 1) := by
      rw [Cursor.rest_advance]
      exact List.drop_eq_getElem_cons hk
    rw [Cursor.advance_add, Cursor.advance_succ, Cursor.advance_zero, Cursor.step_of_cons hrest,
      ih (Nat.le_of_succ_le hk), List.take_add_one, List.getElem?_eq_getElem hk,
      Option.toList_some, placeBehind_snoc]

/-! ## Excerpts -/

/-- An excerpt is the beginning of a text, or three points stand for what is cut. -/
def Quotes (excerpt : String) (text : List Char) : Prop :=
  excerpt.toList <+: text ∨
    excerpt.length = excerptLimit ∧
      ∃ head, head <+: text ∧ head.length = excerptLimit - 3 ∧
        excerpt = String.ofList head ++ "..."

theorem dropBlanksEnd_isPrefix (cs : List Char) : Text.dropBlanksEnd cs <+: cs := by
  rw [← List.reverse_suffix, Text.dropBlanksEnd, List.reverse_reverse]
  exact List.dropWhile_suffix _

theorem dropBlanksEnd_ne_nil {x : Char} {cs : List Char} (hx : Text.isBlank x = false) :
    Text.dropBlanksEnd (x :: cs) ≠ [] := by
  simp [Text.dropBlanksEnd, List.dropWhile_eq_nil_iff, hx]

section

variable {x : Char} (cs : List Char) (hx : Text.isBlank x = false)
include hx

/-- The line that an excerpt is made of. -/
theorem exists_line : ∃ line, line ≠ [] ∧ line <+: x :: cs ∧ '\n' ∉ line ∧
    Text.trim ((x :: cs).takeWhile (· ≠ '\n')) = line := by
  have hnewline : x ≠ '\n' := by
    rintro rfl
    exact absurd hx (by decide)
  have hline : (x :: cs).takeWhile (· ≠ '\n') = x :: cs.takeWhile (· ≠ '\n') := by
    simp [hnewline]
  have hdrop : Text.dropBlanks (x :: cs.takeWhile (· ≠ '\n')) = x :: cs.takeWhile (· ≠ '\n') := by
    simp [Text.dropBlanks, hx]
  have hstart := dropBlanksEnd_isPrefix (x :: cs.takeWhile (· ≠ '\n'))
  rw [hline, Text.trim, hdrop]
  refine ⟨_, dropBlanksEnd_ne_nil hx, ?_, ?_, rfl⟩
  · exact hstart.trans (List.cons_prefix_cons.mpr ⟨rfl, List.takeWhile_prefix _⟩)
  · intro h
    rcases List.mem_cons.mp (hstart.subset h) with h | h
    · exact hnewline h.symm
    · simpa using List.mem_takeWhile_imp h

/-- **The excerpt of a text** is a line of it, or the beginning of one with three points. -/
theorem excerpt_cases :
    (∃ line, line ≠ [] ∧ line <+: x :: cs ∧ '\n' ∉ line ∧ line.length ≤ excerptLimit ∧
      excerpt (x :: cs) = String.ofList line) ∨
    ∃ head, head <+: x :: cs ∧ '\n' ∉ head ∧ head.length = excerptLimit - 3 ∧
      excerpt (x :: cs) = String.ofList head ++ "..." := by
  obtain ⟨line, hne, hstart, hnewline, hline⟩ := exists_line cs hx
  simp only [excerpt, hline]
  split
  · rename_i hlong
    refine .inr ⟨_, (List.take_prefix ..).trans hstart, ?_, ?_, rfl⟩
    · exact fun h => hnewline (List.mem_of_mem_take h)
    · rw [List.length_take]
      omega
  · exact .inl ⟨line, hne, hstart, hnewline, by omega, rfl⟩

/-- The excerpt of a text quotes its first line. -/
theorem quotes_excerpt {text : List Char} (h : x :: cs <+: text) :
    Quotes (excerpt (x :: cs)) text := by
  rcases excerpt_cases cs hx with ⟨line, -, hstart, -, -, he⟩ | ⟨head, hstart, -, hlength, he⟩
  · exact .inl (by simpa [he] using hstart.trans h)
  · refine .inr ⟨?_, head, hstart.trans h, hlength, he⟩
    rw [he, String.length_append, String.length_ofList, hlength]
    rfl

/-- An excerpt is not empty. -/
theorem excerpt_ne_empty : excerpt (x :: cs) ≠ "" := by
  intro hempty
  have hnil := congrArg String.toList hempty
  rcases excerpt_cases cs hx with ⟨line, hne, -, -, -, he⟩ | ⟨head, -, -, -, he⟩
  · exact hne (by simpa [he] using hnil)
  · simp [he] at hnil

/-- An excerpt is not longer than a step can show. -/
theorem length_excerpt_le : (excerpt (x :: cs)).length ≤ excerptLimit := by
  rcases excerpt_cases cs hx with ⟨line, -, -, -, hlength, he⟩ | ⟨head, -, -, hlength, he⟩
  · rwa [he, String.length_ofList]
  · rw [he, String.length_append, String.length_ofList, hlength]
    decide

/-- An excerpt stands in one line. -/
theorem newline_not_mem_excerpt : '\n' ∉ (excerpt (x :: cs)).toList := by
  rcases excerpt_cases cs hx with ⟨line, -, -, hnewline, -, he⟩ | ⟨head, -, hnewline, -, he⟩
  · rwa [he, String.toList_ofList]
  · simpa [he] using hnewline

end

end ScriptTrace.Syntax
