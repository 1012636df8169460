import Mathlib.Data.List.TakeWhile
import ScriptTrace.Command.Perform
import ScriptTrace.Proofs.EventLoop.Ending
import ScriptTrace.Proofs.Syntax.Program

/-!
# Proofs/Syntax/Blank — which sources have a syntax error

A run looks for blank sources by the property White_Space, the grammar by the characters that it
skips.  So a run reports what is wrong with a text that is no program, with the message that a check
prints, unless the text is blank; and of the blank texts only those of skipped characters are
programs (`run_syntaxError_iff`).
-/

namespace ScriptTrace.Syntax

open Grammar
open Grammar.Form

variable {source : String}

/-! ## Blank texts -/

/-- A text of characters that the grammar skips is the empty program. -/
theorem readProgram_of_spaces (h : source.toList.all isSpace = true) :
    readProgram source = .ok [] := by
  have hrest : (Cursor.ofText source.toList).skipBlanks.rest = [] := by
    have hlength : blankLength source.toList = source.toList.length := by
      simpa [blankLength_nil] using blankLength_spaces h []
    rw [Cursor.skipBlanks, Cursor.rest_advance, Cursor.ofText, hlength, List.drop_length]
  refine readProgram_of_matched (n := (Cursor.ofText source.toList).skipBlanks)
    (result_programPhrase.trans ?_)
  have hstatement : (follow (nestingBound source.toList.length) .statement .free
      (Cursor.ofText source.toList).skipBlanks).outcome = .failed :=
    follow_end hrest (by simp [nestingBound, Rule.rank, rulesPerPlace]; omega)
  rw [result_many, result_rule, hstatement]
  simp only [Outcome.andThen_failed, Outcome.orElse_failed, Outcome.andThen_matched,
    Cursor.isSolid_skipBlanks _ |>.skipBlanks_eq, hrest]
  rfl

/-- A blank text with a character that the grammar does not skip is no program. -/
theorem readProgram_of_blank (hblank : source.toList.all Text.isBlank = true)
    (h : source.toList.all isSpace = false) : ∃ e, readProgram source = .error e := by
  obtain ⟨spaces, x, rest, htext, hspaces, hx⟩ : ∃ spaces x rest,
      source.toList = spaces ++ x :: rest ∧ spaces.all isSpace = true ∧ isSpace x = false := by
    have hdrop : source.toList.dropWhile isSpace ≠ [] := fun hnil =>
      Bool.eq_false_iff.mp h (List.all_eq_true.mpr (List.dropWhile_eq_nil_iff.mp hnil))
    obtain ⟨x, rest, hcons⟩ := List.exists_cons_of_ne_nil hdrop
    have hx := List.head_dropWhile_not isSpace hdrop
    refine ⟨source.toList.takeWhile isSpace, x, rest, ?_, List.all_takeWhile, ?_⟩
    · rw [← hcons, List.takeWhile_append_dropWhile]
    · simpa [hcons] using hx
  have hxblank : Text.isBlank x = true := by
    rw [htext] at hblank
    simp_all
  have hsolid : blankLength (x :: rest) = 0 :=
    blankLength_of_solid hx (commentLength?_of_ne (by rintro rfl; exact absurd hxblank (by decide)))
  have hrest : (Cursor.ofText source.toList).skipBlanks.rest = x :: rest := by
    rw [Cursor.skipBlanks, Cursor.rest_advance, Cursor.ofText, htext,
      blankLength_spaces hspaces, hsolid, Nat.add_zero, List.drop_left]
  refine readProgram_of_unmatched fun program n hmatched => ?_
  rw [result_programPhrase, Outcome.andThen_eq_matched] at hmatched
  obtain ⟨parts, m, hmany, hfinish⟩ := hmatched
  have hsolid := (Cursor.ofText source.toList).isSolid_skipBlanks
  rcases (many_eq_matched ..).mp hmany with ⟨v, m', ws, hfirst, -⟩ | ⟨-, -, rfl⟩
  · rw [result_rule] at hfirst
    exact follow_blank hrest hsolid hxblank hfirst
  · simp [hsolid.skipBlanks_eq, hrest] at hfinish

end ScriptTrace.Syntax

namespace ScriptTrace

open Grammar (isSpace)

/-! ## What a run reports -/

/-- A run of a program shows at least one step. -/
theorem finalMachine_steps_ne (limits : Limits) (fuel : Nat) (program : Syntax.Program) :
    (finalMachine limits fuel program).steps ≠ #[] := by
  cases h : (Evaluator.bounded fuel).runProgram program (.initial limits) with
  | ok _ m =>
    rw [finalMachine_of_ok h]
    obtain ⟨s, hlast, -⟩ := (finishes_of_ok h).last
    intro hempty
    simp [Result.ofSteps, hempty] at hlast
  | error f m =>
    rw [finalMachine_of_error h]
    exact Array.push_ne_empty

/-- The text of a syntax error begins with its class. -/
theorem Syntax.SyntaxError.text_eq (e : Syntax.SyntaxError) :
    ∃ rest, e.text = "SyntaxError: " ++ rest := by
  unfold text
  iterate 5 rw [String.append_assoc]
  exact ⟨_, rfl⟩

/-- **A result that reports a syntax error**: there are no steps, and the message says so. -/
def Result.IsSyntaxError (r : Result) : Prop :=
  r.steps = #[] ∧ ∃ rest, r.error = some ("SyntaxError: " ++ rest)

/-- **Which sources have a syntax error.**  A run reports one exactly for the texts that are no
programs and not blank, and the message is what a check of the same text complains of.  A blank text
is never reported; of the blank texts those whose characters the grammar skips are the empty
program, and no others are programs.  The fuel does not matter. -/
theorem run_syntaxError_iff (limits : Limits) (fuel : Nat) (source : String) :
    ((runWithin limits fuel source).IsSyntaxError ↔
      source.toList.all Text.isBlank = false ∧ ∃ e, Syntax.readProgram source = .error e) ∧
    (source.toList.all Text.isBlank = false → ∀ e, Syntax.readProgram source = .error e →
      runWithin limits fuel source = .empty (some e.text) ∧
      Answer.ofCheck source = ⟨1, "", e.text ++ "\n"⟩) ∧
    (source.toList.all Text.isBlank = true → runWithin limits fuel source = .empty none ∧
      if source.toList.all isSpace then Syntax.readProgram source = .ok []
      else ∃ e, Syntax.readProgram source = .error e) := by
  refine ⟨?_, fun hblank e hread => ⟨runWithin_of_unreadable hblank hread, ?_⟩,
    fun hblank => ⟨runWithin_of_blank hblank, ?_⟩⟩
  · cases hblank : source.toList.all Text.isBlank with
    | true =>
      rw [runWithin_of_blank hblank]
      refine iff_of_false (fun h => ?_) fun h => ?_
      · obtain ⟨-, rest, herror⟩ := h
        cases herror
      · cases h.1
    | false =>
      cases hread : Syntax.readProgram source with
      | error e =>
        rw [runWithin_of_unreadable hblank hread]
        obtain ⟨rest, htext⟩ := e.text_eq
        exact iff_of_true ⟨rfl, rest, congrArg some htext⟩ ⟨rfl, e, rfl⟩
      | ok program =>
        rw [runWithin_of_program hblank hread]
        refine iff_of_false (fun h => finalMachine_steps_ne _ _ _ h.1) fun h => ?_
        obtain ⟨-, e, herror⟩ := h
        cases herror
  · unfold Answer.ofCheck
    rw [hread]
    rfl
  · split
    · exact Syntax.readProgram_of_spaces ‹_›
    · exact Syntax.readProgram_of_blank hblank (Bool.eq_false_iff.mpr ‹_›)

/-- A text of one character that is blank and that the grammar does not skip. -/
def verticalTab : String := "\x0b"

set_option maxRecDepth 100000 in
theorem readProgram_verticalTab :
    Syntax.readProgram verticalTab = .error ⟨.token verticalTab, ⟨1, 1⟩⟩ := by
  rfl

/-- A vertical tab alone is blank for the run and a fault for the grammar. -/
theorem verticalTab_unreported :
    Syntax.readProgram verticalTab = .error ⟨.token verticalTab, ⟨1, 1⟩⟩ ∧
    run .default verticalTab = .empty none ∧
    ¬ ∀ source, (run .default source).IsSyntaxError ↔
      ∃ e, Syntax.readProgram source = .error e := by
  have hrun : run .default verticalTab = .empty none := runWithin_of_blank (by decide)
  refine ⟨readProgram_verticalTab, hrun, fun h => ?_⟩
  obtain ⟨-, rest, herror⟩ := (h verticalTab).mpr ⟨_, readProgram_verticalTab⟩
  rw [hrun] at herror
  cases herror

end ScriptTrace
