import ScriptTrace.Proofs.Grammar.Reading
import ScriptTrace.Proofs.Syntax.Sound

/-!
# Proofs/Syntax/Program — the programs that are read

Everything in a program that was read has the shape that the evaluator relies on
(`readProgram_wellFormed`), and its statements stand where their places say, with the text that
their excerpts quote, in the order of the text (`statements_stand_in_the_text`).
-/

namespace ScriptTrace.Syntax

open Grammar
open Grammar.Form
open Parts

variable {fuel : Nat} {c n : Cursor} {source : String} {program : Program}

/-- A program is statements up to the end of the text. -/
theorem result_programPhrase :
    programPhrase.result (follow fuel) .free c =
      ((Form.many (.rule .statement)).result (follow fuel) .free c.skipBlanks).andThen
        fun parts m => if m.skipBlanks.rest.isEmpty then .matched (allBuilt parts) m.skipBlanks
          else .failed := by
  have htoken : (token "" : Phrase Unit).result (follow fuel) .free c = .matched () c := rfl
  simp only [programPhrase, result_fmap, result_seqLeft, result_seqRight, htoken,
    Outcome.andThen_matched, result_named, result_finish, Spacing.skip]
  cases (Form.many (.rule .statement)).result (follow fuel) .free c.skipBlanks with
  | matched parts m =>
    simp only [Outcome.andThen_matched]
    split <;> rfl
  | failed | exhausted => rfl

/-- What the grammar matches to the end is the program. -/
theorem readProgram_of_matched {program : Built Program}
    (h : programPhrase.result (follow (nestingBound source.toList.length)) .free
      (.ofText source.toList) = .matched program n) : readProgram source = program := by
  unfold readProgram
  extract_lets text attempt
  have hattempt : attempt.outcome = .matched program n := h
  rw [hattempt]

/-- What the grammar does not match is refused. -/
theorem readProgram_of_unmatched
    (h : ∀ program n, programPhrase.result (follow (nestingBound source.toList.length)) .free
      (.ofText source.toList) ≠ .matched program n) : ∃ e, readProgram source = .error e := by
  unfold readProgram
  extract_lets text attempt
  split
  · rename_i program n hmatched
    exact absurd hmatched (h program n)
  · exact ⟨_, rfl⟩
  · exact ⟨_, rfl⟩

section

variable {node : Built StmtNode} (hfuel : nestingBound source.toList.length = fuel + 1)
  (hsolid : (Cursor.ofText source.toList).IsSolid)
include hfuel hsolid

/-- **A text that is one statement.** -/
theorem readProgram_of_node
    (h : Phrase.statementNode.result (follow fuel) .free (.ofText source.toList) = .matched node n)
    (hn : n.rest = []) :
    ∃ excerpt, readProgram source = node.map fun node => [.mk node .start excerpt] := by
  have hnsolid : n.IsSolid := Cursor.isSolid_of_nil hn
  have hstatement : (Form.rule .statement : Phrase _).result (follow (fuel + 1)) .free
      (.ofText source.toList) = .matched (node.map fun node => .mk node .start
        (excerpt ((Cursor.ofText source.toList).textTo n))) n := by
    rw [result_rule_succ, Rule.phrase, Phrase.statement, result_fmap, result_spanned, result_named,
      h]
    rfl
  have hagain : (Form.rule .statement : Phrase _).again (follow (fuel + 1)) .free
      (.ofText source.toList) = .matched (node.map fun node => .mk node .start
        (excerpt ((Cursor.ofText source.toList).textTo n))) n := by
    rw [again, Spacing.skip, hsolid.skipBlanks_eq, hstatement]
  have hend : (Form.rule .statement : Phrase _).again (follow (fuel + 1)) .free n = .failed := by
    rw [again, Spacing.skip, hnsolid.skipBlanks_eq, result_rule]
    exact follow_end hn (by rw [← hfuel, nestingBound, rulesPerPlace, Rule.rank]; omega)
  have hmany := many_of_runs (advancing_follow _) rfl (.cons hagain (.nil n)) hend
    hsolid.skipBlanks_eq
  refine ⟨excerpt ((Cursor.ofText source.toList).textTo n), readProgram_of_matched (n := n) ?_⟩
  rw [result_programPhrase, hfuel, hsolid.skipBlanks_eq, hmany, Outcome.andThen_matched,
    hnsolid.skipBlanks_eq, hn]
  cases node <;> rfl

/-- **A text where no statement stands.** -/
theorem readProgram_of_no_node
    (h : Phrase.statementNode.result (follow fuel) .free (.ofText source.toList) = .failed)
    (hsource : source.toList ≠ []) : ∃ e, readProgram source = .error e := by
  have hstatement : (Form.rule .statement : Phrase _).result (follow (fuel + 1)) .free
      (.ofText source.toList) = .failed := by
    rw [result_rule_succ, Rule.phrase, Phrase.statement, result_fmap, result_spanned, result_named,
      h, Outcome.andThen_failed, Outcome.map_failed]
  refine readProgram_of_unmatched fun program n hmatched => ?_
  rw [result_programPhrase, hfuel, hsolid.skipBlanks_eq, result_many, hstatement,
    Outcome.andThen_failed, Outcome.orElse_failed, Outcome.andThen_matched,
    hsolid.skipBlanks_eq] at hmatched
  have hempty : (Cursor.ofText source.toList).rest.isEmpty = false :=
    List.isEmpty_eq_false_iff.mpr hsource
  rw [hempty] at hmatched
  cases hmatched

end

/-- A program is read by the grammar from the beginning of its text. -/
theorem matched_of_readProgram (h : readProgram source = .ok program) :
    ∃ n, programPhrase.result
      (fun r s c => readRule Rule.phrase (nestingBound source.toList.length) r s c) .free
      (.ofText source.toList) = .matched (.ok program) n := by
  unfold readProgram at h
  extract_lets text attempt at h
  split at h
  · rename_i program' n hmatched
    subst h
    exact ⟨n, hmatched⟩
  · cases h
  · cases h

/-- **A program that was read is laid out in its text.** -/
theorem laid_readProgram (h : readProgram source = .ok program) :
    Laid source.toList Set.univ program := by
  obtain ⟨n, hmatched⟩ := matched_of_readProgram h
  have hrules := laysRules_readRule source.toList (nestingBound source.toList.length)
  have hmany := Lays.many hrules.advancing (fun _ => rfl) hrules.statement
  simp only [programPhrase, result_fmap, Outcome.map_eq_matched, result_seqLeft, result_seqRight,
    Outcome.andThen_eq_matched] at hmatched
  obtain ⟨parts, ⟨_, m, ⟨_, start, hstart, hparts⟩, _, -, rfl⟩, hprogram⟩ := hmatched
  have hle := (le_of_matched hrules.advancing hstart).trans (Spacing.free.le_skip start)
  have hlaid := hmany hle (fun _ => start.isSolid_skipBlanks) hparts
  exact (laid_ok.mp (hprogram ▸ hlaid.allBuilt)).mono (Set.subset_univ _)

/-- **Every program that was read is well formed**: only names and members are counted up and down
or assigned to by operators, a template has one piece more than values, constants have values, a
`try` has a handler or a finalizer, and only assignments and loops that declare nothing write to
members. -/
theorem readProgram_wellFormed (h : readProgram source = .ok program) :
    ∀ node ∈ stmtsNodes program, node.WellFormed := by
  rw [stmtsNodes_eq]
  exact fun node hnode => ((laid_readProgram h).sound node hnode).1

/-- **The places and the excerpts of statements are those of the text.**  Of two statements in one
row the whole of the first lies in front of the second, and what is nested in a statement lies
behind its beginning. -/
theorem statements_stand_in_the_text (source : String) (program : Program)
    (h : readProgram source = .ok program) :
    program.Pairwise Stmt.Before ∧
    (∀ f, .function f ∈ stmtsNodes program → f.body.row.Pairwise Stmt.Before) ∧
    ∀ s, .statement s ∈ stmtsNodes program →
      s.Faithful source.toList ∧ s.node.row.Pairwise Stmt.Before ∧
        ∀ u, .statement u ∈ s.node.inside → s.position < u.position := by
  have hlaid := laid_readProgram h
  rw [stmtsNodes_eq]
  refine ⟨by simpa using hlaid.ordered, fun f hf => (hlaid.sound _ hf).2, fun s hs => ?_⟩
  obtain ⟨-, -, hfaithful, hinside, hordered⟩ := hlaid.sound _ hs
  exact ⟨hfaithful, hordered, hinside⟩

/-! ## A program with a statement inside another -/

/-- A block inside a condition, and a statement on the line behind it. -/
def nestedUse : String := "if (a) { b }\nc"

/-- A statement inside a block inside an `if`, and one behind it. -/
def nestedProgram : Program :=
  [.mk (.ifElse (.mk (.name "a") ⟨1, 5⟩)
      (.mk (.block [.mk (.expr (.mk (.name "b") ⟨1, 10⟩)) ⟨1, 10⟩ "b"]) ⟨1, 8⟩ "{ b }") none)
      ⟨1, 1⟩ "if (a) { b }",
    .mk (.expr (.mk (.name "c") ⟨2, 1⟩)) ⟨2, 1⟩ "c"]

set_option maxRecDepth 100000 in
theorem readProgram_nestedUse : readProgram nestedUse = .ok nestedProgram := by
  rfl

/-- Nested statements stand one inside the other and one behind the other. -/
theorem nestedUse_stands_in_the_text : readProgram nestedUse = .ok nestedProgram ∧
    nestedProgram.Pairwise Stmt.Before ∧
    (∀ f, .function f ∈ stmtsNodes nestedProgram → f.body.row.Pairwise Stmt.Before) ∧
    ∀ s, .statement s ∈ stmtsNodes nestedProgram →
      s.Faithful nestedUse.toList ∧ s.node.row.Pairwise Stmt.Before ∧
        ∀ u, .statement u ∈ s.node.inside → s.position < u.position :=
  ⟨readProgram_nestedUse,
    statements_stand_in_the_text nestedUse nestedProgram readProgram_nestedUse⟩

end ScriptTrace.Syntax
