import ScriptTrace.Proofs.Syntax.Suffix

/-!
# Proofs/Syntax/Operation — operators read from their texts

Each level of the grammar reads the text of an operator up to what follows it and leaves what it
cannot take to the level above: operators in front of an operand (`Fronted`), one operator between
two operands, a condition with its branches, and at last the whole formula, which is no function
because no arrow stands in its text (`arrow_failed`).
-/

namespace ScriptTrace.Syntax

open Grammar
open Grammar.Form
open Phrase

variable {fuel : Nat} {c m n : Cursor} {e : Expr} {w Y : List Char}

/-! ## Operators in front -/

/-- **An operand is read up to what follows it.** -/
theorem Chained.result_counted (h : Chained fuel c e n) (hn : Follows n.rest) :
    counted.result (follow fuel) .free c = .matched (.ok e) n.skipBlanks := by
  obtain ⟨head, m, suffixes, k, hhead, hruns, hk, happly⟩ := h.suffixes
  have hend : suffix.again (follow fuel) .free k = .failed := by
    rw [again, Spacing.skip, hk, hn.suffix_failed]
  have hmany := many_of_runs (advancing_follow fuel) (by decide) hruns hend
    m.isSolid_skipBlanks.skipBlanks_eq
  have hoperand : operand.result (follow fuel) .free c = .matched (.ok e) k := by
    simp only [operand, result_named, result_combine, hhead, Outcome.andThen_matched,
      Spacing.skip, hmany, Outcome.map_matched]
    exact congrArg (Outcome.matched · k) happly
  simp only [counted, result_fmap, result_placed, result_named, result_both, hoperand,
    Outcome.andThen_matched, Spacing.skip, hk, result_perhaps, hn.updateOperator_failed]
  rfl

/-- **An operand with operators in front**, up to what follows it. -/
def Fronted (fuel : Nat) (c : Cursor) (e : Expr) (n : Cursor) : Prop :=
  ∃ fronts m base,
    Runs ((placed (.named frontOperator)).again (follow fuel) .free) c fronts m ∧
    frontOperator.again (follow fuel) .free m = .failed ∧
    counted.result (follow fuel) .free m.skipBlanks = .matched (.ok base) n.skipBlanks ∧
    applyFront base fronts = .ok e

theorem Chained.fronted (h : Chained fuel c.skipBlanks e n) (hn : Follows n.rest) :
    Fronted fuel c e n :=
  ⟨[], c, e, .nil c, h.front, h.result_counted hn, rfl⟩

/-- One more operator in front. -/
theorem Fronted.cons {op : UnaryOperator}
    (hop : frontOperator.result (follow fuel) .free c.skipBlanks = .matched (.unary op) m)
    (h : Fronted fuel m e n) :
    Fronted fuel c (.mk (.unary op e) c.skipBlanks.position) n := by
  obtain ⟨fronts, k, base, hruns, hend, hbase, happly⟩ := h
  refine ⟨(c.skipBlanks.position, .unary op) :: fronts, k, base, .cons ?_ hruns, hend, hbase, ?_⟩
  · rw [again, Spacing.skip, result_placed, result_named, hop]
    rfl
  · simp only [applyFront, happly]
    rfl

/-- **An operator in front is read**, with the space that a word needs. -/
theorem result_frontOperator {op : UnaryOperator} (hop : op.isPlain = true)
    (h : c.Over op.front.toList n) (hn : n.IsSolid) :
    ∃ k, frontOperator.result (follow fuel) .free c = .matched (.unary op) k ∧
      k.skipBlanks = n := by
  obtain ⟨rest, o, p⟩ := c
  obtain ⟨hrest, rfl⟩ := h
  generalize Cursor.rest (Cursor.advance _ _) = Y at hrest
  obtain rfl : rest = _ := hrest
  cases op with
  | not | bitNot => exact ⟨_, rfl, hn.skipBlanks_eq⟩
  | typeof | void => exact ⟨_, rfl, Cursor.Over.skipBlanks_eq ⟨rfl, rfl⟩ hn⟩
  | negate | plus | delete => cases hop

/-- An operand with its operators is read to its end. -/
theorem Fronted.result_unary (h : Fronted fuel c e n) (hc : c.IsSolid) :
    unary.result (follow fuel) .free c = .matched (.ok e) n.skipBlanks := by
  obtain ⟨fronts, m, base, hruns, hend, hbase, happly⟩ := h
  have hend : (placed (.named frontOperator) : Phrase _).again (follow fuel) .free m = .failed := by
    rw [again] at hend
    rw [again, result_placed, result_named, hend]
    rfl
  have hmany := many_of_runs (advancing_follow fuel) (by decide) hruns hend hc.skipBlanks_eq
  simp only [unary, result_named, result_combine, hmany, Outcome.andThen_matched, Spacing.skip,
    hbase, Outcome.map_matched]
  exact congrArg (Outcome.matched · n.skipBlanks) happly

/-! ## Operators between -/

/-- A mark with one space around it. -/
theorem over_mark (mark : List Char) {v : List Char} (h : c.Over (' ' :: (mark ++ ' ' :: v)) n)
    (hmark : ∀ Y, blankLength (mark ++ ' ' :: Y) = 0) :
    ∃ m k, c.skipBlanks.Over mark m ∧ m.Over [' '] k ∧ k.Over v n := by
  obtain ⟨d, hspace, hmore⟩ := (Cursor.Over.append_iff (w := [' '])).mp h
  obtain ⟨m, hover, hmore⟩ := Cursor.Over.append_iff.mp hmore
  obtain ⟨k, hspace', hv⟩ := (Cursor.Over.append_iff (w := [' '])).mp hmore
  have hd : d.rest = mark ++ ' ' :: k.rest := by
    rw [hover.rest_eq, hspace'.rest_eq, List.singleton_append]
  have hsolid : d.IsSolid := by rw [Cursor.IsSolid, hd, hmark]
  exact ⟨m, k, (hspace.skipBlanks_eq hsolid).symm ▸ hover, hspace', hv⟩

/-- What closes an expression is no operator between operands. -/
theorem Closes.between_failed (h : Closes n.rest) :
    between.result (follow fuel) .free n.skipBlanks = .failed := by
  obtain ⟨rest, o, p⟩ := n
  cases h <;> rfl

/-- A question mark is no operator between operands. -/
theorem between_failed_of_question (h : n.rest = ' ' :: '?' :: ' ' :: Y) :
    between.result (follow fuel) .free n.skipBlanks = .failed := by
  obtain ⟨rest, o, p⟩ := n
  cases h
  rfl

/-- **The operator that stands between is read.** -/
theorem result_between {op : Infix} (h : c.Over op.symbol.toList n) (hn : n.rest = ' ' :: Y) :
    between.result (follow fuel) .free c = .matched op n := by
  obtain ⟨rest, o, p⟩ := c
  obtain ⟨hrest, rfl⟩ := h
  rw [hn] at hrest
  obtain rfl : rest = _ := hrest
  cases op with
  | binary op => cases op <;> rfl
  | logical op => cases op <;> rfl

theorem Infix.blankLength_symbol (op : Infix) (Y : List Char) :
    blankLength (op.symbol.toList ++ ' ' :: Y) = 0 := by
  cases op with
  | binary op => cases op <;> rfl
  | logical op => cases op <;> rfl

/-- One operator with two operands needs no grouping. -/
theorem chain_single (op : Infix) (l r : Expr) : chain l [(op, r)] = op.node l r := by
  cases op with
  | binary op => cases op <;> rfl
  | logical op => cases op <;> rfl

/-- No operator stands behind an operand. -/
theorem result_binary_of_unary {e : Built Expr}
    (h : unary.result (follow fuel) .free c = .matched e n.skipBlanks)
    (hend : between.result (follow fuel) .free n.skipBlanks = .failed) :
    binary.result (follow fuel) .free c = .matched e n.skipBlanks := by
  have hoperation : operation.result (follow fuel) .free n.skipBlanks = .failed := by
    rw [operation, result_combine, hend]
    rfl
  simp only [binary, result_named, result_combine, h, Outcome.andThen_matched, Spacing.skip,
    n.isSolid_skipBlanks.skipBlanks_eq, result_many, hoperation]
  cases e <;> rfl

/-- **One operator stands between two operands.** -/
theorem result_binary_of_operation {op : Infix} {l r : Expr} {k : Cursor}
    (hl : unary.result (follow fuel) .free c = .matched (.ok l) m.skipBlanks)
    (hop : between.result (follow fuel) .free m.skipBlanks = .matched op k)
    (hr : unary.result (follow fuel) .free k.skipBlanks = .matched (.ok r) n.skipBlanks)
    (hend : between.result (follow fuel) .free n.skipBlanks = .failed) :
    binary.result (follow fuel) .free c = .matched (.ok (op.node l r)) n.skipBlanks := by
  have hoperation : operation.result (follow fuel) .free m.skipBlanks =
      .matched (.ok (op, r)) n.skipBlanks := by
    rw [operation, result_combine, hop, Outcome.andThen_matched, Spacing.skip, hr]
    rfl
  have hmore : operation.again (follow fuel) .free n.skipBlanks = .failed := by
    rw [again, Spacing.skip, n.isSolid_skipBlanks.skipBlanks_eq, operation, result_combine, hend]
    rfl
  have hagain : operation.again (follow fuel) .free m.skipBlanks =
      .matched (.ok (op, r)) n.skipBlanks := by
    rw [again, Spacing.skip, m.isSolid_skipBlanks.skipBlanks_eq, hoperation]
  have hmany := many_of_runs (advancing_follow fuel) (by decide) (.cons hagain (.nil _)) hmore
    m.isSolid_skipBlanks.skipBlanks_eq
  simp only [binary, result_named, result_combine, hl, Outcome.andThen_matched, Spacing.skip,
    m.isSolid_skipBlanks.skipBlanks_eq, hmany, Outcome.map_matched]
  rw [← chain_single]
  rfl

/-! ## Conditions -/

/-- What closes an expression is not a choice. -/
theorem Closes.question_failed (h : Closes n.rest) :
    (token "?" : Phrase Unit).result (follow fuel) .free n.skipBlanks = .failed := by
  obtain ⟨rest, o, p⟩ := n
  cases h <;> rfl

/-- What closes an expression does not assign. -/
theorem Closes.assignOperator_failed (h : Closes n.rest) :
    assignOperator.result (follow fuel) .free n.skipBlanks = .failed := by
  obtain ⟨rest, o, p⟩ := n
  cases h <;> rfl

/-- No condition is made of what stands alone. -/
theorem result_conditional_of_binary {e : Built Expr}
    (h : binary.result (follow fuel) .free c = .matched e n.skipBlanks)
    (hend : (token "?" : Phrase Unit).result (follow fuel) .free n.skipBlanks = .failed) :
    conditional.result (follow fuel) .free c = .matched e n.skipBlanks := by
  simp only [conditional, result_fmap, result_placed, result_named, result_both, h,
    Outcome.andThen_matched, Spacing.skip, n.isSolid_skipBlanks.skipBlanks_eq, result_perhaps,
    result_seqRight, hend]
  cases e <;> rfl

/-- **A condition with its branches.** -/
theorem result_conditional {test yes no : Expr} (hyes : yes.IsRead) (hno : no.IsRead)
    (hready : Ready fuel m)
    (h : binary.result (follow fuel) .free c = .matched (.ok test) m.skipBlanks)
    (hbranches : m.Over (' ' :: '?' :: ' ' :: (yes.chars ++ ' ' :: ':' :: ' ' :: no.chars)) n)
    (hn : Closes n.rest) :
    ∃ yes' no', conditional.result (follow fuel) .free c =
        .matched (.ok (.mk (.conditional test yes' no') c.position)) n.skipBlanks ∧
      yes.Alike yes' ∧ no.Alike no' := by
  obtain ⟨q, a, hquestion, hspace, hmore⟩ := over_mark ['?'] hbranches fun _ => rfl
  obtain ⟨k, hover, hmore⟩ := Cursor.Over.append_iff.mp hmore
  obtain ⟨d, b, hcolon, hspace', hover'⟩ := over_mark [':'] hmore fun _ => rfl
  have hq := hspace.skipBlanks_eq (hyes.text.isSolid hover)
  have hd := hspace'.skipBlanks_eq (hno.text.isSolid hover')
  have hlt : m < a := (m.le_skipBlanks.trans_lt hquestion.lt).trans_le hspace.le
  have hle : a ≤ b := hover.le.trans ((k.le_skipBlanks.trans hcolon.le).trans hspace'.le)
  obtain ⟨fuel, rfl, hinner⟩ := hready.inside hlt
  obtain ⟨yes', hread, halike⟩ := hyes.read hinner.succ hover (hmore.rest_eq ▸ .colon _)
  obtain ⟨no', hread', halike'⟩ := hno.read (hinner.mono hle).succ hover' hn
  have hyes' : (follow (fuel + 2) .assignment .free a).outcome = .matched (.ok yes') k.skipBlanks :=
    hread
  have hno' : (follow (fuel + 2) .assignment .free b).outcome = .matched (.ok no') n.skipBlanks :=
    hread'
  have hpoint : (Form.unless (token ".") : Phrase Unit).result (follow (fuel + 2)) .free a =
      .matched () a := by
    obtain ⟨x, X, htext, hx⟩ := hyes.text.head
    have hrest : a.rest = x :: (X ++ k.rest) := by rw [hover.rest_eq, htext, List.cons_append]
    rw [result_unless, token_other (k := ".") hrest rfl (ne_of_opensFormula hx rfl).symm]
  refine ⟨yes', no', ?_, halike, halike'⟩
  simp only [conditional, result_fmap, result_placed, result_named, result_both, h,
    Outcome.andThen_matched, Spacing.skip, m.isSolid_skipBlanks.skipBlanks_eq, result_perhaps,
    result_seqRight, result_token "?" hquestion, hq, hpoint,
    (hyes.text.isSolid hover).skipBlanks_eq, result_rule, hyes',
    k.isSolid_skipBlanks.skipBlanks_eq, result_token ":" hcolon, hd, hno', Outcome.map_matched]
  rfl

/-! ## Whole formulas -/

/-- **No function starts where a formula does**: there is no arrow behind its parameters. -/
theorem arrow_failed (hready : Ready fuel c) : arrow.result (follow fuel) .free c = .failed := by
  cases h : arrow.result (follow fuel) .free c with
  | matched v n =>
    simp only [arrow, result_fmap, result_placed, result_named, result_both,
      Outcome.map_eq_matched, Outcome.andThen_eq_matched, result_seqLeft] at h
    obtain ⟨_, ⟨_, ⟨_, m, ⟨_, k, hparameters, _, harrow, -⟩, -⟩, -⟩, -⟩ := h
    have hle := (le_of_matched (advancing_follow fuel) hparameters).trans (Spacing.free.le_skip k)
    have harrowless := (hready.mono hle).arrowless
    have hstarts : "=>".toList <+: (Spacing.free.skip k).rest := by
      by_contra hnot
      rw [result_token_absent "=>" hnot] at harrow
      cases harrow
    obtain ⟨Y, hY⟩ := hstarts
    rw [← hY] at harrowless
    exact absurd ⟨rfl, rfl⟩ (List.isChain_cons_cons.mp harrowless).1
  | failed => rfl
  | exhausted =>
    have hbelow : arrow.opensBelow Rule.rank 1 = true := by decide
    exact absurd h (result_ne_exhausted hbelow hready.room)

/-- Nothing is assigned to what stands alone. -/
theorem result_assignment_of_arrow_failed {e : Built Expr}
    (harrow : arrow.result (follow fuel) .free c = .failed)
    (hend : assignOperator.result (follow fuel) .free n.skipBlanks = .failed)
    (h : conditional.result (follow fuel) .free c = .matched e n.skipBlanks) :
    Phrase.assignment.result (follow fuel) .free c = .matched e n.skipBlanks := by
  simp only [Phrase.assignment, result_named, result_orElse, harrow, Outcome.orElse_failed,
    plainOrAssigned, result_fmap, result_placed, result_both, h, Outcome.andThen_matched,
    Spacing.skip, n.isSolid_skipBlanks.skipBlanks_eq, result_perhaps, hend]
  cases e <;> rfl

/-- A choice without an assignment behind it stands alone. -/
theorem result_assignment (hready : Ready fuel c) (hn : Closes n.rest)
    (h : conditional.result (follow fuel) .free c = .matched (.ok e) n.skipBlanks) :
    Phrase.assignment.result (follow fuel) .free c = .matched (.ok e) n.skipBlanks :=
  result_assignment_of_arrow_failed (arrow_failed hready) hn.assignOperator_failed h

end ScriptTrace.Syntax
