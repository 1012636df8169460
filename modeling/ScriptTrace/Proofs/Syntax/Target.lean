import ScriptTrace.Proofs.Syntax.PlainPattern
import ScriptTrace.Proofs.Syntax.Recast

/-!
# Proofs/Syntax/Target — plain patterns read as expressions

Where a plain pattern stands, an expression is read up to the same place, and it stands for the
pattern; or none is read, and then the pattern is not built (`conditional_of_plain`).  The second
happens only in object patterns: the target of a property may be a pattern in brackets without a
key, which is refused later, and no expression is like that.
-/

namespace ScriptTrace.Syntax

open Grammar
open Grammar.Form
open Phrase

/-! ## What stands behind a target -/

/-- **An equals sign that assigns**, and begins no longer sign. -/
def Assigned (Y : List Char) : Prop :=
  ∃ X, Y = '=' :: X ∧ X.head? ≠ some '=' ∧ X.head? ≠ some '>'

/-- **What may stand behind a target**: the end of what it is part of, or an equals sign. -/
inductive Ends (Y : List Char) : Prop
  | closes (h : Closes Y)
  | assigned (h : Assigned Y)

section

variable {fuel : Nat} {c d m n : Cursor} {Y : List Char} {e : Built Expr}
  {call : {α : Type} → Rule α → Spacing → Cursor → Attempt α} {s : Spacing}

/-- A comma or a closing sign ends what stands before it. -/
theorem closes_of_head {y : Char} (hy : y = ']' ∨ y = '\x7d')
    (h : n.rest.head? = some ',' ∨ n.rest.head? = some y) : Closes n.rest := by
  obtain h | h := h <;> obtain ⟨X, hX⟩ := List.head?_eq_some_iff.mp h
  · exact hX ▸ .comma X
  · obtain rfl | rfl := hy
    · exact hX ▸ .bracket X
    · exact hX ▸ .brace X

/-- No longer sign stands there. -/
theorem Assigned.token_failed (h : Assigned n.rest) {w : String} {x : Char} {v : List Char}
    (hw : w.toList = '=' :: x :: v) (hx : x = '=' ∨ x = '>') :
    (token w : Phrase Unit).result call s n = .failed := by
  obtain ⟨X, hX, hequal, harrow⟩ := h
  refine result_token_absent w fun hstarts => ?_
  rw [hX, hw] at hstarts
  obtain ⟨Z, rfl⟩ := (List.cons_prefix_cons.mp hstarts).2
  obtain rfl | rfl := hx
  · exact hequal rfl
  · exact harrow rfl

theorem either_of_failed {α : Type} {f g : Phrase α} (h : f.result call s c = .failed) :
    (f <|> g).result call s c = g.result call s c := by
  rw [result_orElse, h, Outcome.orElse_failed]

theorem either_of_failed_right {α : Type} {f g : Phrase α} (h : g.result call s c = .failed) :
    (f <|> g).result call s c = f.result call s c := by
  rw [result_orElse, h]
  cases f.result call s c <;> rfl

/-- The sign of an assignment is no operator between operands. -/
theorem Assigned.between_failed (h : Assigned n.rest) : between.result call .free n = .failed := by
  have hstrict : (token "===" : Phrase Unit).result call .free n = .failed :=
    h.token_failed rfl (.inl rfl)
  have hloose : (token "==" : Phrase Unit).result call .free n = .failed :=
    h.token_failed rfl (.inl rfl)
  obtain ⟨X, hX, -⟩ := h
  obtain ⟨rest, o, p⟩ := n
  obtain rfl : rest = _ := hX
  unfold between
  iterate 18 (refine (either_of_failed ?_).trans ?_; swap)
  all_goals first
    | rfl
    | rw [result_fmap, result_named, hstrict, Outcome.map_failed]
    | rw [result_fmap, result_named, hloose, Outcome.map_failed]

/-- **The sign is read** where an assignment may go on. -/
theorem Assigned.result_assignOperator (h : Assigned n.rest) :
    assignOperator.result call .free n = .matched .plain n.step ∧ n.Over ['='] n.step := by
  obtain ⟨X, hX, hequal, harrow⟩ := h
  have hover : n.Over ['='] n.step := .of_append (w := ['=']) hX
  have hstep : n.step.rest = X := by rw [Cursor.rest_step, hX, List.tail_cons]
  have hfree : (Form.unless (token "=" <|> token ">") : Phrase Unit).result call .quiet n.step =
      .matched () n.step := by
    rw [result_unless, result_orElse, token_head (w := "=") rfl (hstep.symm ▸ hequal),
      Outcome.orElse_failed, token_head (w := ">") rfl (hstep.symm ▸ harrow)]
  have hplain :
      (token "=" <* .unless (token "=" <|> token ">") : Phrase Unit).result call .quiet n =
        .matched () n.step := by
    simp only [result_seqLeft, result_token "=" hover, Outcome.andThen_matched, Spacing.skip, hfree,
      Outcome.map_matched]
  refine ⟨?_, hover⟩
  rw [assignOperator, atom, result_named, result_spaced]
  obtain ⟨rest, o, p⟩ := n
  obtain rfl : rest = _ := hX
  iterate 9 (refine (either_of_failed ?_).trans ?_; swap)
  · rw [result_fmap, hplain, Outcome.map_matched]
  all_goals rfl

/-- What ends a target is no suffix of it. -/
theorem Ends.suffix_failed (h : Ends n.rest) (hn : n.IsSolid) :
    suffix.result (follow fuel) .free n = .failed := by
  cases h with
  | closes h => exact hn.skipBlanks_eq ▸ (Follows.closes h).suffix_failed
  | assigned h =>
    obtain ⟨rest, o, p⟩ := n
    obtain ⟨X, rfl, -⟩ := h
    rfl

/-- What ends a target does not count it up or down. -/
theorem Ends.updateOperator_failed (h : Ends n.rest) (hn : n.IsSolid) :
    updateOperator.result (follow fuel) .free n = .failed := by
  cases h with
  | closes h => exact hn.skipBlanks_eq ▸ (Follows.closes h).updateOperator_failed
  | assigned h =>
    obtain ⟨rest, o, p⟩ := n
    obtain ⟨X, rfl, -⟩ := h
    rfl

/-- What ends a target is no operator between operands. -/
theorem Ends.between_failed (h : Ends n.rest) (hn : n.IsSolid) :
    between.result (follow fuel) .free n = .failed := by
  cases h with
  | closes h => exact hn.skipBlanks_eq ▸ h.between_failed
  | assigned h => exact h.between_failed

/-- What ends a target is not a choice. -/
theorem Ends.question_failed (h : Ends n.rest) (hn : n.IsSolid) :
    (token "?" : Phrase Unit).result (follow fuel) .free n = .failed := by
  cases h with
  | closes h => exact hn.skipBlanks_eq ▸ h.question_failed
  | assigned h =>
    obtain ⟨X, hX, -⟩ := h
    exact token_other hX rfl (by decide)

/-- No arrow stands there. -/
theorem Ends.arrow_failed (h : Ends n.rest) :
    (token "=>" : Phrase Unit).result call .free n = .failed := by
  cases h with
  | closes h =>
    refine result_token_absent "=>" ?_
    rintro ⟨Z, hZ⟩
    rw [← hZ] at h
    cases h
  | assigned h => exact h.token_failed rfl (.inr rfl)

/-! ## An operand by itself -/

/-- An operand in front of such an end is all of the expression. -/
theorem conditional_of_head (hfront : frontOperator.result (follow fuel) .free c = .failed)
    (hhead : (newExpression <|> primary : Phrase (Built Expr)).result (follow fuel) .free c =
      .matched e m) (hc : c.IsSolid) (hm : Ends m.skipBlanks.rest) :
    conditional.result (follow fuel) .free c = .matched e m.skipBlanks := by
  have hsolid := m.isSolid_skipBlanks
  have hoperand : operand.result (follow fuel) .free c = .matched e m.skipBlanks := by
    simp only [operand, result_named, result_combine, hhead, Outcome.andThen_matched, Spacing.skip,
      result_many, hm.suffix_failed hsolid]
    cases e <;> rfl
  have hcounted : counted.result (follow fuel) .free c = .matched e m.skipBlanks := by
    simp only [counted, result_fmap, result_placed, result_named, result_both, hoperand,
      Outcome.andThen_matched, Spacing.skip, hsolid.skipBlanks_eq, result_perhaps,
      hm.updateOperator_failed hsolid]
    cases e <;> rfl
  have hunary : unary.result (follow fuel) .free c = .matched e m.skipBlanks := by
    simp only [unary, result_named, result_combine, result_many, result_placed, hfront,
      Outcome.map_failed, Outcome.andThen_failed, Outcome.orElse_failed, Outcome.andThen_matched,
      Spacing.skip, hc.skipBlanks_eq, hcounted]
    cases e <;> rfl
  exact result_conditional_of_binary (result_binary_of_unary hunary (hm.between_failed hsolid))
    (hm.question_failed hsolid)

/-- Where no operand begins, no expression does. -/
theorem conditional_failed (hfront : frontOperator.result (follow fuel) .free c = .failed)
    (hhead : (newExpression <|> primary : Phrase (Built Expr)).result (follow fuel) .free c =
      .failed) (hc : c.IsSolid) : conditional.result (follow fuel) .free c = .failed := by
  simp only [conditional, binary, unary, counted, operand, result_fmap, result_placed,
    result_named, result_both, result_combine, result_many, hfront, hhead, Outcome.map_failed,
    Outcome.andThen_failed, Outcome.orElse_failed, Outcome.andThen_matched, Spacing.skip,
    hc.skipBlanks_eq]

theorem assignment_failed (harrow : arrow.result (follow fuel) .free c = .failed)
    (h : conditional.result (follow fuel) .free c = .failed) :
    Phrase.assignment.result (follow fuel) .free c = .failed := by
  simp only [Phrase.assignment, plainOrAssigned, result_named, result_orElse, result_fmap,
    result_placed, result_both, harrow, h, Outcome.map_failed, Outcome.andThen_failed,
    Outcome.orElse_failed]

/-- **A value is assigned** to what stands in front of the sign. -/
theorem assignment_of_assigned {value : Built Expr}
    (harrow : arrow.result (follow fuel) .free c = .failed)
    (h : conditional.result (follow fuel) .free c = .matched e m.skipBlanks)
    (hm : Assigned m.skipBlanks.rest) (hd : m.skipBlanks.Over ['='] d)
    (hvalue : (follow fuel .assignment .free d.skipBlanks).outcome = .matched value n) :
    Phrase.assignment.result (follow fuel) .free c =
      .matched (e >>= fun left => Syntax.assignment c.position left .plain value) n := by
  obtain ⟨hsign, hover⟩ : assignOperator.result (follow fuel) .free m.skipBlanks =
      .matched .plain m.skipBlanks.step ∧ m.skipBlanks.Over ['='] m.skipBlanks.step :=
    hm.result_assignOperator
  obtain rfl : d = m.skipBlanks.step := hd.eq_advance.trans hover.eq_advance.symm
  simp only [Phrase.assignment, plainOrAssigned, result_named, result_orElse, result_fmap,
    result_placed, result_both, harrow, h, hsign, Outcome.andThen_matched, Outcome.orElse_failed,
    Spacing.skip, m.isSolid_skipBlanks.skipBlanks_eq, result_perhaps, result_rule, hvalue,
    Outcome.map_matched, Outcome.orElse_matched]

/-! ## Literals -/

/-- **In front of a bracket** there is an array, if anything. -/
theorem operand_of_bracket (fuel : Nat) (h : c.rest = '[' :: Y) :
    frontOperator.result (follow (fuel + 1)) .free c = .failed ∧
    arrow.result (follow (fuel + 1)) .free c = .failed ∧
    (newExpression <|> primary : Phrase (Built Expr)).result (follow (fuel + 1)) .free c =
      (atPlace arrayLiteral).result (follow (fuel + 1)) .free c := by
  obtain ⟨rest, o, p⟩ := c
  obtain rfl : rest = _ := h
  refine ⟨rfl, rfl, ?_⟩
  unfold primary
  iterate 5 (refine (either_of_failed ?_).trans ?_; swap)
  · exact either_of_failed_right rfl
  all_goals rfl

/-- **In front of a brace** there is an object, if anything. -/
theorem operand_of_brace (fuel : Nat) (h : c.rest = '\x7b' :: Y) :
    frontOperator.result (follow (fuel + 1)) .free c = .failed ∧
    arrow.result (follow (fuel + 1)) .free c = .failed ∧
    (newExpression <|> primary : Phrase (Built Expr)).result (follow (fuel + 1)) .free c =
      (atPlace objectLiteral).result (follow (fuel + 1)) .free c := by
  obtain ⟨rest, o, p⟩ := c
  obtain rfl : rest = _ := h
  refine ⟨rfl, rfl, ?_⟩
  unfold primary
  iterate 6 (refine (either_of_failed ?_).trans ?_; swap)
  · exact either_of_failed_right rfl
  all_goals rfl

end

/-! ## Targets -/

/-- **What is read in the place of a target**: an expression that stands for it, or nothing if the
target is not built. -/
def ReadsTarget (fuel : Nat) (c n : Cursor) (target : Built Pattern) : Prop :=
  (∃ e, conditional.result (follow fuel) .free c = .matched e n.skipBlanks ∧ Recast target e) ∨
  (∀ p, target ≠ .ok p) ∧ conditional.result (follow fuel) .free c = .failed

/-- Every plain pattern from `d` on is read so. -/
def ReadsTargets (fuel k : Nat) (d : Cursor) : Prop :=
  ∀ ⦃c n target⦄, d ≤ c → (readPlain k .free c).outcome = .matched target n →
    Ends n.skipBlanks.rest → ReadsTarget fuel c n target

section

variable {fuel k : Nat} {c d m n : Cursor} {Y : List Char} {target : Built Pattern}
  {call : {α : Type} → Rule α → Spacing → Cursor → Attempt α}

/-- No function starts where a plain pattern stands, unless there is an arrow behind. -/
theorem arrow_failed_of_plain (h : (readPlain k .free c).outcome = .matched target n)
    (hn : Ends n.skipBlanks.rest) : arrow.result (follow fuel) .free c = .failed := by
  cases k with
  | zero => cases h
  | succ k =>
    obtain ⟨x, hname, -⟩ | ⟨m, vs, hopen, -, -⟩ | ⟨m, vs, hopen, -, -⟩ :=
      exists_of_plain (follow fuel) h
    · simp only [arrow, arrowParameters, result_fmap, result_placed, result_named, result_both,
        result_seqLeft, result_orElse, hname, Outcome.map_matched, Outcome.orElse_matched,
        Outcome.andThen_matched, Spacing.skip, hn.arrow_failed, Outcome.map_failed,
        Outcome.andThen_failed]
    · have hrest := hopen.rest_eq
      obtain ⟨rest, o, p⟩ := c
      obtain rfl : rest = _ := hrest
      rfl
    · have hrest := hopen.rest_eq
      obtain ⟨rest, o, p⟩ := c
      obtain rfl : rest = _ := hrest
      rfl

/-- A default value is an equals sign with a value behind it. -/
theorem exists_of_fallback {value : Built Expr}
    (h : fallback.result call .free c = .matched value n) :
    ∃ d, c.Over ['='] d ∧ Assigned c.rest ∧
      (call .assignment .free d.skipBlanks).outcome = .matched value n := by
  rw [fallback, result_seqRight, result_seqRight, Outcome.andThen_eq_matched] at h
  obtain ⟨_, e, h, hvalue⟩ := h
  rw [Outcome.andThen_eq_matched] at h
  obtain ⟨_, d, hsign, hfree⟩ := h
  have hover : c.Over ['='] d := over_of_token hsign
  rw [result_unless, result_orElse] at hfree
  split at hfree <;> cases hfree
  rename_i hfree
  have hlonger {x : Char} {w : String} (hw : w.toList = [x]) (hx : isSpace x = false ∧ x ≠ '/')
      (hread : (token w : Phrase Unit).result call .quiet (Spacing.free.skip d) = .failed) :
      d.rest.head? ≠ some x := by
    intro hhead
    obtain ⟨X, hX⟩ := List.head?_eq_some_iff.mp hhead
    have hsolid : d.IsSolid := Cursor.isSolid_of_cons hX hx.1 hx.2
    rw [Spacing.skip, hsolid.skipBlanks_eq,
      result_token w (.of_append (w := w.toList) (by rw [hw, hX]; rfl))] at hread
    cases hread
  cases hequal : (token "=" : Phrase Unit).result call .quiet (Spacing.free.skip d) with
  | failed =>
    rw [hequal, Outcome.orElse_failed] at hfree
    refine ⟨d, hover, ⟨d.rest, hover.rest_eq, hlonger rfl (by decide) hequal,
      hlonger rfl (by decide) hfree⟩, ?_⟩
    rwa [Spacing.skip, Spacing.skip, d.isSolid_skipBlanks.skipBlanks_eq] at hvalue
  | matched | exhausted =>
    rw [hequal] at hfree
    cases hfree

/-- **A target by itself** is the whole expression. -/
theorem ReadsTarget.assignment (h : ReadsTarget fuel c n target)
    (harrow : arrow.result (follow fuel) .free c = .failed) (hn : Closes n.skipBlanks.rest) :
    (∃ e, Phrase.assignment.result (follow fuel) .free c = .matched e n.skipBlanks ∧
      Recast target e) ∨
    (∀ p, target ≠ .ok p) ∧ Phrase.assignment.result (follow fuel) .free c = .failed := by
  obtain ⟨e, hread, hcast⟩ | ⟨hdead, hfailed⟩ := h
  · have hend : assignOperator.result (follow fuel) .free n.skipBlanks = .failed :=
      n.isSolid_skipBlanks.skipBlanks_eq ▸ hn.assignOperator_failed
    exact .inl ⟨e, result_assignment_of_arrow_failed harrow hend hread, hcast⟩
  · exact .inr ⟨hdead, assignment_failed harrow hfailed⟩

theorem elementOf_none (target : Built Pattern) :
    elementOf target none = do return .mk (← target) none := by
  cases target <;> rfl

theorem elementOf_some (target : Built Pattern) (value : Built Expr) :
    elementOf target (some value) = do return .mk (← target) (some (← value)) := by
  cases target <;> cases value <;> rfl

/-- **A target with a default** is an assignment. -/
theorem assignment_of_element (h : ReadsTargets fuel k d) (hroom : Roomy fuel d) (hc : d ≤ c)
    {v : Built PatternElement} (hread : element.result (followPlain k) .free c = .matched v n)
    (hn : Closes n.skipBlanks.rest) :
    (∃ e m, Phrase.assignment.result (follow fuel) .free c = .matched e m ∧
      m.skipBlanks = n.skipBlanks ∧ RecastElement v e) ∨
    (∀ u, v ≠ .ok u) ∧ Phrase.assignment.result (follow fuel) .free c = .failed := by
  obtain ⟨target, m, value, htarget, hvalue, rfl⟩ := exists_of_element hread
  have hle : c ≤ m := (advancing_followPlain k .pattern _ _ _ _ htarget).le
  rw [result_perhaps, Outcome.orElse_eq_matched] at hvalue
  have hdead (hdead : ∀ p, target ≠ .ok p) (u : PatternElement) :
      elementOf target value ≠ .ok u := by
    intro hu
    obtain ⟨p, hp, -⟩ := bind_eq_ok.mp hu
    exact hdead p hp
  obtain hvalue | ⟨-, hvalue⟩ := hvalue
  · obtain ⟨source, hfallback, rfl⟩ := Outcome.map_eq_matched.mp hvalue
    obtain ⟨e, hover, hsign, hsource⟩ := exists_of_fallback hfallback
    have harrow : arrow.result (follow fuel) .free c = .failed :=
      arrow_failed_of_plain htarget (.assigned hsign)
    have hsource' : (follow fuel .assignment .free e.skipBlanks).outcome = .matched source n :=
      (hroom.mono (hc.trans (hle.trans (m.le_skipBlanks.trans
        (hover.le.trans e.le_skipBlanks))))).result_eq (f := .rule .assignment) (by decide)
        hsource nofun
    obtain ⟨left, hleft, hcast⟩ | ⟨hnone, hfailed⟩ := h hc htarget (.assigned hsign)
    · refine .inl ⟨_, n, assignment_of_assigned harrow hleft hsign hover hsource', rfl, ?_⟩
      rw [elementOf_some]
      exact hcast.assigned _ _
    · exact .inr ⟨hdead hnone, assignment_failed harrow hfailed⟩
  · cases hvalue
    rw [m.isSolid_skipBlanks.skipBlanks_eq] at hn
    have harrow : arrow.result (follow fuel) .free c = .failed :=
      arrow_failed_of_plain htarget (.closes hn)
    obtain ⟨e, he, hcast⟩ | ⟨hnone, hfailed⟩ :=
      (h hc htarget (.closes hn)).assignment harrow hn
    · refine .inl ⟨e, m.skipBlanks, he, rfl, ?_⟩
      rw [elementOf_none]
      exact hcast.element
    · exact .inr ⟨hdead hnone, hfailed⟩

/-- **A rest** is a spread. -/
theorem spread_of_rest (h : ReadsTargets fuel k d) (hc : d ≤ c)
    (hread : restTarget.result (followPlain k) .free c = .matched target n)
    (hn : Closes n.skipBlanks.rest) :
    (∃ e, spread.result (follow (fuel + 1)) .free c = .matched e n.skipBlanks ∧ Recast target e) ∨
    (∀ p, target ≠ .ok p) ∧ spread.result (follow (fuel + 1)) .free c = .failed := by
  obtain ⟨e, hdots, htarget⟩ := exists_of_restTarget hread
  have harrow : arrow.result (follow fuel) .free e.skipBlanks = .failed :=
    arrow_failed_of_plain htarget (.closes hn)
  have hspread : spread.result (follow (fuel + 1)) .free c =
      Phrase.assignment.result (follow fuel) .free e.skipBlanks := by
    rw [spread, result_named, result_seqRight, result_token "..." hdots, Outcome.andThen_matched,
      result_rule_succ, Spacing.skip, Rule.phrase]
  rw [hspread]
  exact (h (hc.trans (hdots.le.trans e.le_skipBlanks)) htarget (.closes hn)).assignment harrow hn

/-- No expression starts with dots. -/
theorem assignment_failed_of_dots (hroom : Roomy fuel c) (h : c.Over ['.', '.', '.'] n) :
    Phrase.assignment.result (follow fuel) .free c = .failed := by
  obtain ⟨fuel, rfl, -⟩ := hroom.inside h.lt
  have hrest := h.rest_eq
  obtain ⟨rest, o, p⟩ := c
  obtain rfl : rest = _ := hrest
  rfl

/-- **A plain place is an element of a literal that can be recast.** -/
theorem recasts_argument (h : ReadsTargets fuel k d) (hroom : Roomy fuel d) :
    Recasts (followPlain k) (follow (fuel + 1)) ']' d plainSlot Phrase.argument RecastSlot
      DeadSlot where
  advancing := advancing_followPlain k
  advancing' := advancing_follow (fuel + 1)
  mark := by decide
  item c m v hc hread hhead := by
    have hm : Closes m.skipBlanks.rest := closes_of_head (.inl rfl) hhead
    rw [Phrase.argument, result_orElse, result_fmap, result_fmap]
    obtain ⟨target, hrest, rfl⟩ | ⟨value, helement, rfl⟩ := exists_of_plainSlot hread
    · obtain ⟨e, hspread, hcast⟩ | ⟨hdead, hfailed⟩ := spread_of_rest h hc hrest hm
      · rw [hspread]
        exact .inl ⟨_, _, rfl, m.isSolid_skipBlanks.skipBlanks_eq, .rest c.position hcast⟩
      · obtain ⟨e, hdots, -⟩ := exists_of_restTarget hrest
        refine .inr ⟨.rest c.position hdead, .inl ?_⟩
        rw [hfailed, result_rule_succ]
        exact congrArg (Outcome.map _) (assignment_failed_of_dots (hroom.mono hc) hdots)
    · obtain ⟨target, e, fallback, htarget, -⟩ := exists_of_element helement
      rw [spread, result_named, result_seqRight, token_failed_of_plain htarget rfl (by decide),
        result_rule_succ]
      obtain ⟨e, m', hread, hskip, hcast⟩ | ⟨hdead, hfailed⟩ :=
        assignment_of_element h hroom hc helement hm
      · exact .inl ⟨_, m', congrArg (Outcome.map _) hread, hskip, .element c.position hcast⟩
      · exact .inr ⟨.element c.position hdead, .inl (congrArg (Outcome.map _) hfailed)⟩
  ends c hc hhead := ⟨fun _ _ => plainSlot_ne_matched hhead,
    Roomy.result_failed ((hroom.mono hc).trans (Nat.le_succ fuel)) (.inl rfl) hhead (by decide)
      (by decide) (by decide)⟩

/-- Behind dots there is a spread or no property at all. -/
theorem property_failed_of_dots (hroom : Roomy fuel c) (h : c.Over ['.', '.', '.'] n)
    (hspread : spread.result (follow fuel) .free c = .failed) :
    property.result (follow fuel) .free c = .failed := by
  obtain ⟨fuel, rfl, -⟩ := hroom.inside h.lt
  rw [property, result_orElse, result_fmap, hspread, Outcome.map_failed, Outcome.orElse_failed]
  have hrest := h.rest_eq
  obtain ⟨rest, o, p⟩ := c
  obtain rfl : rest = _ := hrest
  rfl

/-- A target without a key is a name, or nothing. -/
theorem property_of_bare (hroom : Roomy fuel c)
    (h : (readPlain k .free c).outcome = .matched target n)
    (hn : n.skipBlanks.rest.head? = some ',' ∨ n.skipBlanks.rest.head? = some '\x7d') :
    property.result (follow fuel) .free c = shorthandProperty.result (follow fuel) .free c := by
  have hmark {w : String} {x : Char} (hw : w.toList = [x]) (hx : x ≠ ',' ∧ x ≠ '\x7d') :
      (token w : Phrase Unit).result (follow fuel) .free n.skipBlanks = .failed := by
    refine token_head hw fun hhead => ?_
    rw [hhead] at hn
    obtain hn | hn := hn
    · exact hx.1 (Option.some.inj hn)
    · exact hx.2 (Option.some.inj hn)
  have hmethod {g : Built Key → Built FunctionTail → Built Key × Built FunctionTail} :
      ((key.result (follow fuel) .free c).andThen fun v e =>
        (functionTail.result (follow fuel) .free e.skipBlanks).map (g v)) = .failed := by
    refine key_andThen_failed hroom h fun v => ?_
    simp only [functionTail, result_combine, result_seqLeft, result_seqRight,
      hmark (w := "(") rfl (by decide), Outcome.andThen_failed, Outcome.map_failed]
  have hkeyed : ((key.result (follow fuel) .free c).andThen fun v e =>
      ((token ":" : Phrase Unit).result (follow fuel) .free e.skipBlanks).map fun _ => v) =
        .failed := by
    refine key_andThen_failed hroom h fun v => ?_
    rw [hmark (w := ":") rfl (by decide), Outcome.map_failed]
  simp only [property, spread, method, keyedProperty, result_orElse, result_fmap, result_named,
    result_placed, result_both, result_combine, result_seqLeft, result_seqRight,
    token_failed_of_plain h (w := "...") rfl (by decide), Spacing.skip, hmethod, hkeyed,
    Outcome.andThen_failed, Outcome.map_failed, Outcome.orElse_failed]

/-- **A plain property is a property of a literal that can be recast.** -/
theorem recasts_objectProperty (h : ReadsTargets fuel k d) (hroom : Roomy fuel d) :
    Recasts (followPlain k) (follow (fuel + 1)) '\x7d' d plainProperty property RecastProperty
      DeadProperty where
  advancing := advancing_followPlain k
  advancing' := advancing_follow (fuel + 1)
  mark := by decide
  item c m v hc hread hhead := by
    have hm : Closes m.skipBlanks.rest := closes_of_head (.inr rfl) hhead
    have hroom' : Roomy (fuel + 1) c := (hroom.mono hc).trans (Nat.le_succ fuel)
    obtain ⟨target, hrest, rfl⟩ | ⟨key, e, f, value, hkey, hcolon, helement, rfl⟩ |
      ⟨target, htarget, rfl⟩ := exists_of_plainProperty hread
    · obtain ⟨e, hspread, hcast⟩ | ⟨hdead, hfailed⟩ := spread_of_rest h hc hrest hm
      · rw [property, result_orElse, result_fmap, hspread]
        exact .inl ⟨_, _, rfl, m.isSolid_skipBlanks.skipBlanks_eq, .rest c.position hcast⟩
      · obtain ⟨e, hdots, -⟩ := exists_of_restTarget hrest
        exact .inr ⟨.rest c.position hdead, .inl (property_failed_of_dots hroom' hdots hfailed)⟩
    · have hkey' := hroom'.result_eq (by decide) hkey (by simp)
      have hle : c ≤ f.skipBlanks := (le_of_matched (advancing_follow k) hkey).trans <|
        e.le_skipBlanks.trans <| hcolon.le.trans f.le_skipBlanks
      rw [result_property_of_colon hkey' hcolon, result_rule_succ]
      obtain ⟨w, m', hread, hskip, hcast⟩ | ⟨hdead, hfailed⟩ :=
        assignment_of_element h hroom (hc.trans hle) helement hm
      · exact .inl ⟨_, m', congrArg (fun o => (Outcome.map _ o).orElse _) hread, hskip,
          .keyed c.position key hcast⟩
      · refine .inr ⟨.keyed c.position key hdead, ?_⟩
        have hfailed' : Rule.assignment.phrase.result (follow fuel) .free f.skipBlanks = .failed :=
          hfailed
        rw [hfailed', Outcome.map_failed, Outcome.orElse_failed, shorthandProperty, result_fmap,
          result_placed, result_named]
        -- The name by itself is read, and the colon stands behind it.
        cases hname : name.result (follow (fuel + 1)) .free c with
        | matched x j =>
          obtain rfl := end_of_key_of_name hname hkey'
          exact .inr ⟨_, e, rfl, by rw [hcolon.rest_eq]; rfl⟩
        | failed => exact .inl rfl
        | exhausted => exact absurd hname (hroom'.result_ne_exhausted (by decide))
    · rw [property_of_bare hroom' htarget hhead, shorthandProperty, result_fmap, result_placed,
        result_named]
      cases k with
      | zero => cases htarget
      | succ k =>
        obtain ⟨x, hname, rfl⟩ | ⟨e, vs, hopen, rfl, -⟩ | ⟨e, vs, hopen, rfl, -⟩ :=
          exists_of_plain (follow (fuel + 1)) htarget
        · rw [hname]
          exact .inl ⟨_, m, rfl, rfl, .shorthand c.position c.position x⟩
        · rw [name_failed_of_bracket hopen.rest_eq (.inl rfl)]
          exact .inr ⟨deadProperty_shorthand arrayPattern_ne_name c.position, .inl rfl⟩
        · rw [name_failed_of_bracket hopen.rest_eq (.inr rfl)]
          exact .inr ⟨deadProperty_shorthand objectPattern_ne_name c.position, .inl rfl⟩
  ends c hc hhead := ⟨fun _ _ => plainProperty_ne_matched hhead,
    Roomy.result_failed ((hroom.mono hc).trans (Nat.le_succ fuel)) (.inr rfl) hhead (by decide)
      (by decide) (by decide)⟩

/-! ## Plain patterns -/

/-- A name is recast as itself. -/
theorem recast_name (x : String) (p : Position) :
    Recast (.ok (.name x)) (.ok (.mk (.name x) p)) where
  iff v := by
    constructor
    · intro hv
      exact ⟨_, rfl, hv⟩
    · rintro ⟨_, he, hv⟩
      cases he
      exact hv
  bare e he := by
    cases he
    rfl

/-- What is between brackets decides about the whole operand. -/
theorem readsTarget_of_literal {f : Phrase (Built ExprNode)} (hc : c.IsSolid)
    (hfront : frontOperator.result (follow fuel) .free c = .failed)
    (hhead : (newExpression <|> primary : Phrase (Built Expr)).result (follow fuel) .free c =
      (atPlace f).result (follow fuel) .free c) (hn : Ends n.skipBlanks.rest)
    (h : (∃ node, f.result (follow fuel) .free c = .matched node n ∧
        Recast target (node.map (.mk · c.position))) ∨
      (∀ p, target ≠ .ok p) ∧ f.result (follow fuel) .free c = .failed) :
    ReadsTarget fuel c n target := by
  rw [atPlace, result_fmap, result_placed] at hhead
  obtain ⟨node, hread, hcast⟩ | ⟨hdead, hfailed⟩ := h
  · rw [hread] at hhead
    exact .inl ⟨_, conditional_of_head hfront hhead hc hn, hcast⟩
  · rw [hfailed] at hhead
    exact .inr ⟨hdead, conditional_failed hfront hhead hc⟩

/-- **Where a plain pattern stands there is an expression for it**, or none at all, and then the
pattern is not built. -/
theorem conditional_of_plain (h : (readPlain k .free c).outcome = .matched target n)
    (hroom : Roomy fuel c) (hn : Ends n.skipBlanks.rest) : ReadsTarget fuel c n target := by
  induction k generalizing fuel c n target with
  | zero => cases h
  | succ k ih =>
    have hinside {d : Cursor} (hd : c < d) :
        ∃ room, fuel = room + 1 ∧ Roomy room d ∧ ReadsTargets room k d := by
      obtain ⟨room, hfuel, hroom'⟩ := hroom.inside hd
      exact ⟨room, hfuel, hroom', fun _ _ _ hle hplain => ih hplain (hroom'.mono hle)⟩
    obtain ⟨x, hname, rfl⟩ | ⟨m, vs, hopen, rfl, hlist⟩ | ⟨m, vs, hopen, rfl, hlist⟩ :=
      exists_of_plain (follow fuel) h
    · obtain ⟨hword, hfree, hover, hbounds⟩ := over_of_name (advancing_follow fuel) hname
      have hroom' : rulesPerPlace * c.rest.length < fuel := by
        unfold Roomy rulesPerPlace at hroom
        unfold rulesPerPlace
        omega
      obtain ⟨hfront, hhead⟩ := head_of_name ⟨hword, hfree⟩ hroom' hover hbounds
      refine .inl ⟨_, conditional_of_head hfront hhead ?_ hn, recast_name x _⟩
      exact (isFormulaText_word hword).isSolid hover
    · obtain ⟨room, rfl, hroom', htargets⟩ := hinside hopen.lt
      obtain ⟨hfront, -, hhead⟩ := operand_of_bracket room hopen.rest_eq
      have hliteral : arrayLiteral.result (follow (room + 1)) .free c =
          ((listed Phrase.argument "]").result (follow (room + 1)) .free m.skipBlanks).map
            fun elements => (allBuilt elements).map ExprNode.array := by
        rw [arrayLiteral, result_fmap, result_named, result_bracketed_list, result_token "[" hopen,
          Outcome.andThen_matched]
      refine readsTarget_of_literal (Cursor.isSolid_of_cons hopen.rest_eq rfl (by decide)) hfront
        hhead hn ?_
      rw [hliteral]
      obtain ⟨ws, hread, hall⟩ | ⟨hdead, hfailed⟩ :=
        listed_recast (recasts_argument htargets hroom') rfl m.le_skipBlanks m.isSolid_skipBlanks
          hlist
      · exact .inl ⟨_, congrArg (Outcome.map _) hread, recast_array hall c.position⟩
      · exact .inr ⟨arrayPattern_of_dead hdead, congrArg (Outcome.map _) hfailed⟩
    · obtain ⟨room, rfl, hroom', htargets⟩ := hinside hopen.lt
      obtain ⟨hfront, -, hhead⟩ := operand_of_brace room hopen.rest_eq
      have hliteral : objectLiteral.result (follow (room + 1)) .free c =
          ((listed property "\x7d").result (follow (room + 1)) .free m.skipBlanks).map
            fun properties => (allBuilt properties).map ExprNode.object := by
        change ((fun properties => (allBuilt properties).map ExprNode.object) <$>
          (.named (token "\x7b" *> commaList property <* token "\x7d") : Phrase _)).result
            (follow (room + 1)) .free c = _
        rw [result_fmap, result_named, result_bracketed_list, result_token "\x7b" hopen,
          Outcome.andThen_matched]
      refine readsTarget_of_literal (Cursor.isSolid_of_cons hopen.rest_eq rfl (by decide)) hfront
        hhead hn ?_
      rw [hliteral]
      obtain ⟨ws, hread, hall⟩ | ⟨hdead, hfailed⟩ :=
        listed_recast (recasts_objectProperty htargets hroom') rfl m.le_skipBlanks
          m.isSolid_skipBlanks hlist
      · exact .inl ⟨_, congrArg (Outcome.map _) hread, recast_object hall c.position⟩
      · exact .inr ⟨objectPattern_of_dead hdead, congrArg (Outcome.map _) hfailed⟩

end

end ScriptTrace.Syntax
