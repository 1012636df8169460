import ScriptTrace.Proofs.Syntax.Portable
import ScriptTrace.Proofs.Syntax.Word

/-!
# Proofs/Syntax/Line — what statements that end with their line look at

A `return`, a `break` and a `continue` skip the spaces of their line by themselves
(`result_lineSpaces`), and a `return` looks for the end of its line there (`result_endsReturn`).  A
value that stands behind more blanks than these begins with its operand: no front operator and no
arrow function is read across them (`alike_behind_blanks`).
-/

namespace ScriptTrace.Syntax

open Grammar
open Grammar.Form
open Phrase

variable {call : {α : Type} → Rule α → Spacing → Cursor → Attempt α} {c c' n : Cursor}
  {fuel fuel' : Nat} {s : Spacing}

/-! ## The spaces of a line -/

/-- Space that does not end a line. -/
def isLineSpace (x : Char) : Bool := x = ' ' || x = '\t'

/-- The spaces of the line at the front of a text. -/
def lineSpaces (cs : List Char) : List Char := cs.takeWhile isLineSpace

/-- What stands behind them. -/
def lineRest (cs : List Char) : List Char := cs.dropWhile isLineSpace

/-- The cursor behind the spaces of the line. -/
def skipLine (c : Cursor) : Cursor := c.advance (lineSpaces c.rest).length

theorem over_skipLine (c : Cursor) : c.Over (lineSpaces c.rest) (skipLine c) :=
  .of_append (X := lineRest c.rest) List.takeWhile_append_dropWhile.symm

theorem isSpace_of_isLineSpace {x : Char} (hx : isLineSpace x = true) :
    isSpace x = true ∧ x ≠ '\n' := by
  simp only [isLineSpace, Bool.or_eq_true, decide_eq_true_eq] at hx
  obtain rfl | rfl := hx <;> decide

theorem isLineSpace_of_mem {x : Char} {cs : List Char} (hx : x ∈ lineSpaces cs) :
    isLineSpace x = true := List.all_eq_true.mp List.all_takeWhile x hx

theorem rest_skipLine (c : Cursor) : (skipLine c).rest = lineRest c.rest := by
  have hover := (over_skipLine c).rest_eq
  have hsplit := List.takeWhile_append_dropWhile (p := isLineSpace) (l := c.rest)
  exact List.append_cancel_left (hover.symm.trans hsplit.symm)

/-- Blanks are skipped in one go or in two. -/
theorem skipBlanks_advance {k : Nat} (h : blankLength c.rest = k + blankLength (c.rest.drop k)) :
    (c.advance k).skipBlanks = c.skipBlanks := by
  rw [Cursor.skipBlanks, Cursor.skipBlanks, h, Cursor.advance_add, Cursor.rest_advance]

/-- The spaces of a line are blanks. -/
theorem skipBlanks_skipLine : (skipLine c).skipBlanks = c.skipBlanks := by
  refine skipBlanks_advance ?_
  have hspaces : (lineSpaces c.rest).all isSpace = true :=
    List.all_eq_true.mpr fun x hx => (isSpace_of_isLineSpace (isLineSpace_of_mem hx)).1
  have hlength := blankLength_spaces hspaces (skipLine c).rest
  rwa [← (over_skipLine c).rest_eq, skipLine, Cursor.rest_advance] at hlength

/-- Behind the space of a line there is no more of it. -/
theorem lineSpace_failed : lineSpace.again call .tight (skipLine c) = .failed := by
  change lineSpace.result call .tight (skipLine c) = _
  rw [lineSpace, result_one, rest_skipLine]
  split
  · rfl
  · rename_i x rest hrest
    have hx : isLineSpace x = false := by
      have hhead := List.head?_dropWhile_not isLineSpace c.rest
      rw [show c.rest.dropWhile isLineSpace = x :: rest from hrest] at hhead
      simpa using hhead
    exact if_neg (by simpa [isLineSpace] using hx)

/-- **The spaces of a line are read** where no blanks are skipped. -/
theorem result_lineSpaces (hcall : Advancing call) :
    (Form.many lineSpace).result call .tight c = .matched (lineSpaces c.rest) (skipLine c) := by
  have hruns : Runs (lineSpace.again call .tight) c (lineSpaces c.rest) (skipLine c) :=
    runs_one nofun List.all_takeWhile (over_skipLine c)
  exact many_of_runs hcall rfl hruns lineSpace_failed rfl

/-- At least one of them, if there is one. -/
theorem result_atLeastOne_lineSpace (hcall : Advancing call) :
    (atLeastOne lineSpace).result call .tight c =
      if lineSpaces c.rest = [] then .failed else .matched (lineSpaces c.rest) (skipLine c) := by
  rw [atLeastOne, result_combine, lineSpace, result_one]
  cases hrest : c.rest with
  | nil => rfl
  | cons x rest =>
    cases hx : isLineSpace x with
    | false =>
      have hx' : ¬ (x = ' ' || x = '\t') = true := by simpa [isLineSpace] using hx
      simp only [lineSpaces, List.takeWhile_cons, hx, if_neg hx']
      rfl
    | true =>
      have hmore := result_lineSpaces (c := c.step) hcall
      have hend : skipLine c = skipLine c.step := by
        rw [skipLine, skipLine, Cursor.rest_step, hrest, List.tail_cons, lineSpaces,
          List.takeWhile_cons_of_pos hx, List.length_cons, Cursor.advance_succ, lineSpaces]
      rw [lineSpace] at hmore
      have hx' : (x = ' ' || x = '\t') = true := hx
      simp only [lineSpaces, List.takeWhile_cons, hx, hx', if_true, Outcome.andThen_matched,
        Spacing.skip, hmore, Cursor.rest_step, hrest, List.tail_cons, hend]
      rfl

/-! ## The end of a line -/

/-- What a `return` has no value in front of. -/
def lineEnds : List String := ["\n", "\r", "\x7d", ";", "//"]

/-- Whether one of them stands at the front of a text. -/
def endsLine (cs : List Char) : Bool := lineEnds.any (·.toList.isPrefixOf cs)

/-- Two characters tell, and one of them if it is no slash. -/
theorem endsLine_front {x : Char} {t X Y : List Char} (h : t = [] → x ≠ '/') :
    endsLine (x :: t ++ X) = endsLine (x :: t ++ Y) := by
  cases t with
  | nil =>
    have hslash : ('/' == x) = false := beq_eq_false_iff_ne.mpr (Ne.symm (h rfl))
    simp [endsLine, lineEnds, List.isPrefixOf, hslash]
  | cons y t => simp [endsLine, lineEnds, List.isPrefixOf]

/-- Whether a value may follow is decided by the next characters. -/
theorem result_endsReturn :
    (Form.unless endsReturn).result call s c =
      if endsLine c.rest then .failed else .matched () c := by
  have hmark (w : String) : (token w : Phrase Unit).result call .quiet c =
      if w.toList.isPrefixOf c.rest then .matched () (c.advance w.toList.length) else .failed := by
    rw [token, result_word, Cursor.after?]
    cases w.toList.isPrefixOf c.rest <;> rfl
  have heither {p q : Bool} {m n : Cursor} :
      (if p then Outcome.matched () m else .failed).orElse
        (fun _ => if q then .matched () n else .failed) =
      if p || q then .matched () (if p then m else n) else .failed := by
    cases p <;> cases q <;> rfl
  simp only [result_unless, endsReturn, result_orElse, hmark, heither, endsLine, lineEnds,
    List.any_cons, List.any_nil, Bool.or_false]
  split <;> split <;> simp_all

/-! ## The parts of the statements -/

/-- The value of a `return`, if no end of its line is in front. -/
def returnValue : Phrase (Option (Built Expr)) :=
  .perhaps (.many lineSpace *> .unless endsReturn *> .spaced .free (.named (.rule .expression)))

/-- The label of a jump, if one stands in the line. -/
def jumpLabel : Phrase (Option String) := .perhaps (atLeastOne lineSpace *> name)

/-- A `return` is its word, its value and a semicolon, in one line. -/
theorem result_returned :
    Phrase.returned.result call s c =
      (keyword "return" *> returnValue <* lineSemicolon).result call .tight c := by
  rw [Phrase.returned, result_spaced, result_named, returnValue]

theorem result_jump (w : String) :
    (jump w).result call s c = (keyword w *> jumpLabel <* lineSemicolon).result call .tight c := by
  rw [jump, result_spaced, result_named, jumpLabel]

variable (hcall : Advancing call)
include hcall

/-- A semicolon may stand behind space within the line. -/
theorem result_lineSemicolon :
    lineSemicolon.result call .tight c =
      (((token ";" : Phrase Unit).result call .tight (skipLine c)).map some).orElse
        fun _ => .matched none c := by
  rw [lineSemicolon, result_perhaps, result_seqRight, result_lineSpaces hcall,
    Outcome.andThen_matched]
  rfl

/-- A `return` has a value unless its line ends first. -/
theorem result_returnValue :
    returnValue.result call .tight c =
      if endsLine (lineRest c.rest) then .matched none c
      else ((call .expression .free (skipLine c)).outcome.map some).orElse
        fun _ => .matched none c := by
  rw [returnValue, result_perhaps, result_seqRight, result_seqRight, result_lineSpaces hcall,
    Outcome.andThen_matched]
  simp only [Spacing.skip, result_endsReturn, rest_skipLine]
  split
  · rfl
  · rw [Outcome.andThen_matched, result_spaced, result_named]
    rfl

/-- A label stands behind space within the line. -/
theorem result_jumpLabel :
    jumpLabel.result call .tight c =
      if lineSpaces c.rest = [] then .matched none c
      else ((name.result call .tight (skipLine c)).map some).orElse fun _ => .matched none c := by
  rw [jumpLabel, result_perhaps, result_seqRight, result_atLeastOne_lineSpace hcall]
  split
  · rfl
  · rw [Outcome.andThen_matched]
    rfl

omit hcall

/-! ## Values behind blanks -/

/-- **Neither a front operator nor an arrow function** stands here. -/
structure Bare (c : Cursor) : Prop where
  front : ∀ {fuel : Nat} {v : PrefixOperator} {n : Cursor},
    frontOperator.result (follow fuel) .free c ≠ .matched v n
  arrow : ∀ {fuel : Nat} {v : Built Expr} {n : Cursor},
    Phrase.arrow.result (follow fuel) .free c ≠ .matched v n

/-- No front operator is read there, unless the reading is given up. -/
theorem Bare.many_front (hc : Bare c) (fuel : Nat) :
    (Form.many (placed (.named frontOperator))).result (follow fuel) .free c = .matched [] c ∨
    (Form.many (placed (.named frontOperator))).result (follow fuel) .free c = .exhausted := by
  rw [result_many, result_placed, result_named]
  cases hfront : frontOperator.result (follow fuel) .free c with
  | matched v n => exact absurd hfront hc.front
  | failed => exact .inl rfl
  | exhausted => exact .inr rfl

section

variable {m m' : Relocation} (hm : (m.correspondence m').Steady)

/-- A phrase that is read in the same way from here and from there. -/
def Leads (m m' : Relocation) (fuel fuel' : Nat) (c c' : Cursor) {α : Type} (f : Phrase α) : Prop :=
  Outcome.Alike (f.Corresponds (m.correspondence m') .free) (m.correspondence m').Elsewhere
    (f.result (follow fuel) .free c) (f.result (follow fuel') .free c')

namespace Leads

variable {α β γ : Type} {a : Phrase α} {b : Phrase β}

theorem map {g : α → β} (h : Leads m m' fuel fuel' c c' a) :
    Leads m m' fuel fuel' c c' (g <$> a) := by
  rw [Leads, result_fmap, result_fmap]
  exact Outcome.Alike.map h fun v v' hv => ⟨v, v', hv, rfl, rfl⟩

theorem named (h : Leads m m' fuel fuel' c c' a) : Leads m m' fuel fuel' c c' (.named a) := by
  rw [Leads, result_named, result_named]
  exact h

include hm in
theorem both (h : Leads m m' fuel fuel' c c' a) : Leads m m' fuel fuel' c c' (.both a b) := by
  rw [Leads, result_both, result_both]
  refine Outcome.Alike.andThen h fun v v' n n' _ _ hv hn => ?_
  have hb := b.alike_elsewhere hm (advancing_follow fuel) (advancing_follow fuel')
    (fun r s _ _ h => alike_elsewhere_follow hm r s h) .free (hn.skip hm .free)
  exact hb.map fun _ _ hw => ⟨hv, hw⟩

include hm in
theorem combine {g : α → β → γ} (h : Leads m m' fuel fuel' c c' a) :
    Leads m m' fuel fuel' c c' (Form.combine g a b) := map (both hm h)

/-- A form with its place leads on if the places correspond. -/
theorem placed (hposition : m.position c.position = m'.position c'.position)
    (htext : ∀ t t', (m.correspondence m').text t t') (h : Leads m m' fuel fuel' c c' a) :
    Leads m m' fuel fuel' c c' (Form.placed a) := by
  refine map ?_
  rw [Leads, result_spanned, result_spanned]
  exact Outcome.Alike.andThen h fun v v' n n' _ _ hv hn =>
    .matched ⟨hposition, htext _ _, hv⟩ hn

end Leads

variable (hc : Bare c) (hc' : Bare c')
  (h : (m.correspondence m').Elsewhere c.skipBlanks c'.skipBlanks)
include hm hc hc' h

/-- **An operator with its operand behind blanks** is the operand. -/
theorem leads_unary (fuel fuel' : Nat) : Leads m m' fuel fuel' c c' unary := by
  refine .named (.map ?_)
  rw [Leads, result_both, result_both]
  obtain hfront | hfront := hc.many_front fuel <;> rw [hfront]
  · obtain hfront' | hfront' := hc'.many_front fuel' <;> rw [hfront']
    · have hcounted := counted.alike_elsewhere hm (advancing_follow fuel) (advancing_follow fuel')
        (fun r s _ _ h => alike_elsewhere_follow hm r s h) .free h
      exact hcounted.map fun _ _ hv => ⟨.nil, hv⟩
    · exact .exhausted_right _
  · exact .exhausted _

variable (hposition : m.position c.position = m'.position c'.position)
  (htext : ∀ t t', (m.correspondence m').text t t')
include hposition htext

/-- An assignment is read alike, with its places moved. -/
theorem leads_assignment : Leads m m' fuel fuel' c c' Phrase.assignment := by
  have hplain : Leads m m' fuel fuel' c c' plainOrAssigned := by
    have hunary := leads_unary hm hc hc' h fuel fuel'
    have hconditional : Leads m m' fuel fuel' c c' conditional :=
      .map (.placed hposition htext (.named (.both hm (.named (.combine hm hunary)))))
    exact .map (.placed hposition htext (.both hm hconditional))
  refine .named ?_
  rw [Leads, result_orElse, result_orElse]
  refine Outcome.Alike.orElse ?_ (hplain.imp fun _ _ => .inr)
  cases harrow : Phrase.arrow.result (follow fuel) .free c with
  | matched v n => exact absurd harrow hc.arrow
  | exhausted => exact .exhausted _
  | failed =>
    cases harrow' : Phrase.arrow.result (follow fuel') .free c' with
    | matched v n => exact absurd harrow' hc'.arrow
    | exhausted => exact .exhausted_right _
    | failed => exact .failed

/-- **Expressions behind blanks** are the same if the same text stands behind these. -/
theorem alike_behind_blanks (fuel fuel' : Nat) :
    Outcome.Alike ((m.correspondence m').value .expression) (m.correspondence m').Elsewhere
      (follow fuel .expression .free c).outcome (follow fuel' .expression .free c').outcome := by
  have hassignment {fuel fuel' : Nat} : Leads m m' fuel fuel' c c' (.rule .assignment) := by
    obtain _ | fuel := fuel
    · exact .exhausted _
    obtain _ | fuel' := fuel'
    · exact .exhausted_right _
    rw [Leads, result_rule_succ, result_rule_succ, Rule.phrase]
    exact (leads_assignment hm hc hc' h hposition htext).imp fun _ _ =>
      (Rule.kept_phrase hm .assignment .free ·)
  obtain _ | fuel := fuel
  · exact .exhausted _
  obtain _ | fuel' := fuel'
  · exact .exhausted_right _
  have hexpression : Leads m m' fuel fuel' c c' Phrase.expression :=
    .map (.placed hposition htext (.named (.combine hm hassignment)))
  rw [← result_rule, ← result_rule, result_rule_succ, result_rule_succ, Rule.phrase]
  exact hexpression.imp fun _ _ => (Rule.kept_phrase hm .expression .free ·)

end

/-- **An expression behind blanks begins with its operand.** -/
theorem operand_of_expression (hc : Bare c) {v : Built Expr}
    (h : (follow fuel .expression .free c).outcome = .matched v n) :
    ∃ fuel v n, operand.result (follow fuel) .free c.skipBlanks = .matched v n := by
  obtain _ | _ | fuel := fuel
  · cases h
  · cases h
  rw [← result_rule, result_rule_succ, Rule.phrase] at h
  simp only [Phrase.expression, commaSeparated, result_fmap, result_placed, result_named,
    result_combine, Outcome.map_eq_matched, Outcome.andThen_eq_matched] at h
  obtain ⟨_, ⟨_, ⟨_, _, h, -⟩, -⟩, -⟩ := h
  rw [result_rule_succ, Rule.phrase] at h
  simp only [Phrase.assignment, result_named, result_orElse, Outcome.orElse_eq_matched, hc.arrow,
    false_or] at h
  obtain ⟨-, h⟩ := h
  simp only [plainOrAssigned, result_fmap, result_placed, result_both, Outcome.map_eq_matched,
    Outcome.andThen_eq_matched] at h
  obtain ⟨_, ⟨_, ⟨_, _, h, -⟩, -⟩, -⟩ := h
  simp only [conditional, result_fmap, result_placed, result_named, result_both,
    Outcome.map_eq_matched, Outcome.andThen_eq_matched] at h
  obtain ⟨_, ⟨_, ⟨_, _, h, -⟩, -⟩, -⟩ := h
  rw [binary, result_named, result_combine, Outcome.andThen_eq_matched] at h
  obtain ⟨_, _, h, -⟩ := h
  rw [unary, result_named, result_combine] at h
  obtain hfront | hfront := hc.many_front fuel <;> rw [hfront] at h
  · rw [Outcome.andThen_matched, Outcome.map_eq_matched] at h
    obtain ⟨_, h, -⟩ := h
    simp only [counted, result_fmap, result_placed, result_named, result_both,
      Outcome.map_eq_matched, Outcome.andThen_eq_matched] at h
    obtain ⟨_, ⟨_, ⟨_, _, h, -⟩, -⟩, -⟩ := h
    exact ⟨fuel, _, _, h⟩
  · cases h

end ScriptTrace.Syntax
