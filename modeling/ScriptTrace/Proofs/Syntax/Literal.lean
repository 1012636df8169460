import ScriptTrace.Proofs.Syntax.RoundTrip

/-!
# Proofs/Syntax/Literal — a literal alone

A number or a string starts with a character that opens little else: everything that is tried in
front of it fails (`LiteralAt.failed`).  Once it is read as an operand, and the text ends behind it,
it is read as one statement (`LiteralAt.result_statementNode`), whatever kind of literal it is.
-/

namespace ScriptTrace.Syntax

open Grammar
open Grammar.Form
open Phrase

section

variable {α : Type} {c n : Cursor} {fuel : Nat}

/-- The characters that a number or a string starts with. -/
def literalStarts : List Char := "0123456789.\"'".toList

/-- The rules that may start with a literal. -/
def operandRules : {α : Type} → Rule α → Bool
  | _, .statement | _, .expression | _, .assignment | _, .string => true
  | _, _ => false

/-- A phrase that no literal opens. -/
def Unopened (f : Phrase α) : Bool :=
  !f.mayOpenAny operandRules literalStarts && f.consumes && f.opensBelow Rule.rank 3

/-- Only the rules of operands can begin with these characters. -/
theorem operandRules_closed (r : Rule α) {x : Char} (hx : x ∈ literalStarts)
    (h : operandRules r = false) : r.phrase.mayOpen operandRules x = false := by
  refine Form.mayOpen_eq_false hx ?_
  cases r with
  | statement | expression | assignment | string => cases h
  | _ => decide

/-- **A place where a literal starts**, with room for the rules that are tried there. -/
structure LiteralAt (fuel : Nat) (c : Cursor) : Prop where
  starts : ∃ x rest, c.rest = x :: rest ∧ x ∈ literalStarts
  room : rulesPerPlace * c.rest.length + 3 ≤ fuel

namespace LiteralAt

theorem succ (h : LiteralAt fuel c) : LiteralAt (fuel + 1) c := ⟨h.starts, Nat.le_succ_of_le h.room⟩

theorem isSolid (h : LiteralAt fuel c) : c.IsSolid := by
  obtain ⟨x, rest, hrest, hx⟩ := h.starts
  have hnone : literalStarts.all (fun x => !isSpace x && x ≠ '/') = true := by decide
  have hblank := List.all_eq_true.mp hnone x hx
  rw [Bool.and_eq_true, Bool.not_eq_true', decide_eq_true_eq] at hblank
  exact Cursor.isSolid_of_cons hrest hblank.1 hblank.2

/-- **What no literal opens fails in front of one.** -/
theorem failed (h : LiteralAt fuel c) {f : Phrase α} (hf : Unopened f = true) (s : Spacing) :
    f.result (follow fuel) s c = .failed := by
  obtain ⟨x, rest, hrest, hx⟩ := h.starts
  simp only [Unopened, Bool.and_eq_true, Bool.not_eq_true'] at hf
  obtain ⟨⟨hopen, hconsumes⟩, hbelow⟩ := hf
  exact result_failed_of_not_mayOpen (fun r hr => operandRules_closed r hx hr) hrest h.isSolid
    (Form.mayOpen_eq_false hx hopen) hconsumes hbelow h.room

/-- Something else is tried in front of a literal. -/
theorem result_orElse (h : LiteralAt fuel c) {f : Phrase α} (hf : Unopened f = true) (g : Phrase α)
    (s : Spacing) : (f <|> g).result (follow fuel) s c = g.result (follow fuel) s c := by
  rw [Form.result_orElse, h.failed hf, Outcome.orElse_failed]

/-! ## A literal alone -/

section

variable {e : Built Expr} (h : LiteralAt fuel c) (hn : n.rest = [])
include h hn

/-- Without an operator before it an operand stands alone. -/
theorem result_unary (hhead : (newExpression <|> primary : Phrase (Built Expr)).result (follow fuel)
    .free c = .matched e n) : unary.result (follow fuel) .free c = .matched e n := by
  have hskip := (Cursor.isSolid_of_nil hn).skipBlanks_eq
  have hend : Follows n.rest := hn ▸ .closes .finish
  have hsuffix : suffix.result (follow fuel) .free n.skipBlanks = .failed := hend.suffix_failed
  have hupdate : updateOperator.result (follow fuel) .free n.skipBlanks = .failed :=
    hend.updateOperator_failed
  have hfront : frontOperator.result (follow fuel) .free c = .failed := h.failed (by decide) .free
  rw [hskip] at hsuffix hupdate
  have hoperand : operand.result (follow fuel) .free c = .matched e n := by
    simp only [operand, result_named, result_combine, hhead, Outcome.andThen_matched, Spacing.skip,
      hskip, result_many, hsuffix, Outcome.andThen_failed, Outcome.orElse_failed,
      Outcome.map_matched]
    cases e <;> rfl
  have hcounted : counted.result (follow fuel) .free c = .matched e n := by
    simp only [counted, result_fmap, result_placed, result_named, result_both, hoperand,
      Outcome.andThen_matched, Spacing.skip, hskip, result_perhaps, hupdate, Outcome.map_failed,
      Outcome.orElse_failed, Outcome.map_matched]
    cases e <;> rfl
  simp only [unary, result_named, result_combine, result_many, result_placed, hfront,
    Outcome.map_failed, Outcome.andThen_failed, Outcome.orElse_failed, Outcome.andThen_matched,
    Spacing.skip, h.isSolid.skipBlanks_eq, hcounted, Outcome.map_matched]
  cases e <;> rfl

/-- Without an operator behind it an operand stands alone. -/
theorem result_assignment (hhead : (newExpression <|> primary : Phrase (Built Expr)).result
    (follow fuel) .free c = .matched e n) :
    Phrase.assignment.result (follow fuel) .free c = .matched e n := by
  have hskip := (Cursor.isSolid_of_nil hn).skipBlanks_eq
  have hend : Closes n.rest := hn ▸ .finish
  have hunary := h.result_unary hn hhead
  rw [← hskip] at hunary ⊢
  exact result_assignment_of_arrow_failed (h.failed (by decide) .free) hend.assignOperator_failed
    (result_conditional_of_binary (result_binary_of_unary hunary hend.between_failed)
      hend.question_failed)

/-- **A literal is a statement** up to the end of the text. -/
theorem result_statementNode (hhead : (newExpression <|> primary : Phrase (Built Expr)).result
    (follow fuel) .free c = .matched e n) :
    statementNode.result (follow (fuel + 2)) .free c = .matched (e.map StmtNode.expr) n := by
  have hexpression : expression.result (follow (fuel + 1)) .free c = .matched e n :=
    result_expression (h.result_assignment hn hhead) (Cursor.isSolid_of_nil hn)
      (by rw [hn]; exact nofun)
  rw [statementNode]
  simp (disch := decide) only [h.succ.succ.result_orElse]
  exact result_expressionStatement hexpression hn

end

end LiteralAt

/-- **A program that is a literal** has the value of that literal, or is refused for it. -/
theorem readExpression_of_literal {t : String} {e : Built Expr}
    (hstarts : ∃ x rest, t.toList = x :: rest ∧ x ∈ literalStarts) (hn : n.rest = [])
    (hhead : (newExpression <|> primary : Phrase (Built Expr)).result
      (follow (rulesPerPlace * t.toList.length + 7)) .free (.ofText t.toList) = .matched e n) :
    readExpression t = e := by
  have hfuel : nestingBound t.toList.length = rulesPerPlace * t.toList.length + 7 + 2 + 1 := by
    rw [nestingBound, rulesPerPlace]
    omega
  have hat : LiteralAt (rulesPerPlace * t.toList.length + 7) (.ofText t.toList) :=
    ⟨hstarts, Nat.add_le_add_left (by decide) _⟩
  obtain ⟨excerpt, hread⟩ :=
    readProgram_of_node hfuel hat.isSolid (hat.result_statementNode hn hhead) hn
  rw [readExpression, hread]
  cases e <;> rfl

end

end ScriptTrace.Syntax
