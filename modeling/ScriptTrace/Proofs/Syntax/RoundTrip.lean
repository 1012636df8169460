import ScriptTrace.Proofs.Syntax.Operation
import ScriptTrace.Proofs.Syntax.Program

/-!
# Proofs/Syntax/RoundTrip — a formula is read back from its text

Texts put parentheses around operators inside others by the kind of the node alone, while the
grammar goes by levels: operands with suffixes, operators in front, operators between, conditions.
So there are three ways to read a formula (`Expr.Parses`), which lead to one another: an operand
without parentheses is a whole formula (`IsFronted.isRead`), and a whole formula in parentheses is
an operand (`IsRead.isChained`).  By induction on the formula all of them give the same tree, and a
program of one formula is read as that formula (`readExpression_fullText`).
-/

namespace ScriptTrace.Syntax

open Grammar
open Grammar.Form
open Phrase

variable {fuel : Nat} {c m n : Cursor} {e : Expr}

namespace Expr

/-- **An expression that is read as an operand** with its suffixes. -/
def IsChained (e : Expr) : Prop :=
  ∀ ⦃fuel : Nat⦄ ⦃c n : Cursor⦄, Ready fuel c → c.Over e.operandChars n → Bounds n.rest →
    ∃ e', Chained fuel c e' n ∧ e.Alike e'

/-- **An expression that is read as an operand** with operators in front. -/
def IsFronted (e : Expr) : Prop :=
  ∀ ⦃fuel : Nat⦄ ⦃c n : Cursor⦄, Ready fuel c.skipBlanks → c.skipBlanks.Over e.operandChars n →
    Follows n.rest → ∃ e', Fronted fuel c e' n ∧ e.Alike e'

theorem IsChained.isFronted (h : e.IsChained) : e.IsFronted := fun _ _ _ hready hover hn =>
  let ⟨e', hchained, halike⟩ := h hready hover hn.bounds
  ⟨e', hchained.fronted hn, halike⟩

/-- A formula in parentheses is an operand. -/
theorem IsRead.isChained (h : e.IsRead) (hnode : e.node.needsParentheses = true) :
    e.IsChained := fun _ _ _ hready hover _ =>
  chained_parenthesized h hready (operandChars_of_wrapped hnode ▸ hover)

/-- An operand with its operators is read back. -/
theorem IsFronted.result_unary (h : e.IsFronted) (htext : IsFormulaText e.operandChars)
    (hready : Ready fuel c) (hover : c.Over e.operandChars n) (hn : Follows n.rest) :
    ∃ e', unary.result (follow fuel) .free c = .matched (.ok e') n.skipBlanks ∧ e.Alike e' := by
  have hsolid := htext.isSolid hover
  rw [← hsolid.skipBlanks_eq] at hready hover
  obtain ⟨e', hfronted, halike⟩ := h hready hover hn
  exact ⟨e', hfronted.result_unary hsolid, halike⟩

/-- An operand without parentheses is a whole formula. -/
theorem IsFronted.isRead (h : e.IsFronted) (hnode : e.node.needsParentheses = false)
    (htext : IsFormulaText e.chars) : e.IsRead where
  text := htext
  read hready hover hn := by
    rw [← operandChars_of_bare hnode] at htext hover
    obtain ⟨e', hread, halike⟩ := h.result_unary htext hready hover (.closes hn)
    have hbinary := result_binary_of_unary hread hn.between_failed
    exact ⟨e', result_assignment hready hn
      (result_conditional_of_binary hbinary hn.question_failed), halike⟩

/-- **An operator between two operands** is read. -/
theorem isRead_infixed (op : Infix) {l r : Expr} (hl : l.IsFronted) (hr : r.IsFronted)
    (htext : IsFormulaText e.chars) (htextl : IsFormulaText l.operandChars)
    (htextr : IsFormulaText r.operandChars)
    (hchars : e.chars = l.operandChars ++ ' ' :: (op.symbol.toList ++ ' ' :: r.operandChars))
    (halike : ∀ {l' r'}, l.Alike l' → r.Alike r' → e.Alike (op.node l' r')) : e.IsRead where
  text := htext
  read {fuel c n} hready hover hn := by
    rw [hchars] at hover
    obtain ⟨m, hoverl, hmore⟩ := Cursor.Over.append_iff.mp hover
    have hm : Follows m.rest := by
      rw [hmore.rest_eq, List.cons_append, List.append_assoc, List.cons_append]
      exact .operator op _
    obtain ⟨l', hreadl, halikel⟩ := hl.result_unary htextl hready hoverl hm
    obtain ⟨k, d, hsymbol, hspace, hoverr⟩ := over_mark _ hmore op.blankLength_symbol
    have hd := hspace.skipBlanks_eq (htextr.isSolid hoverr)
    have hready' := hready.mono (hoverl.le.trans (m.le_skipBlanks.trans
      (hsymbol.le.trans hspace.le)))
    obtain ⟨r', hreadr, haliker⟩ := hr.result_unary htextr hready' hoverr (.closes hn)
    have hbinary := result_binary_of_operation hreadl (result_between hsymbol hspace.rest_eq)
      (hd ▸ hreadr) hn.between_failed
    exact ⟨_, result_assignment hready hn
      (result_conditional_of_binary hbinary hn.question_failed),
      halike halikel haliker⟩

/-- **A condition with its branches** is read. -/
theorem isRead_conditional {test yes no : Expr} {p : Position} (ht : test.IsFronted)
    (hy : yes.IsRead) (hn : no.IsRead)
    (htext : IsFormulaText (mk (.conditional test yes no) p).chars)
    (htextt : IsFormulaText test.operandChars) : (mk (.conditional test yes no) p).IsRead where
  text := htext
  read {fuel c n} hready hover hclose := by
    rw [chars_conditional] at hover
    obtain ⟨m, hovert, hmore⟩ := Cursor.Over.append_iff.mp hover
    have hm : m.rest = ' ' :: '?' :: ' ' :: _ := hmore.rest_eq
    obtain ⟨test', hread, halike⟩ := ht.result_unary htextt hready hovert (hm ▸ .question _)
    have hbinary := result_binary_of_unary hread (between_failed_of_question hm)
    obtain ⟨yes', no', hconditional, hyes, hno⟩ :=
      result_conditional hy hn (hready.mono hovert.le) hbinary hmore hclose
    exact ⟨_, result_assignment hready hclose hconditional, .conditional halike hyes hno⟩

/-! ## Members and calls -/

/-- A member is read back if its object is. -/
theorem IsChained.member {object : Expr} {k : String} {isOptional : Bool} {p : Position}
    (ho : object.IsChained) (hk : isWord k.toList = true) :
    Expr.IsChained (.mk (.member object (.static k) isOptional) p) := by
  intro fuel c n hready hover hn
  rw [operandChars_of_bare rfl, chars_member] at hover
  obtain ⟨m, hobject, hmember⟩ := Cursor.Over.append_iff.mp hover
  have hm : Bounds m.rest ∧ m.IsSolid := by
    have hrest := hmember.rest_eq
    cases isOptional <;>
      exact ⟨hrest ▸ bounds_of_cons rfl _, Cursor.isSolid_of_cons hrest rfl (by decide)⟩
  obtain ⟨o', hchained, halike⟩ := ho hready hobject hm.1
  have hsuffix : suffix.result (follow fuel) .free m =
      .matched (.member (.ok (.static k)) isOptional) n := suffix_member isOptional hk hmember hn
  rw [← hm.2.skipBlanks_eq] at hsuffix
  exact ⟨_, hchained.snoc hsuffix rfl, .member halike⟩

/-- An index is read back if object and key are. -/
theorem IsChained.index {object i : Expr} {isOptional : Bool} {p : Position}
    (ho : object.IsChained) (hi : i.IsRead) :
    Expr.IsChained (.mk (.member object (.computed i) isOptional) p) := by
  intro fuel c n hready hover _
  rw [operandChars_of_bare rfl, chars_index] at hover
  obtain ⟨m, hobject, hindex⟩ := Cursor.Over.append_iff.mp hover
  have hm : Bounds m.rest ∧ m.IsSolid := by
    have hrest := hindex.rest_eq
    cases isOptional <;>
      exact ⟨hrest ▸ bounds_of_cons rfl _, Cursor.isSolid_of_cons hrest rfl (by decide)⟩
  obtain ⟨o', hchained, halike⟩ := ho hready hobject hm.1
  obtain ⟨i', hsuffix, halike'⟩ := suffix_index hi (hready.mono hobject.le) isOptional hindex
  rw [← hm.2.skipBlanks_eq] at hsuffix
  exact ⟨_, hchained.snoc hsuffix rfl, .index halike halike'⟩

/-- A call is read back if its callee and arguments are. -/
theorem IsChained.call {callee : Expr} {args : List Expr} {isOptional : Bool} {p : Position}
    (hc : callee.IsChained) (hnode : callee.node.needsParentheses = false)
    (hargs : ∀ e ∈ args, e.IsRead) :
    Expr.IsChained (.mk (.call callee (args.map .single) isOptional) p) := by
  intro fuel c n hready hover _
  rw [operandChars_of_bare rfl, chars_call, ← operandChars_of_bare hnode] at hover
  obtain ⟨m, hcallee, hcall⟩ := Cursor.Over.append_iff.mp hover
  have hm : Bounds m.rest ∧ m.IsSolid := by
    have hrest := hcall.rest_eq
    cases isOptional <;>
      exact ⟨hrest ▸ bounds_of_cons rfl _, Cursor.isSolid_of_cons hrest rfl (by decide)⟩
  obtain ⟨c', hchained, halike⟩ := hc hready hcallee hm.1
  obtain ⟨args', hsuffix, hall⟩ := suffix_call hargs (hready.mono hcallee.le) isOptional hcall
  rw [← hm.2.skipBlanks_eq] at hsuffix
  exact ⟨_, hchained.snoc hsuffix rfl, .call halike hall⟩

/-- An operator before an operand is read back with it. -/
theorem IsFronted.unary {op : UnaryOperator} {p : Position} (h : e.IsFronted)
    (hop : op.isPlain = true) (htext : IsFormulaText e.operandChars) :
    Expr.IsFronted (.mk (.unary op e) p) := by
  intro fuel c n hready hover hn
  rw [operandChars_of_bare rfl, chars_unary] at hover
  obtain ⟨m, hfront, hoperand⟩ := Cursor.Over.append_iff.mp hover
  obtain ⟨k, hread, rfl⟩ := result_frontOperator hop hfront (htext.isSolid hoperand)
  obtain ⟨e', hfronted, halike⟩ := h (hready.mono hfront.le) hoperand hn
  exact ⟨_, hfronted.cons hread, .unary halike⟩

/-! ## Formulas -/

/-- **How a formula is read**: as a whole, as an operand with operators in front, and without them
if it has none itself. -/
structure Parses (e : Expr) : Prop where
  chained : (∀ op inner, e.node ≠ .unary op inner) → e.IsChained
  fronted : e.IsFronted
  whole : e.IsRead

theorem IsChained.parses (h : e.IsChained) (hnode : e.node.needsParentheses = false)
    (htext : IsFormulaText e.chars) : e.Parses :=
  ⟨fun _ => h, h.isFronted, h.isFronted.isRead hnode htext⟩

theorem IsRead.parses (h : e.IsRead) (hnode : e.node.needsParentheses = true) : e.Parses :=
  ⟨fun _ => h.isChained hnode, (h.isChained hnode).isFronted, h⟩

/-- A word that is an operand is read back. -/
theorem isChained_constant {k : String} {node : ExprNode} {p : Position}
    (hk : (k, node) ∈ constants) (hchars : (mk node p).chars = k.toList)
    (hnode : (mk node p).node.needsParentheses = false)
    (halike : ∀ q, (mk node p).Alike (.mk node q)) : (mk node p).IsChained := by
  intro fuel c n hready hover hn
  rw [operandChars_of_bare hnode, hchars] at hover
  exact ⟨_, chained_constant hk hready hover hn, halike _⟩

/-- **Every formula is read back.** -/
theorem IsFormula.parses (h : e.IsFormula) : e.Parses := by
  induction h with
  | @name x p hx =>
    have hchained : IsChained (.mk (.name x) p) := fun _ _ _ hready hover hn =>
      ⟨_, chained_name hx hready hover hn, .name ..⟩
    exact hchained.parses rfl (IsFormula.name hx).isFormulaText
  | bool b p =>
    refine IsChained.parses ?_ rfl (IsFormula.bool b p).isFormulaText
    cases b with
    | false => exact isChained_constant (k := "false") (by simp [constants]) rfl rfl (.bool _ _)
    | true => exact isChained_constant (k := "true") (by simp [constants]) rfl rfl (.bool _ _)
  | null p =>
    refine IsChained.parses ?_ rfl (IsFormula.null p).isFormulaText
    exact isChained_constant (k := "null") (by simp [constants]) rfl rfl (.null _)
  | this p =>
    refine IsChained.parses ?_ rfl (IsFormula.this p).isFormulaText
    exact isChained_constant (k := "this") (by simp [constants]) rfl rfl (.this _)
  | @unary op e p hop he ih =>
    have htext := (IsFormula.unary (p := p) hop he).isFormulaText
    have hfronted := ih.fronted.unary (p := p) hop (isFormulaText_operand he.isFormulaText)
    exact ⟨fun h => absurd rfl (h op e), hfronted, hfronted.isRead rfl htext⟩
  | @binary op l r p hl hr ihl ihr =>
    refine IsRead.parses ?_ rfl
    exact isRead_infixed (.binary op) ihl.fronted ihr.fronted
      (IsFormula.binary hl hr).isFormulaText (isFormulaText_operand hl.isFormulaText)
      (isFormulaText_operand hr.isFormulaText) (chars_binary op) .binary
  | @logical op l r p hl hr ihl ihr =>
    refine IsRead.parses ?_ rfl
    exact isRead_infixed (.logical op) ihl.fronted ihr.fronted
      (IsFormula.logical hl hr).isFormulaText (isFormulaText_operand hl.isFormulaText)
      (isFormulaText_operand hr.isFormulaText) (chars_logical op) .logical
  | @conditional test yes no p ht hy hn iht ihy ihn =>
    refine IsRead.parses ?_ rfl
    exact isRead_conditional iht.fronted ihy.whole ihn.whole
      (IsFormula.conditional ht hy hn).isFormulaText (isFormulaText_operand ht.isFormulaText)
  | @member object x isOptional p ho hobject hx ih =>
    have hchained : object.IsChained := ih.chained fun op inner hnode => by
      simp [hnode, ExprNode.hasMembers] at hobject
    exact (hchained.member hx).parses rfl (IsFormula.member ho hobject hx).isFormulaText
  | @index object i isOptional p ho hobject hi iho ihi =>
    have hchained : object.IsChained := iho.chained fun op inner hnode => by
      simp [hnode, ExprNode.hasMembers] at hobject
    exact (hchained.index ihi.whole).parses rfl (IsFormula.index ho hobject hi).isFormulaText
  | @call callee args isOptional p hc hcallee hargs ihc ihargs =>
    have hchained : callee.IsChained := ihc.chained fun op inner hnode => by
      simp [hnode, ExprNode.isCalled] at hcallee
    have hnode : callee.node.needsParentheses = false := by
      cases hnode : callee.node <;> simp_all [ExprNode.isCalled, ExprNode.needsParentheses]
    exact (hchained.call hnode fun e he => (ihargs e he).whole).parses rfl
      (IsFormula.call hc hcallee hargs).isFormulaText

end Expr

/-! ## The statement of a formula -/

/-- **No other statement is read where a formula starts.** -/
theorem result_statementNode {x : Char} {Y : List Char} (hrest : c.rest = x :: Y)
    (hx : opensFormula x = true) (hopens : Opens c.rest) :
    statementNode.result (follow (fuel + 1)) .free c =
      expressionStatement.result (follow (fuel + 1)) .free c := by
  obtain ⟨w, X, htext, hw, hX, hwords, hlabel⟩ := hopens
  obtain ⟨m, hover, rfl⟩ : ∃ m, c.Over w m ∧ m.rest = X :=
    ⟨_, .of_append htext, by rw [Cursor.rest_advance, htext, List.drop_left]⟩
  have hother (y : Char) (hy : opensFormula y = false) : y ≠ x := (ne_of_opensFormula hx hy).symm
  have hkeyword (k : String) (hk : k ∈ statementWords) (fuel : Nat) (s : Spacing) :
      (keyword k).result (follow fuel) s c = .failed :=
    keyword_other hover hw hX (isNameChar_statementWord k hk) (hwords k hk)
  have hwhole (k : String) (hk : k ∈ statementWords) :
      (wholeWord k).result (follow (fuel + 1)) .quiet c = .failed := by
    have h := hkeyword k hk (fuel + 1) .free
    rwa [keyword, atom, result_named, result_spaced] at h
  have hblock : (Form.rule .block : Phrase _).result (follow (fuel + 1)) .free c = .failed := by
    change block.result (follow fuel) .free c = _
    simp only [block, result_fmap, result_named, result_seqLeft, result_seqRight,
      token_other (k := "\x7b") hrest rfl (hother '\x7b' rfl), Outcome.andThen_failed,
      Outcome.map_failed]
  have hreturn : (Form.rule .return : Phrase _).result (follow (fuel + 1)) .free c = .failed := by
    change returned.result (follow fuel) .free c = _
    simp only [returned, result_spaced, result_named, result_seqLeft, result_seqRight,
      hkeyword "return" (by decide), Outcome.andThen_failed]
  have hbreak : (Form.rule .break : Phrase _).result (follow (fuel + 1)) .free c = .failed := by
    change (jump "break").result (follow fuel) .free c = _
    simp only [jump, result_spaced, result_named, result_seqLeft, result_seqRight,
      hkeyword "break" (by decide), Outcome.andThen_failed]
  have hcontinue : (Form.rule .continue : Phrase _).result (follow (fuel + 1)) .free c =
      .failed := by
    change (jump "continue").result (follow fuel) .free c = _
    simp only [jump, result_spaced, result_named, result_seqLeft, result_seqRight,
      hkeyword "continue" (by decide), Outcome.andThen_failed]
  have hlabeled : labeledStatement.result (follow (fuel + 1)) .free c = .failed := by
    have hcolon : (token ":" : Phrase Unit).result (follow (fuel + 1)) .free m.skipBlanks =
        .failed := by
      refine result_token_absent ":" fun hstarts => hlabel ?_
      obtain ⟨Y, hY⟩ := hstarts
      rw [← Cursor.rest_advance, ← Cursor.skipBlanks, ← hY]
      rfl
    rcases name_takes_word (advancing_follow (fuel + 1)) hw hover hX (s := .free) with
      hname | hname <;>
    simp only [labeledStatement, result_named, result_combine, result_seqLeft, hname,
      Outcome.andThen_matched, Outcome.andThen_failed, Spacing.skip, hcolon, Outcome.map_failed]
  simp only [statementNode, result_orElse, result_fmap, variableStatement, declaration,
    declarationKind, functionStatement, ifStatement, forStatement, whileStatement, doStatement,
    throwStatement, tryStatement, switchStatement, atom, result_named, result_spaced,
    result_placed, result_both, result_combine, result_seqLeft, result_seqRight, hblock, hreturn,
    hbreak, hcontinue, hlabeled,
    hwhole "var" (by decide), hwhole "let" (by decide), hwhole "const" (by decide),
    hkeyword "function" (by decide), hkeyword "if" (by decide), hkeyword "for" (by decide),
    hkeyword "while" (by decide), hkeyword "do" (by decide), hkeyword "throw" (by decide),
    hkeyword "try" (by decide), hkeyword "switch" (by decide),
    token_other (k := ";") hrest rfl (hother ';' rfl), Outcome.andThen_failed, Outcome.map_failed,
    Outcome.orElse_failed]

/-- **An expression is a statement** up to the end of the text. -/
theorem result_expressionStatement {e : Built Expr}
    (h : expression.result (follow fuel) .free c = .matched e n) (hn : n.rest = []) :
    expressionStatement.result (follow (fuel + 1)) .free c = .matched (e.map StmtNode.expr) n := by
  have htoken : (token ";" : Phrase Unit).result (follow (fuel + 1)) .free n = .failed :=
    result_token_absent ";" (by rw [hn]; exact nofun)
  have hexpression : (Form.rule .expression : Phrase _).result (follow (fuel + 1)) .free c =
      .matched e n := h
  simp only [expressionStatement, semicolon, result_fmap, result_named, result_seqLeft, hexpression,
    Outcome.andThen_matched, Spacing.skip, (Cursor.isSolid_of_nil hn).skipBlanks_eq, result_perhaps,
    htoken, Outcome.map_failed, Outcome.orElse_failed, Outcome.map_matched]

/-- **A formula is a statement** up to the end of the text. -/
theorem result_statementNode_of_formula (h : e.IsFormula) (hready : Ready fuel c)
    (hover : c.Over e.chars n) (hn : n.rest = []) :
    ∃ e', statementNode.result (follow (fuel + 2)) .free c = .matched (.ok (.expr e')) n ∧
      e.Alike e' := by
  have hsolid : n.IsSolid := Cursor.isSolid_of_nil hn
  obtain ⟨x, Y, hchars, hx⟩ := h.isFormulaText.head
  have hrest : c.rest = e.chars := by rw [hover.rest_eq, hn, List.append_nil]
  have hopens : Opens c.rest := by
    simpa [hrest] using h.opens (Y := []) nofun nofun
  obtain ⟨e', hread, halike⟩ := h.parses.whole.read hready hover (hn ▸ .finish)
  rw [hsolid.skipBlanks_eq] at hread
  have hexpression : expression.result (follow (fuel + 1)) .free c = .matched (.ok e') n :=
    result_expression hread hsolid (by rw [hn]; exact nofun)
  refine ⟨e', ?_, halike⟩
  rw [result_statementNode (hrest.trans hchars) hx hopens]
  exact result_expressionStatement hexpression hn

/-- **A formula is a program** of one statement. -/
theorem readProgram_fullText (h : e.IsFormula) :
    ∃ e' excerpt, readProgram e.fullText = .ok [.mk (.expr e') .start excerpt] ∧ e.Alike e' := by
  obtain ⟨c, hc⟩ : ∃ c, c = Cursor.ofText e.chars := ⟨_, rfl⟩
  have hrest : c.rest = e.chars ++ [] := by rw [hc, List.append_nil, Cursor.ofText]
  obtain ⟨n, hover, hn⟩ : ∃ n, c.Over e.chars n ∧ n.rest = [] :=
    ⟨_, .of_append hrest, by rw [Cursor.rest_advance, hrest, List.drop_left]⟩
  have hfuel : nestingBound e.fullText.toList.length =
      rulesPerPlace * e.chars.length + 7 + 2 + 1 := by
    rw [nestingBound, rulesPerPlace, Expr.chars]
    omega
  have hready : Ready (rulesPerPlace * e.chars.length + 7) c :=
    ⟨by rw [hrest, List.append_nil]; exact h.isFormulaText.arrowless,
      by rw [hrest, List.append_nil]; omega⟩
  obtain ⟨e', hnode, halike⟩ := result_statementNode_of_formula h hready hover hn
  subst hc
  obtain ⟨excerpt, hread⟩ := readProgram_of_node hfuel (h.isFormulaText.isSolid hover) hnode hn
  exact ⟨e', excerpt, hread, halike⟩

/-- **A formula is read back from its text**, up to the places of its parts. -/
theorem readExpression_fullText (h : e.IsFormula) :
    ∃ e', readExpression e.fullText = .ok e' ∧ e.Alike e' := by
  obtain ⟨e', excerpt, hread, halike⟩ := readProgram_fullText h
  refine ⟨e', ?_, halike⟩
  rw [readExpression, hread]
  rfl

/-! ## A formula with every kind of suffix -/

/-- A name at the beginning of a text. -/
def Expr.ofName (x : String) : Expr := .mk (.name x) .start

theorem isFormula_ofName {x : String} (hword : isWord x.toList = true) (hfree : x ∉ reservedWords) :
    (Expr.ofName x).IsFormula := .name ⟨hword, hfree⟩

/-- An operator in front of a chain of members and calls, as a condition. -/
def chainFormula : Expr :=
  let object := Expr.mk (.logical .nullish (.ofName "a") (.ofName "b")) .start
  let member := Expr.mk (.member object (.static "in") false) .start
  let index := Expr.mk (.member member (.computed (.mk .this .start)) true) .start
  let call := Expr.mk (.call index ([.ofName "c", .mk .null .start].map .single) true) .start
  let power := Expr.mk (.binary .power (.ofName "x") (.mk (.bool true) .start)) .start
  .mk (.conditional (.mk (.unary .not call) .start) (.mk (.unary .typeof power) .start)
    (.ofName "y")) .start

/-- The formula has operators, a call and indices in it. -/
theorem isFormula_chainFormula : chainFormula.IsFormula := by
  have ha : (Expr.ofName "a").IsFormula := isFormula_ofName rfl (by decide)
  have hb : (Expr.ofName "b").IsFormula := isFormula_ofName rfl (by decide)
  have hc : (Expr.ofName "c").IsFormula := isFormula_ofName rfl (by decide)
  have hx : (Expr.ofName "x").IsFormula := isFormula_ofName rfl (by decide)
  have hy : (Expr.ofName "y").IsFormula := isFormula_ofName rfl (by decide)
  have hargs : ∀ e ∈ [Expr.ofName "c", .mk .null .start], e.IsFormula :=
    List.forall_mem_cons.mpr ⟨hc, List.forall_mem_singleton.mpr (.null _)⟩
  exact .conditional
    (.unary rfl (.call (.index (.member (.logical ha hb) rfl rfl) rfl (.this _)) rfl hargs))
    (.unary rfl (.binary hx (.bool _ _))) hy

/-- Its text is read back as the same formula. -/
theorem readExpression_chainFormula :
    chainFormula.fullText = "!(a ?? b).in?.[this]?.(c, null) ? typeof (x ** true) : y" ∧
    chainFormula.IsFormula ∧
    ∃ e', readExpression chainFormula.fullText = .ok e' ∧ chainFormula.Alike e' :=
  ⟨by decide, isFormula_chainFormula, readExpression_fullText isFormula_chainFormula⟩

end ScriptTrace.Syntax
