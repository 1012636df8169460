import ScriptTrace.Proofs.Syntax.First
import ScriptTrace.Proofs.Syntax.Formula
import ScriptTrace.Proofs.Syntax.Layout

/-!
# Proofs/Syntax/Operand — operands read from their texts

An operand is a name, a constant or a formula in parentheses (`Chained`), and then its suffixes.
What stands behind a formula (`Follows`) is no further suffix, so an operand is read up to there.
All readings are those of the grammar with a bound on how many rules are open, which is large enough
for the text that is left (`Ready`).
-/

namespace ScriptTrace.Syntax

open Grammar
open Grammar.Form
open Phrase

/-! ## What stands behind a formula -/

/-- The text of an operator between operands. -/
def Infix.symbol : Infix → String
  | .binary op => op.symbol
  | .logical op => op.symbol

/-- **What may stand behind a whole formula**, or behind any other expression. -/
inductive Closes : List Char → Prop
  | finish : Closes []
  | parenthesis (Y : List Char) : Closes (')' :: Y)
  | bracket (Y : List Char) : Closes (']' :: Y)
  | brace (Y : List Char) : Closes ('\x7d' :: Y)
  | comma (Y : List Char) : Closes (',' :: Y)
  | colon (Y : List Char) : Closes (' ' :: ':' :: Y)

/-- **What may stand behind an operand**: an operator, or the end of a formula. -/
inductive Follows : List Char → Prop
  | closes {X : List Char} (h : Closes X) : Follows X
  | operator (op : Infix) (Y : List Char) : Follows (' ' :: (op.symbol.toList ++ ' ' :: Y))
  | question (Y : List Char) : Follows (' ' :: '?' :: ' ' :: Y)

section

variable {fuel : Nat} {c m n : Cursor} {e : Expr} {x : Char} {w Y : List Char}

theorem Closes.bounds (h : Closes Y) : Bounds Y := by
  cases h with
  | finish => exact nofun
  | _ => exact bounds_of_cons rfl _

theorem Follows.bounds (h : Follows Y) : Bounds Y := by
  cases h with
  | closes h => exact h.bounds
  | _ => exact bounds_of_cons rfl _

/-- What may follow an operand is no suffix of it. -/
theorem Follows.suffix_failed (h : Follows n.rest) :
    suffix.result (follow fuel) .free n.skipBlanks = .failed := by
  obtain ⟨rest, o, p⟩ := n
  cases h with
  | closes h => cases h <;> rfl
  | operator op Y =>
    cases op with
    | binary op => cases op <;> rfl
    | logical op => cases op <;> rfl
  | question Y => rfl

/-- What may follow an operand does not count it up or down. -/
theorem Follows.updateOperator_failed (h : Follows n.rest) :
    updateOperator.result (follow fuel) .free n.skipBlanks = .failed := by
  obtain ⟨rest, o, p⟩ := n
  cases h with
  | closes h => cases h <;> rfl
  | operator op Y =>
    cases op with
    | binary op => cases op <;> rfl
    | logical op => cases op <;> rfl
  | question Y => rfl

/-! ## Where a formula may be read -/

/-- **A place where a formula may be read**: no arrow stands behind it, and enough rules may be
opened. -/
structure Ready (fuel : Nat) (c : Cursor) : Prop where
  arrowless : Arrowless c.rest
  room : rulesPerPlace * c.rest.length < fuel

theorem Ready.mono (h : Ready fuel c) (hn : c ≤ n) : Ready fuel n where
  arrowless := by
    obtain ⟨k, -, rfl⟩ := hn
    rw [Cursor.rest_advance]
    exact List.IsChain.drop h.arrowless k
  room := (Nat.mul_le_mul_left _ (Cursor.length_rest_le hn)).trans_lt h.room

theorem Ready.succ (h : Ready fuel c) : Ready (fuel + 1) c :=
  ⟨h.arrowless, Nat.lt_succ_of_lt h.room⟩

/-- Behind a character a formula may be read inside two more rules. -/
theorem Ready.inside (h : Ready fuel c) (hn : c < n) : ∃ k, fuel = k + 2 ∧ Ready k n := by
  have hlength := Cursor.length_rest_lt hn
  have hroom := h.room
  rw [rulesPerPlace] at hroom
  obtain ⟨k, rfl⟩ : ∃ k, fuel = k + 2 := Nat.exists_eq_add_of_le' (by omega)
  refine ⟨k, rfl, (h.mono hn.le).arrowless, ?_⟩
  rw [rulesPerPlace]
  omega

/-- **An expression that is read from its text** as a whole. -/
structure Expr.IsRead (e : Expr) : Prop where
  text : IsFormulaText e.chars
  read : ∀ {fuel : Nat} {c n : Cursor}, Ready fuel c → c.Over e.chars n → Closes n.rest →
    ∃ e', Phrase.assignment.result (follow fuel) .free c = .matched (.ok e') n.skipBlanks ∧
      e.Alike e'

theorem isSolid_of_opensFormula (h : c.rest = x :: Y) (hx : opensFormula x = true) : c.IsSolid :=
  Cursor.isSolid_of_cons h (isSpace_of_opensFormula hx) (ne_of_opensFormula hx (by decide))

/-- No blank stands in front of a formula. -/
theorem IsFormulaText.isSolid (hw : IsFormulaText w) (h : c.Over w n) : c.IsSolid := by
  obtain ⟨x, X, rfl, hx⟩ := hw.head
  exact isSolid_of_opensFormula h.rest_eq hx

/-- An assignment without a comma behind it is an expression. -/
theorem result_expression {e : Built Expr}
    (h : (follow fuel .assignment .free c).outcome = .matched e n) (hsolid : n.IsSolid)
    (hcomma : n.rest.head? ≠ some ',') :
    expression.result (follow fuel) .free c = .matched e n := by
  have htoken : (token "," : Phrase Unit).result (follow fuel) .free n = .failed := by
    refine result_token_absent _ fun hstarts => hcomma ?_
    obtain ⟨Y, hY⟩ := hstarts
    rw [← hY]
    rfl
  simp only [expression, commaSeparated, result_fmap, result_placed, result_named, result_combine,
    result_rule, h, Outcome.andThen_matched, Spacing.skip, hsolid.skipBlanks_eq, result_many,
    result_seqRight, htoken, Outcome.andThen_failed, Outcome.orElse_failed, Outcome.map_matched]
  cases e <;> rfl

/-- **An expression between parentheses or brackets.** -/
theorem result_enclosed {k : Cursor} {e : Built Expr} {a b : String} {y : Char}
    (ha : a.toList = [x]) (hb : b.toList = [y]) (hy : y = ')' ∨ y = ']') (hopen : c.Over [x] m)
    (hm : m.IsSolid) (h : Phrase.assignment.result (follow fuel) .free m = .matched e k)
    (hclose : k.Over [y] n) :
    (token a *> .rule .expression <* token b : Phrase (Built Expr)).result (follow (fuel + 2)) .free
      c = .matched e n := by
  have hk : k.rest = y :: n.rest := hclose.rest_eq
  have hksolid : k.IsSolid := by
    rcases hy with rfl | rfl <;> exact Cursor.isSolid_of_cons hk rfl (by decide)
  have hexpression : expression.result (follow (fuel + 1)) .free m = .matched e k :=
    result_expression h hksolid (by rw [hk]; rcases hy with rfl | rfl <;> nofun)
  rw [result_seqLeft, result_seqRight, result_token a (ha ▸ hopen), Outcome.andThen_matched,
    Spacing.skip, hm.skipBlanks_eq, result_rule]
  change ((expression.result (follow (fuel + 1)) .free m).andThen _) = _
  rw [hexpression, Outcome.andThen_matched, Spacing.skip, hksolid.skipBlanks_eq,
    result_token b (hb ▸ hclose), Outcome.map_matched]

/-- A formula between parentheses or brackets. -/
theorem exists_of_enclosed (he : e.IsRead) (hready : Ready fuel c) {a b : String} {y : Char}
    (ha : a.toList = [x]) (hb : b.toList = [y]) (hy : y = ')' ∨ y = ']')
    (h : c.Over (x :: (e.chars ++ [y])) n) :
    ∃ e', (token a *> .rule .expression <* token b : Phrase (Built Expr)).result
      (follow fuel) .free c = .matched (.ok e') n ∧ e.Alike e' := by
  obtain ⟨m, hopen, hinside⟩ := (Cursor.Over.append_iff (w := [x])).mp h
  obtain ⟨k, hover, hclose⟩ := Cursor.Over.append_iff.mp hinside
  have hk : k.rest = y :: n.rest := hclose.rest_eq
  obtain ⟨fuel, rfl, hinner⟩ := hready.inside hopen.lt
  obtain ⟨e', hread, halike⟩ := he.read hinner hover
    (by rw [hk]; rcases hy with rfl | rfl; exacts [.parenthesis _, .bracket _])
  have hksolid : k.IsSolid := by
    rcases hy with rfl | rfl <;> exact Cursor.isSolid_of_cons hk rfl (by decide)
  rw [hksolid.skipBlanks_eq] at hread
  exact ⟨e', result_enclosed ha hb hy hopen (he.text.isSolid hover) hread hclose, halike⟩

/-! ## Operands without suffixes -/

/-- The operands that are words. -/
def wordOperand : Phrase (Built Expr) :=
  constant "true" (.bool true) <|>
  constant "false" (.bool false) <|>
  constant "null" .null <|>
  constant "this" .this <|>
  atPlace ((fun x => .ok (.name x)) <$> name)

/-- The operands of a formula. -/
def simpleOperand : Phrase (Built Expr) := parenthesized <|> wordOperand

/-- The words that a simple operand does not start with. -/
def operatorWords : List String := ["new", "function", "typeof", "void", "delete"]

/-- The literals that a formula does not have start differently. -/
def literalRules (x : Char) : {α : Type} → Rule α → Bool
  | _, .string => '"' = x || '\'' = x
  | _, .template => '`' = x
  | _, _ => true

/-- Only the rules of literals can begin with these characters. -/
theorem literalRules_closed {α : Type} (r : Rule α) (h : literalRules x r = false) :
    r.phrase.mayOpen (literalRules x) x = false := by
  cases r with
  | string =>
    simp only [literalRules, Bool.or_eq_false_iff, decide_eq_false_iff_not] at h
    simp [Rule.phrase, Phrase.string, mayOpen, token, consumes, h.1, h.2]
  | template =>
    simp only [literalRules, decide_eq_false_iff_not] at h
    simp [Rule.phrase, Phrase.template, mayOpen, token, consumes, h]
  | _ => cases h

/-- No formula begins with a digit. -/
theorem isDigit_of_opensFormula (hx : opensFormula x = true) : Number.isDigit x = false := by
  rw [Bool.eq_false_iff]
  intro h
  have hdigit : x ≤ '9' := of_decide_eq_true (Bool.and_eq_true_iff.mp h).2
  simp only [opensFormula, isNameStart, Bool.or_eq_true, decide_eq_true_eq] at hx
  rcases hx with ((((hx | rfl) | rfl) | rfl) | rfl) | rfl
  · rcases Bool.or_eq_true_iff.mp hx with hx | hx
    · have hupper : 'A' ≤ x := (of_decide_eq_true hx).1
      exact absurd (Char.le_trans hupper hdigit) (by decide)
    · have hlower : 'a' ≤ x := of_decide_eq_true (Bool.and_eq_true_iff.mp hx).1
      exact absurd (Char.le_trans hlower hdigit) (by decide)
  all_goals exact absurd h (by decide)

/-- **The front of an operand** of a formula: a character, and a word up to `m`, perhaps empty, that
is not the word of an operator. -/
structure Front (c : Cursor) (x : Char) (w : List Char) (m : Cursor) : Prop where
  rest_eq : c.rest = x :: c.rest.tail
  opens : opensFormula x = true
  unsigned : x ≠ '!' ∧ x ≠ '~'
  stands : c.Over w m
  chars : w.all isNameChar = true
  bounds : Bounds m.rest
  words : ∀ k ∈ operatorWords, k.toList ≠ w

/-- An operand begins with none of the words that are operators. -/
theorem Front.keyword_failed (h : Front c x w m) {k : String}
    (hk : k.toList.all isNameChar = true) (hmem : k ∈ operatorWords) :
    (keyword k).result (follow fuel) .free c = .failed :=
  keyword_other h.stands h.chars h.bounds hk (h.words k hmem)

/-- **An operand of a formula is one of the simple ones.** -/
theorem Front.result_head (h : Front c x w m) (hroom : rulesPerPlace * c.rest.length < fuel) :
    (newExpression <|> primary : Phrase (Built Expr)).result (follow fuel) .free c =
      simpleOperand.result (follow fuel) .free c := by
  have hliteral {α : Type} {f : Phrase α} (hf : f.mayOpen (literalRules x) x = false)
      (hconsumes : f.consumes = true) (hbelow : f.opensBelow Rule.rank 1 = true) :
      f.result (follow fuel) .free c = .failed :=
    result_failed_of_not_mayOpen literalRules_closed h.rest_eq
      (isSolid_of_opensFormula h.rest_eq h.opens) hf hconsumes hbelow hroom
  have hother (y : Char) (hy : opensFormula y = false) : ¬ y = x :=
    (ne_of_opensFormula h.opens hy).symm
  have hnumber : number.result (follow fuel) .free c = .failed := by
    refine hliteral ?_ (by decide) (by decide)
    simp [number, placed, atom, numberText, text, atLeastOne, combine, decimalDigits, token,
      mayOpen, consumes, isDigit_of_opensFormula h.opens, hother '0' rfl, hother '.' rfl]
  have hstring : (Form.rule .string : Phrase _).result (follow fuel) .free c = .failed := by
    refine hliteral ?_ rfl rfl
    simp [mayOpen, literalRules, hother '"' rfl, hother '\'' rfl]
  have htemplate : (Form.rule .template : Phrase _).result (follow fuel) .free c = .failed := by
    refine hliteral ?_ rfl rfl
    simp [mayOpen, literalRules, hother '`' rfl]
  have harray : arrayLiteral.result (follow fuel) .free c = .failed := by
    refine hliteral ?_ (by decide) (by decide)
    simp [arrayLiteral, token, mayOpen, consumes, hother '[' rfl]
  have hobject : objectLiteral.result (follow fuel) .free c = .failed := by
    refine hliteral ?_ (by decide) (by decide)
    simp [objectLiteral, token, mayOpen, consumes, hother '\x7b' rfl]
  simp only [newExpression, primary, functionExpression, atPlace, result_orElse, result_fmap,
    result_placed, result_named, result_both, result_seqRight,
    h.keyword_failed (k := "new") (by decide) (by decide),
    h.keyword_failed (k := "function") (by decide) (by decide), hnumber, hstring, htemplate,
    harray, hobject, Outcome.andThen_failed, Outcome.map_failed, Outcome.orElse_failed,
    simpleOperand, wordOperand]

/-- **No operator stands in front** of a simple operand. -/
theorem Front.frontOperator_failed (h : Front c x w m) :
    frontOperator.result (follow fuel) .free c = .failed := by
  have htoken {k : String} {y : Char} {v : List Char} (hk : k.toList = y :: v) (hne : y ≠ x) :
      (token k : Phrase Unit).result (follow fuel) .free c = .failed :=
    token_other h.rest_eq hk hne
  have hplus : '+' ≠ x := (ne_of_opensFormula h.opens rfl).symm
  have hminus : '-' ≠ x := (ne_of_opensFormula h.opens rfl).symm
  simp only [frontOperator, updateOperator, result_orElse, result_fmap,
    htoken (k := "++") rfl hplus, htoken (k := "--") rfl hminus,
    htoken (k := "!") rfl h.unsigned.1.symm, htoken (k := "-") rfl hminus,
    htoken (k := "+") rfl hplus, htoken (k := "~") rfl h.unsigned.2.symm,
    h.keyword_failed (k := "typeof") (by decide) (by decide),
    h.keyword_failed (k := "void") (by decide) (by decide),
    h.keyword_failed (k := "delete") (by decide) (by decide), Outcome.map_failed,
    Outcome.orElse_failed]

/-! ## Operands with suffixes -/

/-- **An operand with its suffixes**: no operator stands in front, and it is read up to `n`. -/
structure Chained (fuel : Nat) (c : Cursor) (e : Expr) (n : Cursor) : Prop where
  front : frontOperator.result (follow fuel) .free c = .failed
  suffixes : ∃ head m suffixes k,
    (newExpression <|> primary : Phrase (Built Expr)).result (follow fuel) .free c =
      .matched (.ok head) m ∧
    Runs (suffix.again (follow fuel) .free) m.skipBlanks suffixes k ∧
    k.skipBlanks = n.skipBlanks ∧ applySuffixes head suffixes = .ok e

/-- An operand without suffixes is a chain of its own. -/
theorem Front.chained (h : Front c x w m) (hready : Ready fuel c)
    (hsimple : simpleOperand.result (follow fuel) .free c = .matched (.ok e) n) :
    Chained fuel c e n :=
  ⟨h.frontOperator_failed, e, n, [], _, (h.result_head hready.room).trans hsimple, .nil _,
    n.isSolid_skipBlanks.skipBlanks_eq, rfl⟩

/-- A parenthesis is the front of an operand. -/
theorem front_parenthesis (h : c.rest = '(' :: Y) : Front c '(' [] c where
  rest_eq := by rw [h]; rfl
  opens := rfl
  unsigned := by decide
  stands := ⟨rfl, rfl⟩
  chars := rfl
  bounds := by rw [h]; exact bounds_of_cons rfl _
  words := by decide

/-- **A formula in parentheses** is an operand. -/
theorem chained_parenthesized (he : e.IsRead) (hready : Ready fuel c)
    (h : c.Over ('(' :: (e.chars ++ [')'])) n) : ∃ e', Chained fuel c e' n ∧ e.Alike e' := by
  have hrest := h.rest_eq
  obtain ⟨e', hread, halike⟩ :=
    exists_of_enclosed he hready (a := "(") (b := ")") rfl rfl (.inl rfl) h
  refine ⟨e', (front_parenthesis hrest).chained hready ?_, halike⟩
  simp only [simpleOperand, parenthesized, result_orElse, result_named, hread,
    Outcome.orElse_matched]

/-- A word at the front of an operand is read as one of the words that are operands. -/
theorem head_of_word (hw : isWord w = true) (hroom : rulesPerPlace * c.rest.length < fuel)
    (h : c.Over w n) (hn : Bounds n.rest) (hwords : ∀ k ∈ operatorWords, k.toList ≠ w) :
    frontOperator.result (follow fuel) .free c = .failed ∧
      (newExpression <|> primary : Phrase (Built Expr)).result (follow fuel) .free c =
        wordOperand.result (follow fuel) .free c := by
  have hchars := all_of_isWord hw
  obtain ⟨x, v, rfl, hx, -⟩ := exists_of_isWord hw
  have hne (y : Char) (hy : isNameStart y = false) : y ≠ x := ne_of_isNameStart hx hy
  have hrest : c.rest = x :: (v ++ n.rest) := h.rest_eq
  have hfront : Front c x (x :: v) n :=
    { rest_eq := by rw [hrest]; rfl
      opens := by simp [opensFormula, hx]
      unsigned := ⟨(hne '!' rfl).symm, (hne '~' rfl).symm⟩
      stands := h
      chars := hchars
      bounds := hn
      words := hwords }
  have hparenthesis : parenthesized.result (follow fuel) .free c = .failed := by
    simp only [parenthesized, result_named, result_seqLeft, result_seqRight,
      token_other (k := "(") hrest rfl (hne '(' rfl), Outcome.andThen_failed]
  refine ⟨hfront.frontOperator_failed, ?_⟩
  rw [hfront.result_head hroom, simpleOperand, result_orElse, hparenthesis, Outcome.orElse_failed]

/-- A word is an operand if it is one of the words that are. -/
theorem chained_word (hw : isWord w = true) (hready : Ready fuel c) (h : c.Over w n)
    (hn : Bounds n.rest) (hwords : ∀ k ∈ operatorWords, k.toList ≠ w)
    (hword : wordOperand.result (follow fuel) .free c = .matched (.ok e) n) :
    Chained fuel c e n := by
  obtain ⟨hfront, hhead⟩ := head_of_word hw hready.room h hn hwords
  exact ⟨hfront, e, n, [], _, hhead.trans hword, .nil _, n.isSolid_skipBlanks.skipBlanks_eq, rfl⟩

/-- The words that are operands without being names. -/
def constants : List (String × ExprNode) :=
  [("true", .bool true), ("false", .bool false), ("null", .null), ("this", .this)]

/-- **A constant** is an operand. -/
theorem chained_constant {k : String} {node : ExprNode} (hk : (k, node) ∈ constants)
    (hready : Ready fuel c) (h : c.Over k.toList n) (hn : Bounds n.rest) :
    Chained fuel c (.mk node c.position) n := by
  have hself : (keyword k).result (follow fuel) .free c = .matched () n := keyword_self h hn
  have hword : isWord k.toList = true ∧ ∀ k' ∈ operatorWords, k'.toList ≠ k.toList := by
    simp only [constants, List.mem_cons, List.not_mem_nil, or_false, Prod.mk.injEq] at hk
    rcases hk with ⟨rfl, -⟩ | ⟨rfl, -⟩ | ⟨rfl, -⟩ | ⟨rfl, -⟩ <;> decide
  have hother (k' : String) (hk' : k' ∈ reservedWords) (hne : k'.toList ≠ k.toList) :
      (keyword k').result (follow fuel) .free c = .failed :=
    keyword_other h (all_of_isWord hword.1) hn (isNameChar_reserved k' hk') hne
  refine chained_word hword.1 hready h hn hword.2 ?_
  simp only [wordOperand, constant, atPlace, result_orElse, result_fmap, result_placed]
  simp only [constants, List.mem_cons, List.not_mem_nil, or_false, Prod.mk.injEq] at hk
  rcases hk with ⟨rfl, rfl⟩ | ⟨rfl, rfl⟩ | ⟨rfl, rfl⟩ | ⟨rfl, rfl⟩
  · rw [hself]
    rfl
  · rw [hself, hother "true" (by decide) (by decide)]
    rfl
  · rw [hself, hother "true" (by decide) (by decide), hother "false" (by decide) (by decide)]
    rfl
  · rw [hself, hother "true" (by decide) (by decide), hother "false" (by decide) (by decide),
      hother "null" (by decide) (by decide)]
    rfl

/-- **A name is read as an operand.** -/
theorem head_of_name {k : String} (hk : IsName k) (hroom : rulesPerPlace * c.rest.length < fuel)
    (h : c.Over k.toList n) (hn : Bounds n.rest) :
    frontOperator.result (follow fuel) .free c = .failed ∧
      (newExpression <|> primary : Phrase (Built Expr)).result (follow fuel) .free c =
        .matched (.ok (.mk (.name k) c.position)) n := by
  have hfree (k' : String) (hk' : k' ∈ reservedWords) : k'.toList ≠ k.toList := fun heq =>
    hk.free (String.toList_inj.mp heq ▸ hk')
  have hkeyword (k' : String) (hk' : k' ∈ reservedWords) :
      (keyword k').result (follow fuel) .free c = .failed :=
    keyword_other h (all_of_isWord hk.word) hn (isNameChar_reserved k' hk') (hfree k' hk')
  have hwords : ∀ k' ∈ operatorWords, k' ∈ reservedWords := by decide
  obtain ⟨hfront, hhead⟩ :=
    head_of_word hk.word hroom h hn fun k' hk' => hfree k' (hwords k' hk')
  refine ⟨hfront, hhead.trans ?_⟩
  simp only [wordOperand, constant, atPlace, result_orElse, result_fmap, result_placed,
    hkeyword "true" (by decide), hkeyword "false" (by decide), hkeyword "null" (by decide),
    hkeyword "this" (by decide), result_name (advancing_follow fuel) hk.word hk.free h hn]
  rfl

/-- **A name** is an operand. -/
theorem chained_name {k : String} (hk : IsName k) (hready : Ready fuel c) (h : c.Over k.toList n)
    (hn : Bounds n.rest) : Chained fuel c (.mk (.name k) c.position) n := by
  obtain ⟨hfront, hhead⟩ := head_of_name hk hready.room h hn
  exact ⟨hfront, _, n, [], _, hhead, .nil _, n.isSolid_skipBlanks.skipBlanks_eq, rfl⟩

end

end ScriptTrace.Syntax
