import Mathlib.Data.List.Chain
import ScriptTrace.Proofs.Syntax.Word
import ScriptTrace.Syntax.Text

/-!
# Proofs/Syntax/Formula — formulas and their texts

A formula is made of names and constants by operators, members and calls, without the operators that
a text may run together (`-`, `+`, `++`, `--`), without assignments and without literals of strings,
numbers, arrays, objects and functions.  The text of a formula starts with a word or one of three
signs, and no arrow stands in it.
-/

namespace ScriptTrace.Syntax

open Grammar
open Phrase

/-! ## Formulas -/

/-- **A name of a program.** -/
structure IsName (x : String) : Prop where
  word : isWord x.toList = true
  free : x ∉ reservedWords

/-- The operators that a formula has in front. -/
def UnaryOperator.isPlain : UnaryOperator → Bool
  | .not | .bitNot | .typeof | .void => true
  | _ => false

/-- Whether a formula takes members of such an expression. -/
def ExprNode.hasMembers : ExprNode → Bool
  | .name _ | .this | .call .. | .member .. | .binary .. | .logical .. | .conditional .. => true
  | _ => false

/-- Whether a formula calls such an expression. -/
def ExprNode.isCalled : ExprNode → Bool
  | .name _ | .member .. | .call .. => true
  | _ => false

/-- **Formulas**: names, constants, operators, members and calls. -/
inductive Expr.IsFormula : Expr → Prop
  | name {x : String} {p : Position} (hx : IsName x) : IsFormula (.mk (.name x) p)
  | bool (b : Bool) (p : Position) : IsFormula (.mk (.bool b) p)
  | null (p : Position) : IsFormula (.mk .null p)
  | this (p : Position) : IsFormula (.mk .this p)
  | unary {op : UnaryOperator} {e : Expr} {p : Position} (hop : op.isPlain = true)
    (he : e.IsFormula) : IsFormula (.mk (.unary op e) p)
  | binary {op : BinaryOperator} {l r : Expr} {p : Position} (hl : l.IsFormula)
    (hr : r.IsFormula) : IsFormula (.mk (.binary op l r) p)
  | logical {op : LogicalOperator} {l r : Expr} {p : Position} (hl : l.IsFormula)
    (hr : r.IsFormula) : IsFormula (.mk (.logical op l r) p)
  | conditional {test yes no : Expr} {p : Position} (ht : test.IsFormula) (hy : yes.IsFormula)
    (hn : no.IsFormula) : IsFormula (.mk (.conditional test yes no) p)
  | member {object : Expr} {x : String} {isOptional : Bool} {p : Position}
    (ho : object.IsFormula) (hobject : object.node.hasMembers = true)
    (hx : isWord x.toList = true) : IsFormula (.mk (.member object (.static x) isOptional) p)
  | index {object i : Expr} {isOptional : Bool} {p : Position} (ho : object.IsFormula)
    (hobject : object.node.hasMembers = true) (hi : i.IsFormula) :
    IsFormula (.mk (.member object (.computed i) isOptional) p)
  | call {callee : Expr} {args : List Expr} {isOptional : Bool} {p : Position}
    (hc : callee.IsFormula) (hcallee : callee.node.isCalled = true)
    (hargs : ∀ e ∈ args, e.IsFormula) :
    IsFormula (.mk (.call callee (args.map .single) isOptional) p)

/-- **The same tree**, perhaps at other places. -/
inductive Expr.Alike : Expr → Expr → Prop
  | name (x : String) (p q : Position) : Alike (.mk (.name x) p) (.mk (.name x) q)
  | bool (b : Bool) (p q : Position) : Alike (.mk (.bool b) p) (.mk (.bool b) q)
  | null (p q : Position) : Alike (.mk .null p) (.mk .null q)
  | this (p q : Position) : Alike (.mk .this p) (.mk .this q)
  | unary {op : UnaryOperator} {e e' : Expr} {p q : Position} (h : e.Alike e') :
    Alike (.mk (.unary op e) p) (.mk (.unary op e') q)
  | binary {op : BinaryOperator} {l l' r r' : Expr} {p q : Position} (hl : l.Alike l')
    (hr : r.Alike r') : Alike (.mk (.binary op l r) p) (.mk (.binary op l' r') q)
  | logical {op : LogicalOperator} {l l' r r' : Expr} {p q : Position} (hl : l.Alike l')
    (hr : r.Alike r') : Alike (.mk (.logical op l r) p) (.mk (.logical op l' r') q)
  | conditional {t t' y y' n n' : Expr} {p q : Position} (ht : t.Alike t') (hy : y.Alike y')
    (hn : n.Alike n') : Alike (.mk (.conditional t y n) p) (.mk (.conditional t' y' n') q)
  | member {o o' : Expr} {x : String} {isOptional : Bool} {p q : Position} (h : o.Alike o') :
    Alike (.mk (.member o (.static x) isOptional) p) (.mk (.member o' (.static x) isOptional) q)
  | index {o o' i i' : Expr} {isOptional : Bool} {p q : Position} (ho : o.Alike o')
    (hi : i.Alike i') :
    Alike (.mk (.member o (.computed i) isOptional) p)
      (.mk (.member o' (.computed i') isOptional) q)
  | call {c c' : Expr} {args args' : List Expr} {isOptional : Bool} {p q : Position}
    (hc : c.Alike c') (hargs : List.Forall₂ Alike args args') :
    Alike (.mk (.call c (args.map .single) isOptional) p)
      (.mk (.call c' (args'.map .single) isOptional) q)

/-! ## Their texts -/

/-- The characters of the text of an expression. -/
def Expr.chars (e : Expr) : List Char := e.fullText.toList

/-- The characters of the text of an operand. -/
def Expr.operandChars (e : Expr) : List Char := e.operandText.toList

/-- The characters of a list of arguments. -/
def argumentChars : List Expr → List Char
  | [] => []
  | e :: es => e.chars ++ es.flatMap fun e => ',' :: ' ' :: e.chars

/-- The mark of an optional member or call. -/
def optionalMark (isOptional : Bool) : List Char := if isOptional then ['?', '.'] else []

section

variable {e l r test yes no object callee i : Expr} {p : Position}

/-- An operand stands in parentheses if it needs them. -/
theorem operandText_eq (e : Expr) :
    e.operandText = if e.node.needsParentheses then "(" ++ e.fullText ++ ")" else e.fullText := by
  obtain ⟨node, p⟩ := e
  rfl

theorem operandChars_of_bare (h : e.node.needsParentheses = false) :
    e.operandChars = e.chars := by
  rw [Expr.operandChars, operandText_eq, if_neg (Bool.eq_false_iff.mp h)]
  rfl

theorem operandChars_of_wrapped (h : e.node.needsParentheses = true) :
    e.operandChars = '(' :: (e.chars ++ [')']) := by
  rw [Expr.operandChars, operandText_eq, if_pos h]
  simp [Expr.chars]

theorem chars_bool (b : Bool) :
    (Expr.mk (.bool b) p).chars = (if b then "true" else "false").toList := rfl

theorem chars_unary (op : UnaryOperator) :
    (Expr.mk (.unary op e) p).chars = op.front.toList ++ e.operandChars :=
  String.toList_append

theorem chars_binary (op : BinaryOperator) :
    (Expr.mk (.binary op l r) p).chars =
      l.operandChars ++ ' ' :: (op.symbol.toList ++ ' ' :: r.operandChars) := by
  change (l.operandText ++ " " ++ op.symbol ++ " " ++ r.operandText).toList = _
  simp [Expr.operandChars]

theorem chars_logical (op : LogicalOperator) :
    (Expr.mk (.logical op l r) p).chars =
      l.operandChars ++ ' ' :: (op.symbol.toList ++ ' ' :: r.operandChars) := by
  change (l.operandText ++ " " ++ op.symbol ++ " " ++ r.operandText).toList = _
  simp [Expr.operandChars]

theorem chars_conditional :
    (Expr.mk (.conditional test yes no) p).chars =
      test.operandChars ++ ' ' :: '?' :: ' ' :: (yes.chars ++ ' ' :: ':' :: ' ' :: no.chars) := by
  change (test.operandText ++ " ? " ++ yes.fullText ++ " : " ++ no.fullText).toList = _
  simp [Expr.chars, Expr.operandChars]

theorem chars_member (x : String) (isOptional : Bool) :
    (Expr.mk (.member object (.static x) isOptional) p).chars =
      object.operandChars ++ ((if isOptional then ['?', '.'] else ['.']) ++ x.toList) := by
  change (object.operandText ++ (if isOptional then "?." else ".") ++ x).toList = _
  cases isOptional <;> simp [Expr.operandChars]

theorem chars_index (isOptional : Bool) :
    (Expr.mk (.member object (.computed i) isOptional) p).chars =
      object.operandChars ++ (optionalMark isOptional ++ '[' :: (i.chars ++ [']'])) := by
  change (object.operandText ++ (if isOptional then "?." else "") ++ "[" ++ i.fullText ++
    "]").toList = _
  cases isOptional <;> simp [Expr.chars, Expr.operandChars, optionalMark]

theorem intercalate_comma (w : List Char) (ws : List (List Char)) :
    [',', ' '].intercalate (w :: ws) = w ++ ws.flatMap fun v => ',' :: ' ' :: v := by
  induction ws generalizing w with
  | nil => simp
  | cons v ws ih => simp [List.intercalate_cons_cons, ih v]

theorem elementTexts_single (args : List Expr) :
    elementTexts (args.map .single) = args.map Expr.fullText := by
  induction args with
  | nil => rfl
  | cons e es ih => exact congrArg (e.fullText :: ·) ih

/-- Arguments with commas between them, character by character. -/
theorem toList_commaJoined (args : List Expr) :
    (commaJoined (elementTexts (args.map .single))).toList = argumentChars args := by
  rw [elementTexts_single, commaJoined, String.toList_intercalate, List.map_map]
  cases args with
  | nil => rfl
  | cons e es =>
    change [',', ' '].intercalate (e.chars :: es.map Expr.chars) = _
    rw [intercalate_comma, List.flatMap_map]
    rfl

/-- A call is its callee with the arguments in parentheses. -/
theorem chars_call (args : List Expr) (isOptional : Bool) :
    (Expr.mk (.call callee (args.map .single) isOptional) p).chars =
      callee.chars ++ (optionalMark isOptional ++ '(' :: (argumentChars args ++ [')'])) := by
  rw [← toList_commaJoined]
  change (callee.fullText ++ (if isOptional then "?." else "") ++ "(" ++
    commaJoined (elementTexts (args.map .single)) ++ ")").toList = _
  cases isOptional <;> simp [Expr.chars, optionalMark]

/-! ## How texts start -/

/-- The characters that a formula starts with. -/
def opensFormula (x : Char) : Bool := isNameStart x || x = '(' || x = '!' || x = '~'

theorem ne_of_opensFormula {x y : Char} (hx : opensFormula x = true)
    (hy : opensFormula y = false) : x ≠ y := by
  rintro rfl
  simp [hx] at hy

theorem isSpace_of_opensFormula {x : Char} (hx : opensFormula x = true) : isSpace x = false := by
  rw [Bool.eq_false_iff]
  intro hspace
  simp only [isSpace, Bool.or_eq_true, decide_eq_true_eq] at hspace
  rcases hspace with ((((rfl | rfl) | rfl) | rfl) | rfl) | rfl <;> exact absurd hx (by decide)

/-- **No arrow stands in a text.** -/
def Arrowless (w : List Char) : Prop := w.IsChain fun x y => ¬ (x = '=' ∧ y = '>')

theorem Arrowless.append {w w' : List Char} (h : Arrowless w) (h' : Arrowless w')
    (hhead : w'.head? ≠ some '>') : Arrowless (w ++ w') := by
  refine List.isChain_append.mpr ⟨h, h', fun x _ y hy ⟨_, hgt⟩ => hhead ?_⟩
  rw [hy, hgt]

/-- **A text that a formula may have.** -/
structure IsFormulaText (w : List Char) : Prop where
  head : ∃ x Y, w = x :: Y ∧ opensFormula x = true
  arrowless : Arrowless w

/-- A formula goes on with what has no arrow in it. -/
theorem IsFormulaText.append {w w' : List Char} (h : IsFormulaText w) (h' : Arrowless w')
    (hhead : w'.head? ≠ some '>') : IsFormulaText (w ++ w') where
  head := by
    obtain ⟨x, Y, rfl, hx⟩ := h.head
    exact ⟨x, Y ++ w', rfl, hx⟩
  arrowless := h.arrowless.append h' hhead

theorem IsFormulaText.head_ne {w : List Char} (h : IsFormulaText w) : w.head? ≠ some '>' := by
  obtain ⟨x, Y, rfl, hx⟩ := h.head
  rintro ⟨rfl⟩
  cases hx

/-- A text with a formula in the middle. -/
theorem IsFormulaText.between {w v : List Char} (h : IsFormulaText w) (hv : Arrowless v) :
    Arrowless (v ++ w) := hv.append h.arrowless h.head_ne

theorem arrowless_of_not_mem {w : List Char} (h : '=' ∉ w) : Arrowless w := by
  refine List.Pairwise.isChain ?_
  exact List.pairwise_of_forall_mem_list fun x hx y _ hxy => h (hxy.1 ▸ hx)

/-- A word is a formula. -/
theorem isFormulaText_word {w : List Char} (hw : isWord w = true) : IsFormulaText w where
  head := by
    obtain ⟨x, v, rfl, hx, -⟩ := exists_of_isWord hw
    exact ⟨x, v, rfl, by simp [opensFormula, hx]⟩
  arrowless := arrowless_of_not_mem fun hmem =>
    absurd (List.all_eq_true.mp (all_of_isWord hw) _ hmem) (by decide)

/-- An operand is a formula itself, or one in parentheses. -/
theorem isFormulaText_operand (h : IsFormulaText e.chars) : IsFormulaText e.operandChars := by
  cases hnode : e.node.needsParentheses with
  | false => rwa [operandChars_of_bare hnode]
  | true =>
    rw [operandChars_of_wrapped hnode]
    refine ⟨⟨'(', _, rfl, rfl⟩, ?_⟩
    have hclose : Arrowless [')'] := arrowless_of_not_mem (by decide)
    exact (h.append hclose nofun).between (v := ['(']) (arrowless_of_not_mem (by decide))

/-- Arguments have no arrow among them. -/
theorem arrowless_arguments {args : List Expr} (h : ∀ e ∈ args, IsFormulaText e.chars) :
    Arrowless (argumentChars args) ∧ (argumentChars args).head? ≠ some '>' := by
  cases args with
  | nil => exact ⟨.nil, nofun⟩
  | cons e es =>
    obtain ⟨he, hes⟩ := List.forall_mem_cons.mp h
    suffices hmore : Arrowless (es.flatMap fun e => ',' :: ' ' :: e.chars) ∧
        (es.flatMap fun e => ',' :: ' ' :: e.chars).head? ≠ some '>' from
      have htext := he.append hmore.1 hmore.2
      ⟨htext.arrowless, htext.head_ne⟩
    clear h he
    induction es with
    | nil => exact ⟨.nil, nofun⟩
    | cons e' es ih =>
      obtain ⟨he', hes⟩ := List.forall_mem_cons.mp hes
      have hcomma : Arrowless [',', ' '] := arrowless_of_not_mem (by decide)
      have htext := he'.append (ih hes).1 (ih hes).2
      refine ⟨?_, nofun⟩
      simpa using htext.between hcomma

/-- The text of an operator between operands. -/
theorem isFormulaText_infixed {w v : List Char} (symbol : List Char) (hw : IsFormulaText w)
    (hv : IsFormulaText v) (hsymbol : Arrowless (' ' :: (symbol ++ [' ']))) :
    IsFormulaText (w ++ ' ' :: (symbol ++ ' ' :: v)) := by
  simpa using hw.append (hv.between hsymbol) nofun

/-- The text of an operand with something behind it. -/
theorem isFormulaText_suffixed {w v : List Char} (hw : IsFormulaText w) (isOptional : Bool)
    (hv : Arrowless v) (hhead : v.head? ≠ some '>') :
    IsFormulaText (w ++ (optionalMark isOptional ++ v)) := by
  cases isOptional with
  | false => exact hw.append hv hhead
  | true =>
    have hmark : Arrowless ['?', '.'] := arrowless_of_not_mem (by decide)
    exact hw.append (hmark.append hv hhead) nofun

/-- **The text of a formula.** -/
theorem Expr.IsFormula.isFormulaText (h : e.IsFormula) : IsFormulaText e.chars := by
  induction h with
  | name hx => exact isFormulaText_word hx.word
  | bool b p =>
    rw [chars_bool]
    cases b <;> exact isFormulaText_word rfl
  | null p => exact isFormulaText_word (w := "null".toList) rfl
  | this p => exact isFormulaText_word (w := "this".toList) rfl
  | @unary op e p hop he ih =>
    rw [chars_unary]
    have htext := isFormulaText_operand ih
    refine ⟨?_, htext.between ?_⟩
    · cases op <;> first | exact ⟨_, _, rfl, rfl⟩ | cases hop
    · cases op <;> exact arrowless_of_not_mem (by decide)
  | @binary op l r p hl hr ihl ihr =>
    rw [chars_binary]
    refine isFormulaText_infixed _ (isFormulaText_operand ihl) (isFormulaText_operand ihr) ?_
    cases op <;> simp [Arrowless, BinaryOperator.symbol]
  | @logical op l r p hl hr ihl ihr =>
    rw [chars_logical]
    refine isFormulaText_infixed _ (isFormulaText_operand ihl) (isFormulaText_operand ihr) ?_
    cases op <;> simp [Arrowless, LogicalOperator.symbol]
  | @conditional test yes no p ht hy hn iht ihy ihn =>
    have hcolon : Arrowless [' ', ':', ' '] := arrowless_of_not_mem (by decide)
    have hbranches := ihy.append (ihn.between hcolon) nofun
    rw [chars_conditional]
    exact isFormulaText_infixed ['?'] (isFormulaText_operand iht) hbranches
      (arrowless_of_not_mem (by decide))
  | @member object x isOptional p ho hobject hx ih =>
    rw [chars_member]
    refine (isFormulaText_operand ih).append ((isFormulaText_word hx).between ?_) ?_
    · cases isOptional <;> exact arrowless_of_not_mem (by decide)
    · cases isOptional <;> exact nofun
  | @index object i isOptional p ho hobject hi iho ihi =>
    rw [chars_index]
    refine isFormulaText_suffixed (isFormulaText_operand iho) isOptional ?_ nofun
    have hclose : Arrowless [']'] := arrowless_of_not_mem (by decide)
    exact (ihi.append hclose nofun).between (v := ['[']) (arrowless_of_not_mem (by decide))
  | @call callee args isOptional p hc hcallee hargs ihc ihargs =>
    rw [chars_call]
    refine isFormulaText_suffixed ihc isOptional ?_ nofun
    obtain ⟨hlist, hhead⟩ := arrowless_arguments ihargs
    have hclose : Arrowless [')'] := arrowless_of_not_mem (by decide)
    have hopen : Arrowless ['('] := arrowless_of_not_mem (by decide)
    refine hopen.append (hlist.append hclose nofun) ?_
    cases hargs : argumentChars args with
    | nil => exact nofun
    | cons x w => simpa [hargs] using hhead

/-! ## How a statement does not start -/

/-- The words that statements start with. -/
def statementWords : List String :=
  ["var", "let", "const", "function", "if", "for", "while", "do", "return", "break", "continue",
    "throw", "try", "switch"]

theorem isNameChar_statementWord : ∀ w ∈ statementWords, w.toList.all isNameChar = true := by
  decide

/-- No colon comes next. -/
def Unlabeled (X : List Char) : Prop := (X.drop (blankLength X)).head? ≠ some ':'

/-- **A text that no other statement starts with**: its word, perhaps none, is neither a word of a
statement nor a label. -/
def Opens (T : List Char) : Prop :=
  ∃ w X, T = w ++ X ∧ w.all isNameChar = true ∧ Bounds X ∧
    (∀ k ∈ statementWords, k.toList ≠ w) ∧ Unlabeled X

theorem unlabeled_of_cons {x : Char} (hx : isSpace x = false) (hslash : x ≠ '/')
    (hcolon : x ≠ ':') (X : List Char) : Unlabeled (x :: X) := by
  rw [Unlabeled, blankLength_of_solid hx (commentLength?_of_ne hslash)]
  simpa using hcolon

theorem unlabeled_of_space {X : List Char} (h : Unlabeled X) : Unlabeled (' ' :: X) := by
  rwa [Unlabeled, blankLength_of_space rfl, Nat.add_comm, List.drop_succ_cons]

theorem bounds_of_cons {x : Char} (hx : isNameChar x = false) (X : List Char) :
    Bounds (x :: X) := by
  simpa [Bounds] using hx

/-- A sign in front is no word. -/
theorem opens_of_sign {x : Char} (hx : x ∈ ['(', '!', '~']) (X : List Char) : Opens (x :: X) := by
  have hsign : isNameChar x = false ∧ isSpace x = false ∧ x ≠ '/' ∧ x ≠ ':' := by
    simp only [List.mem_cons, List.not_mem_nil, or_false] at hx
    rcases hx with rfl | rfl | rfl <;> decide
  refine ⟨[], x :: X, rfl, rfl, bounds_of_cons hsign.1 X, by decide, ?_⟩
  exact unlabeled_of_cons hsign.2.1 hsign.2.2.1 hsign.2.2.2 X

theorem opens_of_word {w X : List Char} (hw : isWord w = true) (hX : Bounds X)
    (hk : ∀ k ∈ statementWords, k.toList ≠ w) (hlabel : Unlabeled X) : Opens (w ++ X) :=
  ⟨w, X, rfl, all_of_isWord hw, hX, hk, hlabel⟩

theorem opens_operand {Y : List Char} (h : Opens (e.chars ++ Y)) : Opens (e.operandChars ++ Y) := by
  cases hnode : e.node.needsParentheses with
  | false => rwa [operandChars_of_bare hnode]
  | true =>
    rw [operandChars_of_wrapped hnode]
    exact opens_of_sign (by decide) _


/-- No colon stands behind the first word of a formula. -/
theorem IsFormulaText.unlabeled {w : List Char} (h : IsFormulaText w) (Y : List Char) :
    Unlabeled (w ++ Y) := by
  obtain ⟨x, X, rfl, hx⟩ := h.head
  exact unlabeled_of_cons (isSpace_of_opensFormula hx) (ne_of_opensFormula hx (by decide))
    (ne_of_opensFormula hx (by decide)) _

/-- **No other statement starts with a formula.** -/
theorem Expr.IsFormula.opens (h : e.IsFormula) {Y : List Char} (hY : Bounds Y)
    (hlabel : Unlabeled Y) : Opens (e.chars ++ Y) := by
  have hspace (X : List Char) : Bounds (' ' :: X) := bounds_of_cons rfl X
  induction h generalizing Y with
  | @name x p hx =>
    refine opens_of_word hx.word hY (fun k hk heq => hx.free ?_) hlabel
    have hreserved : ∀ k ∈ statementWords, k ∈ reservedWords := by decide
    have hx : k = x := String.toList_inj.mp heq
    exact hx ▸ hreserved k hk
  | bool b p =>
    rw [chars_bool]
    cases b <;> exact opens_of_word rfl hY (by decide) hlabel
  | null p => exact opens_of_word (w := "null".toList) rfl hY (by decide) hlabel
  | this p => exact opens_of_word (w := "this".toList) rfl hY (by decide) hlabel
  | @unary op e p hop he ih =>
    have hword := unlabeled_of_space ((isFormulaText_operand he.isFormulaText).unlabeled Y)
    rw [chars_unary, List.append_assoc]
    cases op with
    | not | bitNot => exact opens_of_sign (by decide) _
    | typeof => exact opens_of_word (w := "typeof".toList) rfl (hspace _) (by decide) hword
    | void => exact opens_of_word (w := "void".toList) rfl (hspace _) (by decide) hword
    | negate | plus | delete => cases hop
  | @binary op l r p hl hr ihl ihr =>
    rw [chars_binary, List.append_assoc]
    refine opens_operand (ihl (hspace _) (unlabeled_of_space ?_))
    cases op <;> exact nofun
  | @logical op l r p hl hr ihl ihr =>
    rw [chars_logical, List.append_assoc]
    refine opens_operand (ihl (hspace _) (unlabeled_of_space ?_))
    cases op <;> exact nofun
  | @conditional test yes no p ht hy hn iht ihy ihn =>
    rw [chars_conditional, List.append_assoc]
    exact opens_operand (iht (hspace _) (unlabeled_of_space nofun))
  | @member object x isOptional p ho hobject hx ih =>
    rw [chars_member, List.append_assoc]
    refine opens_operand (ih ?_ ?_) <;> cases isOptional <;>
      first | exact bounds_of_cons rfl _ | exact nofun
  | @index object i isOptional p ho hobject hi iho ihi =>
    rw [chars_index, List.append_assoc]
    refine opens_operand (iho ?_ ?_) <;> cases isOptional <;>
      first | exact bounds_of_cons rfl _ | exact nofun
  | @call callee args isOptional p hc hcallee hargs ihc ihargs =>
    rw [chars_call, List.append_assoc]
    refine ihc ?_ ?_ <;> cases isOptional <;>
      first | exact bounds_of_cons rfl _ | exact nofun

end

end ScriptTrace.Syntax
