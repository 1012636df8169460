import ScriptTrace.Proofs.Syntax.First
import ScriptTrace.Proofs.Syntax.Grouping
import ScriptTrace.Proofs.Syntax.Word

/-!
# Proofs/Syntax/Precedence — chains of operators as they stand in a text

Between two operands the longest operator is read that stands there (`OperatorRow`).  What is built
of a chain is grouped by the levels of its operators, with operands and operators in the order of
the text (`operators_grouped`).
-/

namespace ScriptTrace.Syntax

open Grammar
open Grammar.Form
open Phrase

/-! ## Operators and their texts -/

/-- A form reads operators where they stand, and the word `in` only as a whole. -/
def Spells (f : Phrase Infix) : Prop :=
  ∀ {call : {α : Type} → Rule α → Spacing → Cursor → Attempt α} {s : Spacing} {c n : Cursor}
    {op : Infix}, f.result call s c = .matched op n →
      c.Over op.symbol.toList n ∧ (op = .binary .within → Bounds n.rest)

namespace Spells

variable {op : Infix} {w : String}

theorem either {f g : Phrase Infix} (hf : Spells f) (hg : Spells g) : Spells (f <|> g) := by
  intro call s c n op h
  rw [result_orElse, Outcome.orElse_eq_matched] at h
  exact h.elim (fun h => hf h) fun h => hg h.2

theorem named (hw : op.symbol = w) (hop : op ≠ .binary .within) :
    Spells ((fun _ => op) <$> .named (token w)) := by
  intro call s c n op' h
  rw [result_fmap, result_named, Outcome.map_eq_matched] at h
  obtain ⟨_, h, rfl⟩ := h
  exact ⟨hw ▸ over_of_token h, fun heq => absurd heq hop⟩

/-- A text that something may not follow. -/
theorem ending {α : Type} {b : Phrase α} (hw : op.symbol = w)
    (hb : op = .binary .within → ∀ {call : {α : Type} → Rule α → Spacing → Cursor → Attempt α}
      {c : Cursor}, b.result call .quiet c = .failed → Bounds c.rest) :
    Spells ((fun _ => op) <$> atom (token w <* .unless b)) := by
  intro call s c n op' h
  rw [result_fmap, Outcome.map_eq_matched, atom] at h
  obtain ⟨_, h, rfl⟩ := h
  rw [result_named, result_spaced, result_seqLeft, Outcome.andThen_eq_matched] at h
  obtain ⟨_, m, hm, h⟩ := h
  rw [Outcome.map_eq_matched, result_unless] at h
  obtain ⟨_, h, -⟩ := h
  split at h <;> cases h
  exact ⟨hw ▸ over_of_token hm, fun heq => hb heq ‹_›⟩

/-- Each operator is read from its own sign. -/
theorem between : Spells between := by
  unfold Phrase.between
  repeat' apply either
  all_goals first
    | exact named rfl (by decide)
    | exact ending rfl fun h => absurd h (by decide)
    | exact ending rfl fun _ => bounds_of_nameChar_failed

end Spells

/-- All operators between operands. -/
def infixOperators : List Infix :=
  [.logical .nullish, .logical .or, .logical .and, .binary .strictEqual, .binary .strictUnequal,
    .binary .looseEqual, .binary .looseUnequal, .binary .atMost, .binary .atLeast, .binary .less,
    .binary .greater, .binary .instanceOf, .binary .within, .binary .add, .binary .subtract,
    .binary .power, .binary .multiply, .binary .divide, .binary .remainder]

/-- The operators whose texts begin longer ones, with those. -/
def overlappingOperators : List (Infix × Infix) :=
  [(.binary .looseEqual, .binary .strictEqual), (.binary .looseUnequal, .binary .strictUnequal),
    (.binary .less, .binary .atMost), (.binary .greater, .binary .atLeast),
    (.binary .within, .binary .instanceOf), (.binary .multiply, .binary .power)]

/-- All operators between operands, listed. -/
theorem mem_infixOperators (op : Infix) : op ∈ infixOperators := by
  cases op with
  | binary op => cases op <;> decide
  | logical op => cases op <;> decide

/-- The operators of which one begins another one are listed. -/
theorem mem_overlappingOperators {op op' : Infix} (h : op.symbol.toList <+: op'.symbol.toList)
    (hlt : op.symbol.length < op'.symbol.length) : (op, op') ∈ overlappingOperators := by
  have hall : infixOperators.all (fun op => infixOperators.all fun op' =>
      !(op.symbol.toList.isPrefixOf op'.symbol.toList && op.symbol.length < op'.symbol.length) ||
        overlappingOperators.contains (op, op')) = true := by decide +kernel
  have hpair := List.all_eq_true.mp (List.all_eq_true.mp hall op (mem_infixOperators op)) op'
    (mem_infixOperators op')
  rw [List.isPrefixOf_iff_prefix.mpr h, decide_eq_true hlt] at hpair
  simpa using hpair

section

variable {fuel : Nat} {s : Spacing} {c d k n : Cursor} {op op' : Infix} {e : Built Expr}

/-- No operand begins with a star. -/
theorem unary_failed_of_star {Y : List Char} (hrest : c.rest = '*' :: Y) :
    unary.result (follow fuel) s (s.skip c) ≠ .matched e n := by
  intro h
  have hsolid : c.IsSolid := Cursor.isSolid_of_cons hrest (by decide) (by decide)
  have hskip : s.skip c = c := by cases s <;> simp [Spacing.skip, hsolid.skipBlanks_eq]
  rw [hskip] at h
  have hclosed {α : Type} (r : Rule α) : r.phrase.mayOpen (fun _ => false) '*' = false := by
    cases r <;> decide
  have hn := unary.eq_of_not_mayOpen (advancing_follow fuel) hrest hsolid
    (fun r s v n hr => readRule_ne_matched Rule.consumes_phrase (fun r _ => hclosed r) hrest hsolid
      fuel hr) (by decide) h
  have hlt : c < n := lt_of_matched (advancing_follow fuel) h (by decide)
  exact absurd (hn ▸ hlt) (lt_irrefl c)

/-- **The longest operator is read that stands there**, if an operand follows. -/
theorem longest_of_operation (hop : between.result (follow fuel) s d = .matched op k)
    (he : unary.result (follow fuel) s (s.skip k) = .matched e n)
    (h' : op'.symbol.toList <+: d.rest) : op'.symbol.length ≤ op.symbol.length := by
  by_contra hlt
  obtain ⟨hover, hbounds⟩ := Spells.between hop
  have hprefix : op.symbol.toList <+: op'.symbol.toList := by
    refine List.prefix_of_prefix_length_le ⟨_, hover.rest_eq.symm⟩ h' ?_
    rw [String.length_toList, String.length_toList]
    omega
  have hmem := mem_overlappingOperators hprefix (Nat.lt_of_not_le hlt)
  obtain ⟨Y, hY⟩ := h'
  obtain ⟨rest, o, p⟩ := d
  obtain rfl : _ = rest := hY
  simp only [overlappingOperators, List.mem_cons, List.not_mem_nil, or_false, Prod.mk.injEq] at hmem
  obtain ⟨rfl, rfl⟩ | ⟨rfl, rfl⟩ | ⟨rfl, rfl⟩ | ⟨rfl, rfl⟩ | ⟨rfl, rfl⟩ | ⟨rfl, rfl⟩ := hmem
  case inr.inr.inr.inr.inl =>
    -- The word goes on behind `in`.
    have hover : "in".toList ++ k.rest = "in".toList ++ ("stanceof".toList ++ Y) :=
      hover.rest_eq.symm
    have hrest := List.append_cancel_left hover
    exact absurd (hbounds rfl 's' (by rw [hrest]; rfl)) (by decide)
  case inr.inr.inr.inr.inr =>
    -- Only in front of an equals sign are there two stars and not the operator of both.
    have hover : "*".toList ++ k.rest = "*".toList ++ '*' :: Y := hover.rest_eq.symm
    exact unary_failed_of_star (List.append_cancel_left hover) he
  -- The longer one is tried first.
  all_goals cases s <;> cases hop

end

/-! ## Rows of operands and operators -/

/-- **Operands with operators between them**, as they stand in a text, and as they were built.
Every operator is the longest one that stands at its place. -/
inductive OperatorRow (fuel : Nat) (s : Spacing) :
    Cursor → Built Expr → List (Infix × Built Expr) → Cursor → Prop
  | last {c n : Cursor} {e : Built Expr} (h : unary.result (follow fuel) s c = .matched e n) :
    OperatorRow fuel s c e [] n
  | more {c m k n : Cursor} {e next : Built Expr} {op : Infix} {rest : List (Infix × Built Expr)}
    (h : unary.result (follow fuel) s c = .matched e m)
    (hop : (s.skip m).Over op.symbol.toList k)
    (hlongest : ∀ op' : Infix, op'.symbol.toList <+: (s.skip m).rest →
      op'.symbol.length ≤ op.symbol.length)
    (hrest : OperatorRow fuel s (s.skip k) next rest n) :
    OperatorRow fuel s c e ((op, next) :: rest) n

/-- An operator with its operand, if that was built. -/
def joined (next : Infix × Built Expr) : Built (Infix × Expr) := next.2.map fun e => (next.1, e)

section

variable {fuel : Nat} {s : Spacing} {c m n : Cursor} {first : Built Expr}
  {parts : List (Built (Infix × Expr))}

/-- What has been read as operations is a row of operators and operands. -/
theorem row_of_runs (hruns : Runs (operation.again (follow fuel) s) m parts n)
    (hfirst : unary.result (follow fuel) s c = .matched first m) :
    ∃ rest, OperatorRow fuel s c first rest n ∧ parts = rest.map joined := by
  induction hruns generalizing c first with
  | nil => exact ⟨[], .last hfirst, rfl⟩
  | cons hv _ ih =>
    rw [again, operation, result_combine, Outcome.andThen_eq_matched] at hv
    obtain ⟨op, k, hop, hv⟩ := hv
    rw [Outcome.map_eq_matched] at hv
    obtain ⟨next, hnext, rfl⟩ := hv
    obtain ⟨rest, hrow, rfl⟩ := ih hnext
    exact ⟨(op, next) :: rest, .more hfirst (Spells.between hop).1
      (fun _ => longest_of_operation hop hnext) hrow, rfl⟩

/-- Space in front of a run belongs to it. -/
theorem runs_of_skip {α : Type} {a : Phrase α} {vs : List α}
    (h : Runs (a.again (follow fuel) s) (s.skip m) vs n) :
    ∃ n', Runs (a.again (follow fuel) s) m vs n' ∧ s.skip n' = s.skip n := by
  cases h with
  | nil => exact ⟨m, .nil m, (skip_skip s m).symm⟩
  | cons hv hmore =>
    rw [again, skip_skip] at hv
    exact ⟨n, .cons hv hmore, rfl⟩

/-- A row is built if each of its operands is. -/
theorem allBuilt_joined {rest : List (Infix × Built Expr)} {vs : List (Infix × Expr)} :
    allBuilt (rest.map joined) = .ok vs ↔
      rest.map Prod.fst = vs.map Prod.fst ∧ rest.map Prod.snd = vs.map fun v => .ok v.2 := by
  rw [allBuilt_eq_ok]
  induction rest generalizing vs with
  | nil => cases vs <;> simp
  | cons next rest ih =>
    obtain ⟨op, e⟩ := next
    cases vs with
    | nil => simp
    | cons v vs =>
      obtain ⟨op', e'⟩ := v
      simp only [List.map_cons, List.cons.injEq, ih, joined]
      cases e with
      | ok e => simp [Except.map, and_assoc, and_left_comm]
      | error f => simp [Except.map]

/-- If each operand is built, so is the row. -/
theorem exists_allBuilt_joined {rest : List (Infix × Built Expr)}
    (h : ∀ operand ∈ rest.map Prod.snd, ∃ e, operand = .ok e) :
    ∃ vs, allBuilt (rest.map joined) = .ok vs := by
  induction rest with
  | nil => exact ⟨[], rfl⟩
  | cons next rest ih =>
    rw [List.map_cons, List.forall_mem_cons] at h
    obtain ⟨⟨e, he⟩, hrest⟩ := h
    obtain ⟨vs, hvs⟩ := ih hrest
    obtain ⟨hops, hes⟩ := allBuilt_joined.mp hvs
    refine ⟨(next.1, e) :: vs, allBuilt_joined.mpr ⟨?_, ?_⟩⟩
    · rw [List.map_cons, List.map_cons, hops]
    · rw [List.map_cons, List.map_cons, hes, he]

/-- The logical operators are those that make logical nodes. -/
theorem isLogical_iff (op : Infix) (left right : OperatorTree) :
    (∃ o l r, (OperatorTree.node op left right).expr.node = .logical o l r) ↔
      op.symbol ∈ ["??", "||", "&&"] := by
  cases op with
  | binary op =>
    refine iff_of_false ?_ (by cases op <;> decide)
    rintro ⟨o, l, r, h⟩
    cases h
  | logical op => exact iff_of_true ⟨op, _, _, rfl⟩ (by cases op <;> decide)

/-- **A chain of operators is built by their precedence.**  Between operands the longest operator is
read that stands there, as long as an operand follows.  If all operands are built, so is the chain:
its tree has the operands and operators of the text in their order, every operator below another one
binds tighter, or as tight on the side to which both group, and the logical nodes are those of `??`,
`||` and `&&`. -/
theorem operators_grouped {built : Built Expr}
    (h : binary.result (follow fuel) s c = .matched built n) :
    (∃ first rest m, OperatorRow fuel s c first rest m ∧ s.skip m = s.skip n ∧
      operation.result (follow fuel) s (s.skip n) = .failed ∧
      ((∀ operand ∈ first :: rest.map Prod.snd, ∃ e, operand = .ok e) → ∃ e, built = .ok e) ∧
      ∀ e, built = .ok e → ∃ t : OperatorTree, e = t.expr ∧ t.IsGrouped ∧
        t.operators = rest.map Prod.fst ∧ t.operands.map .ok = first :: rest.map Prod.snd) ∧
    ∀ op left right, (∃ o l r, (OperatorTree.node op left right).expr.node = .logical o l r) ↔
      op.symbol ∈ ["??", "||", "&&"] := by
  constructor
  · rw [binary, result_named, result_combine, Outcome.andThen_eq_matched] at h
    obtain ⟨first, m, hfirst, h⟩ := h
    obtain ⟨parts, hmany, rfl⟩ := Outcome.map_eq_matched.mp h
    obtain ⟨hruns, hend⟩ :=
      runs_of_many (advancing_follow fuel) (by decide) (skip_skip s m) hmany
    obtain ⟨n', hruns, hn'⟩ := runs_of_skip hruns
    obtain ⟨rest, hrow, rfl⟩ := row_of_runs hruns hfirst
    refine ⟨first, rest, n', hrow, hn', hend, fun hall => ?_, fun e he => ?_⟩
    · obtain ⟨⟨e, rfl⟩, hrest⟩ := List.forall_mem_cons.mp hall
      obtain ⟨vs, hvs⟩ := exists_allBuilt_joined hrest
      exact ⟨chain e vs, by rw [hvs]; rfl⟩
    · obtain ⟨first, rfl⟩ : ∃ e, first = .ok e := by
        cases first with
        | ok e => exact ⟨e, rfl⟩
        | error f => cases he
      cases hvs : allBuilt (rest.map joined) with
      | error f =>
        rw [hvs] at he
        cases he
      | ok vs =>
        rw [hvs] at he
        cases he
        obtain ⟨t, hchain, hoperands, hoperators, hgrouped⟩ := chain_grouped first vs
        obtain ⟨hops, hes⟩ := allBuilt_joined.mp hvs
        refine ⟨t, hchain, hgrouped, hoperators.trans hops.symm, ?_⟩
        rw [hoperands, List.map_cons, List.map_map, hes]
        rfl
  · exact isLogical_iff

end

/-- The text `a + b ** c ?? d`. -/
def mixedChain : Cursor := .ofText "a + b ** c ?? d".toList

/-- The name `x` in a column of the first line. -/
def nameAt (x : String) (column : Nat) : OperatorTree := .operand (.mk (.name x) ⟨1, column⟩)

/-- The text with all its parentheses: `(a + (b ** c)) ?? d`. -/
def mixedTree : OperatorTree :=
  .node (.logical .nullish)
    (.node (.binary .add) (nameAt "a" 1)
      (.node (.binary .power) (nameAt "b" 5) (nameAt "c" 10)))
    (nameAt "d" 15)

theorem mixedChain_read : binary.result (follow 9) .free mixedChain =
    .matched (.ok mixedTree.expr) ⟨[], 15, ⟨1, 16⟩⟩ := by
  rfl

/-- A chain with operators of several levels is grouped by them. -/
theorem mixedChain_grouped :
    binary.result (follow 9) .free mixedChain = .matched (.ok mixedTree.expr) ⟨[], 15, ⟨1, 16⟩⟩ ∧
    ∃ t : OperatorTree, mixedTree.expr = t.expr ∧ t.IsGrouped := by
  obtain ⟨⟨first, rest, m, -, -, -, -, htree⟩, -⟩ := operators_grouped mixedChain_read
  obtain ⟨t, he, ht, -⟩ := htree _ rfl
  exact ⟨mixedChain_read, t, he, ht⟩

end ScriptTrace.Syntax
