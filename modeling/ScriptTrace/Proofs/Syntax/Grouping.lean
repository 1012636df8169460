import Mathlib.Order.Basic
import ScriptTrace.Proofs.Syntax.Operand

/-!
# Proofs/Syntax/Grouping — how a chain of operators is grouped

`OperatorTree` is a chain of operators with its grouping.  The tree that is built of a chain holds
the operands and the operators in their order, and every operator stands below one that binds no
tighter than itself (`chain_grouped`).
-/

namespace ScriptTrace.Syntax

/-! ## Operators and their levels -/

/-- **The operators from the loosest to the tightest**, those of one level together. -/
def operatorLevels : List (List String) :=
  [["??"], ["||"], ["&&"], ["===", "!==", "==", "!="], ["<", ">", "<=", ">=", "instanceof", "in"],
    ["+", "-"], ["*", "/", "%"], ["**"]]

/-- The level of an operator; a larger one binds tighter. -/
def Infix.level (op : Infix) : Nat := operatorLevels.findIdx (·.contains op.symbol)

/-- The only operator that groups to the right. -/
def Infix.isPower (op : Infix) : Bool := op.symbol = "**"

/-- What an operator may have as left operand: one that binds tighter, or equally tight unless it
groups to the right. -/
def Infix.AdmitsLeft (p q : Infix) : Prop :=
  p.level < q.level ∨ p.level = q.level ∧ p.isPower = false

/-- What an operator may have as right operand: one that binds tighter, or the power operator behind
itself. -/
def Infix.AdmitsRight (p q : Infix) : Prop :=
  p.level < q.level ∨ p.isPower = true ∧ q.isPower = true

/-- **A chain of operators with its grouping.** -/
inductive OperatorTree where
  | operand (e : Expr)
  | node (op : Infix) (left right : OperatorTree)

namespace OperatorTree

/-- The operator at the top. -/
def top? : OperatorTree → Option Infix
  | operand _ => none
  | node op _ _ => some op

/-- The operands from left to right. -/
def operands : OperatorTree → List Expr
  | operand e => [e]
  | node _ left right => left.operands ++ right.operands

/-- The operators from left to right. -/
def operators : OperatorTree → List Infix
  | operand _ => []
  | node op left right => left.operators ++ op :: right.operators

/-- The expression that the tree is: a logical node for a logical operator, a binary one for all
others, each where its left operand starts. -/
def expr : OperatorTree → Expr
  | operand e => e
  | node (.logical op) left right => .mk (.logical op left.expr right.expr) left.expr.position
  | node (.binary op) left right => .mk (.binary op left.expr right.expr) left.expr.position

/-- **Every operator below another one may stand there.** -/
def IsGrouped : OperatorTree → Prop
  | operand _ => True
  | node op left right => left.IsGrouped ∧ right.IsGrouped ∧
      (∀ q ∈ left.top?, op.AdmitsLeft q) ∧ ∀ q ∈ right.top?, op.AdmitsRight q

theorem expr_node (op : Infix) (left right : OperatorTree) :
    (node op left right).expr = op.node left.expr right.expr := by
  cases op <;> rfl

end OperatorTree

/-! ## Levels and powers -/

section

variable {p q : Infix}

theorem Infix.power_eq (op : Infix) : op.power = op.level + 1 := by
  cases op with
  | binary op => cases op <;> decide
  | logical op => cases op <;> decide

theorem Infix.rightPower_eq (op : Infix) :
    op.rightPower = if op.isPower then 7 else op.level + 1 := by
  cases op with
  | binary op => cases op <;> decide
  | logical op => cases op <;> decide

/-- Nothing binds as tight as the power operator. -/
theorem Infix.isPower_iff (op : Infix) : op.isPower = true ↔ 7 ≤ op.level := by
  cases op with
  | binary op => cases op <;> decide
  | logical op => cases op <;> decide

theorem Infix.level_le (op : Infix) : op.level ≤ 7 := by
  cases op with
  | binary op => cases op <;> decide
  | logical op => cases op <;> decide

/-- What the operand on the right keeps for itself may stand there. -/
theorem Infix.admitsRight_of_lt (h : p.rightPower < q.power) : p.AdmitsRight q := by
  rw [rightPower_eq, power_eq] at h
  split at h
  · rename_i hp
    exact .inr ⟨hp, (isPower_iff q).mpr (Nat.le_of_lt_succ h)⟩
  · exact .inl (Nat.lt_of_succ_lt_succ h)

/-- All other operators take what is on their left as operand. -/
theorem Infix.admitsLeft_of_not_lt (h : ¬ p.rightPower < q.power) : q.AdmitsLeft p := by
  have hp := p.level_le
  rw [rightPower_eq, power_eq] at h
  by_cases hpow : p.isPower = true
  · rw [if_pos hpow] at h
    have hp' := (isPower_iff p).mp hpow
    exact .inl (by omega)
  · rw [if_neg hpow] at h
    obtain hlt | heq := Nat.lt_or_eq_of_le (by omega : q.level ≤ p.level)
    · exact .inl hlt
    · refine .inr ⟨heq, Bool.eq_false_iff.mpr fun hq => hpow ?_⟩
      rw [isPower_iff] at hq ⊢
      omega

end

/-! ## Climbing -/

/-- The operator that comes next may have the tree as left operand. -/
def OperatorTree.Precedes (t : OperatorTree) (rest : List (Infix × Expr)) : Prop :=
  ∀ next ∈ rest.head?, ∀ q ∈ t.top?, next.1.AdmitsLeft q

/-- The operator that comes next binds no tighter than `power`. -/
def StopsAt (power : Nat) (rest : List (Infix × Expr)) : Prop :=
  ∀ next ∈ rest.head?, ¬ power < next.1.power

/-- **Climbing takes operators from the front and groups them**, up to one that does not bind
tighter than `power`. -/
theorem climb_grouped {fuel power : Nat} {t : OperatorTree} {rest : List (Infix × Expr)}
    (hfuel : rest.length ≤ fuel) (ht : t.IsGrouped) (hnext : t.Precedes rest)
    (htop : ∀ q ∈ t.top?, power < q.power) :
    ∃ (t' : OperatorTree) (taken left : List (Infix × Expr)),
      climb fuel power t.expr rest = (t'.expr, left) ∧ rest = taken ++ left ∧
      t'.operands = t.operands ++ taken.map Prod.snd ∧
      t'.operators = t.operators ++ taken.map Prod.fst ∧
      t'.IsGrouped ∧ t'.Precedes left ∧ (∀ q ∈ t'.top?, power < q.power) ∧ StopsAt power left := by
  induction fuel generalizing power t rest with
  | zero =>
    obtain rfl := List.eq_nil_of_length_eq_zero (Nat.le_zero.mp hfuel)
    exact ⟨t, [], [], rfl, rfl, by simp, by simp, ht, hnext, htop, by simp [StopsAt]⟩
  | succ fuel ih =>
    cases rest with
    | nil => exact ⟨t, [], [], rfl, rfl, by simp, by simp, ht, hnext, htop, by simp [StopsAt]⟩
    | cons first rest =>
      obtain ⟨op, e⟩ := first
      by_cases hop : power < op.power
      · have hrest : rest.length ≤ fuel := Nat.le_of_succ_le_succ hfuel
        obtain ⟨right, taken, mid, hclimb, rfl, hoperands, hoperators, hright, -, hrtop, hstop⟩ :=
          @ih op.rightPower (.operand e) _ hrest trivial
            (fun _ _ _ hq => by cases hq) fun _ hq => by cases hq
        have hgrouped : (OperatorTree.node op t right).IsGrouped :=
          ⟨ht, hright, hnext (op, e) rfl, fun q hq => Infix.admitsRight_of_lt (hrtop q hq)⟩
        have hprec : (OperatorTree.node op t right).Precedes mid := fun next hmid q hq => by
          cases hq
          exact Infix.admitsLeft_of_not_lt (hstop next hmid)
        have hlength : mid.length ≤ fuel := by
          rw [List.length_append] at hrest
          omega
        obtain ⟨t', taken', left, hclimb', rfl, hoperands', hoperators', ht'⟩ :=
          @ih power _ _ hlength hgrouped hprec fun q hq => by
            cases hq
            exact hop
        refine ⟨t', (op, e) :: taken ++ taken', left, ?_, by simp, ?_, ?_, ht'⟩
        · rw [OperatorTree.expr] at hclimb
          rw [OperatorTree.expr_node] at hclimb'
          rw [climb, if_pos hop, hclimb]
          exact hclimb'
        · simp [hoperands', OperatorTree.operands, hoperands]
        · simp [hoperators', OperatorTree.operators, hoperators]
      · refine ⟨t, [], (op, e) :: rest, ?_, rfl, by simp, by simp, ht, hnext, htop, ?_⟩
        · rw [climb, if_neg hop]
        · simpa [StopsAt] using Nat.le_of_not_lt hop

/-- **The tree of a chain is grouped**, with all its operands and operators in their order. -/
theorem chain_grouped (first : Expr) (rest : List (Infix × Expr)) :
    ∃ t : OperatorTree, chain first rest = t.expr ∧ t.operands = first :: rest.map Prod.snd ∧
      t.operators = rest.map Prod.fst ∧ t.IsGrouped := by
  obtain ⟨t, taken, left, hclimb, hsplit, hoperands, hoperators, ht, -, -, hstop⟩ :=
    @climb_grouped rest.length 0 (.operand first) rest le_rfl trivial
      (fun _ _ _ hq => by cases hq) (fun _ hq => by cases hq)
  -- Every operator binds tighter than nothing, so none is left.
  have hleft : left = [] := by
    cases left with
    | nil => rfl
    | cons next left =>
      refine absurd ?_ (hstop next rfl)
      rw [Infix.power_eq]
      exact Nat.succ_pos _
  rw [hleft, List.append_nil] at hsplit
  subst hsplit
  exact ⟨t, congrArg Prod.fst hclimb, hoperands, hoperators, ht⟩

end ScriptTrace.Syntax
