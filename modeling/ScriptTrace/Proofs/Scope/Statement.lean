import ScriptTrace.Proofs.Scope.Course

/-!
# Proofs/Scope/Statement — what is seen while a statement is executed

A step recorded from the current scope while a statement is executed, and no call that it made is in
progress, was recorded in an operand of the innermost statement.  The operand is evaluated in the
scope that this statement stands in, or in that of the present iteration of a loop
(`steps_show_executing_scope`).

There are three places where this fails.  The condition of a `while` loop behind its first
iteration, the condition of a `do` loop and the pattern that takes what a `try` caught are evaluated
in the scope that the statement executed last was in. -/

namespace ScriptTrace

open Syntax (Expr Pattern Stmt StmtNode Declarator DeclarationKind ForStart LoopOver Handler Case)

/-! ## Where operands are evaluated -/

/-- Loops whose iterations may have scopes of their own. -/
def Syntax.StmtNode.HasIterationScopes : StmtNode → Prop
  | .forLoop .. | .forEach .. => True
  | _ => False

/-- The scope in which an expression or a pattern looks for names. -/
def Work.scope? {α : Type} : Work α → Option ScopeId
  | .expr scope _ => some scope
  | .bind scope .. => some scope
  | _ => none

/-- Iterations of a loop. -/
def Work.IsIteration {α : Type} : Work α → Prop
  | .whileLoop .. | .doLoop .. | .forLoop .. => True
  | _ => False

section

variable {α : Type} {w : Work α}

theorem Work.IsOperand.not_isStatement (h : w.IsOperand) : ¬ w.IsStatement := by
  cases w with
  | expr | bind | apply => exact id
  | _ => exact h.elim

theorem Work.IsIteration.not_isStatement (h : w.IsIteration) : ¬ w.IsStatement := by
  cases w with
  | whileLoop | doLoop | forLoop => exact id
  | _ => exact h.elim

theorem Work.IsIteration.not_isOperand (h : w.IsIteration) : ¬ w.IsOperand := by
  cases w with
  | whileLoop | doLoop | forLoop => exact id
  | _ => exact h.elim

end

/-- **Operands that are evaluated in the scope left behind** by the statement executed before them,
in the iteration `n` of a loop. -/
inductive Inherits (n : Nat) : StmtNode → {β : Type} → Work β → Prop
  | whileTest {test : Expr} {body : Stmt} {scope : ScopeId} (h : 1 < n) :
    Inherits n (.while test body) (.expr scope test)
  | doTest {test : Expr} {body : Stmt} {scope : ScopeId} :
    Inherits n (.doWhile body test) (.expr scope test)
  | parameter {body : List Stmt} {h : Handler} {finalizer : Option (List Stmt)} {scope : ScopeId}
    {p : Pattern} {v : Value} {mode : BindMode} {line : Nat} (hp : h.parameter = some p) :
    Inherits n (.try body (some h) finalizer) (.bind scope p v mode line)

/-- **An operand is in place** in the current scope `σ`: this is the scope that the statement stands
in, or that of an iteration, in which the operand looks for names. -/
def InPlace (scope : ScopeId) (node : StmtNode) {β : Type} (o : Work β) (σ : ScopeId) : Prop :=
  σ = scope ∨ node.HasIterationScopes ∧ o.scope? = some σ

/-- The iterations of a loop, with their number and the scope that they begin in. -/
inductive Iterates (scope : ScopeId) : StmtNode → Nat → {β : Type} → Work β → ScopeId → Prop
  | while {test : Expr} {body : Stmt} {label : Option String} {line n : Nat} {σ : ScopeId}
    (hn : 0 < n) (h : n = 1 → σ = scope) :
    Iterates scope (.while test body) n (.whileLoop scope test body label line) σ
  | doWhile {test : Expr} {body : Stmt} {label : Option String} {line n : Nat} {σ : ScopeId} :
    Iterates scope (.doWhile body test) n (.doLoop scope body test label line) σ
  | for {start : Option ForStart} {test update : Option Expr} {body : Stmt}
    {label : Option String} {isFresh : Bool} {n : Nat} {inner σ : ScopeId} :
    Iterates scope (.forLoop start test update body) n
      (.forLoop inner ⟨test, update, body, label, isFresh⟩) σ

theorem Iterates.isIteration {scope σ : ScopeId} {node : StmtNode} {n : Nat} {β : Type}
    {v : Work β} (h : Iterates scope node n v σ) : v.IsIteration := by
  cases h <;> trivial

/-- What a statement asks for besides other statements, and where: its operands, and the next
iteration. -/
def Expects (scope : ScopeId) (node : StmtNode) (n : Nat) {β : Type} (v : Work β) (σ : ScopeId) :
    Prop :=
  v.IsOperand ∧ (InPlace scope node v σ ∨ Inherits n node v) ∨ Iterates scope node (n + 1) v σ

/-- An action that a statement consists of. -/
abbrev Serves (scope : ScopeId) (node : StmtNode) (n k : Nat) (s : Option ScopeId) {α : Type}
    (x : Evaluator → Exec α) (s' : Option ScopeId) : Prop :=
  Conducts k (Expects scope node n) s x s'

namespace Serves

variable {scope inner σ : ScopeId} {node : StmtNode} {n k : Nat} {s : Option ScopeId} {α : Type}

/-! ## Operands -/

theorem operand {v : Work α} (hv : v.IsOperand) (h : InPlace scope node v σ) :
    Serves scope node n k (some σ) (fun ev => ev.run v) (some σ) :=
  Conducts.operand hv fun _ hσ => .inl ⟨hv, .inl (hσ σ rfl ▸ h)⟩

theorem inherited {v : Work α} (hv : v.IsOperand) (h : Inherits n node v) :
    Serves scope node n k s (fun ev => ev.run v) s :=
  Conducts.operand hv fun _ _ => .inl ⟨hv, .inr h⟩

theorem iteration {v : Work α} (h : ∀ σ, Iterates scope node (n + 1) v σ) :
    Serves scope node n k s (fun ev => ev.run v) none := .request fun σ _ => .inr (.inr (h σ))

theorem expr {e : Expr} :
    Serves scope node n k (some scope) (fun ev => ev.expr inner e) (some scope) :=
  operand (v := .expr inner e) trivial (.inl rfl)

theorem bindTo {p : Pattern} {v : Value} {mode : BindMode} {line : Nat} :
    Serves scope node n k (some scope) (fun ev => ev.bind inner p v mode line) (some scope) :=
  operand (v := .bind inner p v mode line) trivial (.inl rfl)

theorem record {line : Nat} {kind : StepKind} {description : String} (hk : kind.isHere = false) :
    Serves scope node n k s (fun _ => Exec.record inner line kind description) s :=
  .calm (.record hk)

/-! ## Declarations and expressions -/

theorem exprFor {target : Pattern} {e : Expr} :
    Serves scope node n k (some scope) (fun ev => ev.exprFor inner target e) (some scope) := by
  unfold Evaluator.exprFor
  split
  · unfold Evaluator.exprNamed
    split
    · exact .calm .makeClosure
    · exact expr
  · exact expr

theorem execDeclarator {kind : DeclarationKind} {d : Declarator} {line : Nat} :
    Serves scope node n k (some scope) (fun ev => ev.execDeclarator inner kind d line)
      (some scope) := by
  unfold Evaluator.execDeclarator
  dsimp only
  split
  · exact record rfl
  · exact .bind bindTo fun _ => record rfl
  · exact .bind exprFor fun v => .seq .inspect fun _ => .bind bindTo fun _ => record rfl

theorem execDeclarators {kind : DeclarationKind} {line : Nat} : ∀ {ds : List Declarator},
    Serves scope node n k (some scope) (fun ev => ev.execDeclarators inner kind line ds)
      (some scope)
  | [] => .pure
  | _ :: _ => .bind execDeclarator fun _ => execDeclarators

theorem execExpression {e : Expr} {excerpt : String} {line : Nat} :
    Serves scope node n k (some scope) (fun ev => ev.execExpression scope e excerpt line)
      (some scope) := by
  unfold Evaluator.execExpression
  dsimp only
  split
  iterate 3 exact .bind expr fun _ => .seq .inspect fun _ => record rfl
  · exact .orElseShow expr rfl

/-! ## Blocks and loops -/

/-- Each statement of a list is a statement of its own, and serves nobody. -/
theorem statements {body : List Stmt} :
    Serves scope node n k s (fun ev => ev.statements inner body) none := by
  induction body generalizing s with
  | nil => exact .forget .pure
  | cons st body ih =>
    refine .bind .statement fun c => ?_
    split
    · exact ih
    · exact .pure

theorem execBlock {body : List Stmt} :
    Serves scope node n k s (fun ev => ev.execBlock inner body) none :=
  .seq .innerScope fun _ => .seq .hoistBlock fun _ => statements

theorem loopTest {test : Expr} {word : String} {line : Nat}
    (h : Serves scope node n k s (fun ev => ev.expr inner test) s) :
    Serves scope node n k s (fun ev => ev.loopTest inner test word line) s :=
  .bind h fun _ => .bind (record rfl) fun _ => .pure

/-- The body of a loop, and what is done if the loop goes on. -/
theorem loopBody {x : Evaluator → Exec Completion} {body : Stmt} {label : Option String}
    (hx : Serves scope node n k none x none) :
    Serves scope node n k s (fun ev => do
      match loopEnd? label (← ev.statement inner body) with
      | some c => return c
      | none => x ev) none := by
  refine .bind .statement fun c => ?_
  split
  · exact .pure
  · exact hx

/-- **An iteration of a loop that tests first**: only the first one is sure to test where the loop
stands. -/
theorem execWhile {test : Expr} {body : Stmt} {label : Option String} {line : Nat} (hn : 0 < n)
    (h : n = 1 → σ = scope) :
    Serves scope (.while test body) n k (some σ)
      (fun ev => ev.execWhile scope test body label line) none := by
  have htest : Serves scope (.while test body) n k (some σ) (fun ev => ev.expr scope test)
      (some σ) := by
    rcases Nat.eq_or_lt_of_le hn with rfl | hlater
    · exact h rfl ▸ expr
    · exact inherited (v := .expr scope test) trivial (.whileTest hlater)
  refine .seq .tick fun _ => .bind (loopTest htest) fun passed => ?_
  refine .ite (fun _ => .forget .pure) fun _ => loopBody ?_
  exact iteration fun _ => .while (Nat.succ_pos n) (by omega)

/-- An iteration of a loop that tests last. -/
theorem execDoWhile {test : Expr} {body : Stmt} {label : Option String} {line : Nat} :
    Serves scope (.doWhile body test) n k s
      (fun ev => ev.execDoWhile scope body test label line) none := by
  refine .seq .tick fun _ => loopBody ?_
  refine .bind (loopTest (inherited (v := .expr scope test) trivial .doTest)) fun passed => ?_
  exact .ite (fun _ => .pure) fun _ => iteration fun _ => .doWhile

theorem nextScope {isFresh : Bool} : (Evaluator.nextScope inner isFresh).Calm := by
  unfold Evaluator.nextScope
  split
  · exact .copyScope
  · exact .pure

/-- **An iteration of a counting loop** goes to its own scope. -/
theorem execCounting {start : Option ForStart} {test update : Option Expr} {body : Stmt}
    {label : Option String} {isFresh : Bool} :
    Serves scope (.forLoop start test update body) n k s
      (fun ev => ev.execCounting inner ⟨test, update, body, label, isFresh⟩) none := by
  have hexpr {σ : ScopeId} {e : Expr} : Serves scope (.forLoop start test update body) n k (some σ)
      (fun ev => ev.expr σ e) (some σ) := operand (v := .expr σ e) trivial (.inr ⟨trivial, rfl⟩)
  have htest : Serves scope (.forLoop start test update body) n k (some inner)
      (fun ev => ev.countingTest inner ⟨test, update, body, label, isFresh⟩) (some inner) := by
    unfold Evaluator.countingTest
    split
    · exact loopTest hexpr
    · exact .pure
  refine .seq .tick fun _ => .bind .enter fun _ => .bind htest fun passed => ?_
  refine .ite (fun _ => .forget .pure) fun _ => loopBody (.seq nextScope fun next => ?_)
  have hupdate : Serves scope (.forLoop start test update body) n k none
      (fun ev => ev.countingUpdate next ⟨test, update, body, label, isFresh⟩) none := by
    unfold Evaluator.countingUpdate
    split
    · exact .bind .enter fun _ => .forget (.discard hexpr)
    · exact .pure
  exact .bind hupdate fun _ => iteration fun _ => .for

theorem execStart {start : Option ForStart} {line : Nat} :
    Serves scope node n k (some scope) (fun ev => ev.execStart inner start line)
      (some scope) := by
  unfold Evaluator.execStart
  split
  · exact .bind execDeclarators fun _ => .pure
  · exact .bind (.discard expr) fun _ => .pure
  · exact .pure

theorem execFor {start : Option ForStart} {test update : Option Expr} {body : Stmt}
    {label : Option String} :
    Serves scope (.forLoop start test update body) n k (some scope)
      (fun ev => ev.execFor scope start test update body label) none := by
  refine .seq .innerScope fun _ => .bind execStart fun isFresh => ?_
  exact .seq nextScope fun first => iteration fun _ => .for

theorem eachScope {mode : BindMode} : (Evaluator.eachScope inner mode).Calm := by
  unfold Evaluator.eachScope
  split
  · exact .pure
  · exact .innerScope

/-- The iterations over values go to scopes of their own. -/
theorem execEach (hnode : node.HasIterationScopes) {word : String} {kind : Option DeclarationKind}
    {target : Pattern} {body : Stmt} {label : Option String} {line : Nat} {vs : List Value} :
    Serves scope node n k s (fun ev => ev.execEach inner word kind target body label line vs)
      none := by
  induction vs generalizing s with
  | nil => exact .forget .pure
  | cons v vs ih =>
    refine .seq .tick fun _ => .seq eachScope fun own => .bind .enter fun _ => ?_
    have hbind : Serves scope node n k (some own)
        (fun ev => ev.bind own target v (kind.elim .assign declarationMode) line) (some own) :=
      operand (v := .bind own target v _ line) trivial (.inr ⟨hnode, rfl⟩)
    exact .seq .inspect fun _ => .bind hbind fun _ => .bind (record rfl) fun _ => loopBody ih

theorem execForEach (hnode : node.HasIterationScopes) {loop : LoopOver}
    {kind : Option DeclarationKind} {target : Pattern} {source : Expr} {body : Stmt}
    {label : Option String} :
    Serves scope node n k (some scope)
      (fun ev => ev.execForEach scope loop kind target source body label) none :=
  .bind expr fun _ => .seq .loopItems fun _ => execEach hnode

/-! ## Try and switch -/

/-- The parameter of a handler is bound in the scope of the handler. -/
theorem bindThrown {body : List Stmt} {h : Handler} {finalizer : Option (List Stmt)} {t : Thrown}
    {line : Nat} :
    Serves scope (.try body (some h) finalizer) n k s
      (fun ev => ev.bindThrown inner h t line) s := by
  unfold Evaluator.bindThrown
  split
  · rename_i p hp
    exact inherited (v := .bind inner p t.value _ line) trivial (.parameter hp)
  · exact .pure

theorem execHandler {body : List Stmt} {h : Handler} {finalizer : Option (List Stmt)}
    {t : Thrown} {line : Nat} :
    Serves scope (.try body (some h) finalizer) n k s
      (fun ev => ev.execHandler inner h t line) none := by
  refine .seq .innerScope fun _ => .bind bindThrown fun _ => .bind (record rfl) fun _ => ?_
  exact .seq .hoistBlock fun _ => .catchThrown statements

theorem handle {body : List Stmt} {handler : Option Handler} {finalizer : Option (List Stmt)}
    {outcome : Except Thrown Completion} {line : Nat} :
    Serves scope (.try body handler finalizer) n k s
      (fun ev => ev.handle inner handler outcome line) none := by
  unfold Evaluator.handle
  split
  · exact execHandler
  · exact .forget .pure

/-- **A `try` statement.**  What stands behind `finally` is executed where the statement stands. -/
theorem execTry {body : List Stmt} {handler : Option Handler} {finalizer : Option (List Stmt)}
    {line : Nat} :
    Serves scope (.try body handler finalizer) n k s
      (fun ev => ev.execTry inner body handler finalizer line) none := by
  refine .bind (record rfl) fun _ => .bind (.catchThrown execBlock) fun _ => ?_
  refine .bind handle fun outcome => ?_
  cases finalizer with
  | none => exact .calm .resume
  | some last =>
    refine .bind .enter fun _ => .bind (record rfl) fun _ => .bind execBlock fun c => ?_
    split
    · exact .calm .resume
    · exact .pure

/-- The tests of the cases are operands of the `switch`. -/
theorem matchingCases {v : Value} : ∀ {cs : List Case},
    Serves scope node n k (some scope) (fun ev => ev.matchingCases inner v cs) (some scope)
  | [] => .pure
  | c :: cs => by
    unfold Evaluator.matchingCases
    split
    · exact matchingCases
    · exact .bind expr fun _ => .ite (fun _ => .pure) fun _ => matchingCases

/-- The statements of the cases are statements of their own. -/
theorem execCases {cs : List Case} :
    Serves scope node n k s (fun ev => ev.execCases inner cs) none := by
  induction cs generalizing s with
  | nil => exact .forget .pure
  | cons c cs ih =>
    refine .bind statements fun completion => ?_
    split
    · exact ih
    · exact .pure
    · exact .pure

theorem execSwitch {value : Expr} {cases : List Case} {line : Nat} :
    Serves scope node n k (some scope) (fun ev => ev.execSwitch scope value cases line) none := by
  refine .bind expr fun _ => .seq .innerScope fun _ => .seq .hoistBlock fun _ => ?_
  exact .bind matchingCases fun _ => .bind (record rfl) fun _ => execCases

/-! ## All statements -/

theorem returnValue {e : Option Expr} :
    Serves scope node n k (some scope) (fun ev => ev.returnValue scope e) (some scope) := by
  cases e with
  | none => exact .pure
  | some e => exact expr

/-- **A statement** goes to the scope that it stands in. -/
theorem execStatement {label : Option String} {st : Stmt} :
    Serves scope st.node 0 k s (fun ev => ev.execStatement scope label st) none := by
  obtain ⟨node, position, excerpt⟩ := st
  refine .seq .tick fun _ => .bind .enter fun _ => ?_
  cases node with
  | declare => exact .bind execDeclarators fun _ => .forget .pure
  | function => exact .bind (record rfl) fun _ => .forget .pure
  | «return» =>
    refine .bind returnValue fun _ => .seq .inspect fun _ => ?_
    exact .bind (record rfl) fun _ => .forget .pure
  | ifElse test yes no =>
    refine .bind expr fun v => .bind (record rfl) fun _ => .ite (fun _ => .statement) fun _ => ?_
    cases no with
    | none => exact .forget .pure
    | some st => exact .statement
  | forLoop => exact execFor
  | forEach loop kind target source body =>
    have hnode : (StmtNode.forEach loop kind target source body).HasIterationScopes := trivial
    exact execForEach hnode
  | «while» test body =>
    exact .request fun σ hσ => .inr (.inr (.while Nat.one_pos fun _ => hσ scope rfl))
  | doWhile => exact iteration fun _ => .doWhile
  | «break» | «continue» => exact .bind (record rfl) fun _ => .forget .pure
  | throw e =>
    refine .bind expr fun v => .seq .inspect fun _ => .bind (record rfl) fun _ => ?_
    exact .forget (.calm .throwValue)
  | «try» => exact execTry
  | switch => exact execSwitch
  | labeled name body =>
    refine .bind .statement fun c => ?_
    split
    · exact .pure
    · exact .pure
  | block => exact execBlock
  | expr e => exact .bind execExpression fun _ => .forget .pure
  | empty => exact .forget .pure

end Serves

/-- The work that is done for a statement: the statement itself, or an iteration of its loop. -/
inductive Present (scope : ScopeId) (st : Stmt) : Nat → {β : Type} → Work β → ScopeId → Prop
  | statement {label : Option String} {σ : ScopeId} :
    Present scope st 0 (.statement scope label st) σ
  | iteration {n : Nat} {β : Type} {v : Work β} {σ : ScopeId} (h : Iterates scope st.node n v σ) :
    Present scope st n v σ

/-- Whatever is present in a statement serves it. -/
theorem Present.serves {scope σ : ScopeId} {st : Stmt} {n k : Nat} {β : Type} {v : Work β}
    (h : Present scope st n v σ) :
    Serves scope st.node n k (some σ) (fun ev => ev.step v) none := by
  cases h with
  | statement => exact .execStatement
  | iteration h =>
    generalize st.node = node at h ⊢
    cases h with
    | «while» hn h => exact .execWhile hn h
    | doWhile => exact .execDoWhile
    | «for» => exact .execCounting

/-! ## What is executed innermost -/

/-- **What is executed innermost** in a run of the statement `w`: a statement and the scope that it
stands in, the number of iterations that its loop has begun, and the work being done for it with its
fuel and the machine that it began in. -/
inductive Executing (w : Work Completion) (fuel : Nat) (m : Machine) :
    ScopeId → Stmt → Nat → {β : Type} → Work β → Nat → Machine → Prop
  | first {scope : ScopeId} {label : Option String} {st : Stmt}
    (hw : w = .statement scope label st) : Executing w fuel m scope st 0 w fuel m
  | inner {scope scope' : ScopeId} {st st' : Stmt} {label' : Option String} {n k : Nat} {β : Type}
    {v : Work β} {m₁ m₂ : Machine} (h : Executing w fuel m scope st n v (k + 1) m₁)
    (ha : Asks (fun ev => ev.step v) (.bounded k) m₁ (.statement scope' label' st') m₂) :
    Executing w fuel m scope' st' 0 (.statement scope' label' st') k m₂
  | again {scope : ScopeId} {st : Stmt} {n k : Nat} {β γ : Type} {v : Work β} {v' : Work γ}
    {m₁ m₂ : Machine} (h : Executing w fuel m scope st n v (k + 1) m₁)
    (ha : Asks (fun ev => ev.step v) (.bounded k) m₁ v' m₂) (hv : v'.IsIteration) :
    Executing w fuel m scope st (n + 1) v' k m₂

/-- **An operand of the statement executed innermost**, in the iteration `n` of its loop, with the
fuel that it is given and the machine that it begins in. -/
inductive OperandOf (w : Work Completion) (fuel : Nat) (m : Machine) (scope : ScopeId) (st : Stmt)
    (n : Nat) {γ : Type} (o : Work γ) (k : Nat) (m₂ : Machine) : Prop
  | intro {β : Type} {v : Work β} {m₁ : Machine} (h : Executing w fuel m scope st n v (k + 1) m₁)
    (ha : Asks (fun ev => ev.step v) (.bounded k) m₁ o m₂) (ho : o.IsOperand)

section

variable {w : Work Completion} {fuel n k : Nat} {m m₁ m₂ : Machine} {scope : ScopeId} {st : Stmt}
  {β γ : Type} {v : Work β} {o : Work γ}

/-- What a statement asks for is another statement, an operand in its place, or the next
iteration. -/
theorem Present.asked (h : Present scope st n v m₁.scope)
    (ha : Asks (fun ev => ev.step v) (.bounded k) m₁ o m₂) :
    m₂.frames = m₁.frames ∧ (o.IsStatement ∨ Expects scope st.node n o m₂.scope) :=
  h.serves.asks (fun _ hs => Option.some.inj hs) ha

/-- **What a statement executes is present in it**, in the scope of the machine. -/
theorem Executing.present (h : Executing w fuel m scope st n v k m₁) :
    Present scope st n v m₁.scope ∧ m₁.frames = m.frames := by
  induction h with
  | first hw => exact ⟨hw ▸ .statement, rfl⟩
  | inner _ ha ih => exact ⟨.statement, (ih.1.asked ha).1.trans ih.2⟩
  | again _ ha hv ih =>
    obtain ⟨hframes, hs | ⟨ho, -⟩ | hnext⟩ := ih.1.asked ha
    · exact absurd hs hv.not_isStatement
    · exact absurd ho hv.not_isOperand
    · exact ⟨.iteration hnext, hframes.trans ih.2⟩

/-- **Operands are evaluated in place**, or in the scope left behind. -/
theorem OperandOf.inPlace (h : OperandOf w fuel m scope st n o k m₂) :
    InPlace scope st.node o m₂.scope ∨ Inherits n st.node o := by
  obtain ⟨h, ha, ho⟩ := h
  obtain ⟨-, hs | ⟨-, hplace⟩ | hnext⟩ := h.present.1.asked ha
  · exact absurd hs ho.not_isStatement
  · exact hplace
  · exact absurd ho hnext.isIteration.not_isOperand

theorem OperandOf.isOperand (h : OperandOf w fuel m scope st n o k m₂) : o.IsOperand := by
  obtain ⟨-, -, ho⟩ := h
  exact ho

theorem OperandOf.frames_eq (h : OperandOf w fuel m scope st n o k m₂) : m₂.frames = m.frames := by
  obtain ⟨h, ha, -⟩ := h
  exact (h.present.1.asked ha).1.trans h.present.2

/-- What was recorded from the current scope was recorded in an operand: induction on the fuel. -/
theorem Executing.shows {t : Step} (hhere : t.kind.isHere = true) :
    ∀ {k : Nat} {m₁ : Machine} {scope : ScopeId} {st : Stmt} {n : Nat} {β : Type} {v : Work β},
      Executing w fuel m scope st n v k m₁ → t ∈ m₁.shown ((v.exec k).after m₁) →
      ∃ (scope' : ScopeId) (st' : Stmt) (n' : Nat) (γ : Type) (o : Work γ) (k' : Nat)
        (m₂ : Machine),
        OperandOf w fuel m scope' st' n' o k' m₂ ∧ t ∈ m₂.shown ((o.exec k').after m₂)
  | 0, m₁, _, _, _, _, v, _, ht => by
    have hnone : m₁.shown ((v.exec 0).after m₁) = [] := List.drop_eq_nil_of_le le_rfl
    rw [hnone] at ht
    cases ht
  | k + 1, m₁, scope, st, n, _, v, h, ht => by
    have hserves : Serves scope st.node n k (some m₁.scope) (fun ev => ev.step v) none :=
      h.present.1.serves
    obtain ⟨shown, hshown, hbegun⟩ := hserves.shows m₁
    have hmem : t ∈ shown := Machine.shown_eq hshown ▸ ht
    obtain ⟨γ, v', m₂, hbegins, hmem⟩ := hbegun t hmem hhere
    obtain ⟨-, hs | ⟨ho, -⟩ | hnext⟩ := h.present.1.asked hbegins.asks
    · cases v' with
      | statement => exact (h.inner hbegins.asks).shows hhere hmem
      | _ => exact hs.elim
    · exact ⟨scope, st, n, γ, v', k, m₂, ⟨h, hbegins.asks, ho⟩, hmem⟩
    · exact (h.again hbegins.asks hnext.isIteration).shows hhere hmem

end

/-- **Steps show the scope of the statement being executed.**  A step recorded from the current
scope in a run of a statement, with no call in progress that was made in this run, was recorded in
an operand of the statement executed innermost, and shows the scope that the operand was begun in:
the scope of that statement or of an iteration, except in the three places that inherit it. -/
theorem steps_show_executing_scope {scope : ScopeId} {label : Option String} {st : Stmt}
    {fuel : Nat} {m : Machine} {t : Step}
    (ht : t ∈ m.shown (((Work.statement scope label st).exec fuel).after m))
    (hhere : t.kind.isHere = true) (hcalls : t.callStack = m.frames.reverse) :
    ∃ (scope' : ScopeId) (st' : Stmt) (n : Nat) (γ : Type) (o : Work γ) (k : Nat) (m₁ : Machine),
      OperandOf (.statement scope label st) fuel m scope' st' n o k m₁ ∧
      t.IsFrom m₁.scope m₁ ((o.exec k).after m₁) ∧
      (InPlace scope' st'.node o m₁.scope ∨ Inherits n st'.node o) := by
  obtain ⟨scope', st', n, γ, o, k, m₁, ho, hmem⟩ := (Executing.first rfl).shows hhere ht
  obtain ⟨shown, hshown, hfrom⟩ := (ho.isOperand.stays k m₁).shows
  rw [Machine.shown_eq hshown] at hmem
  exact ⟨scope', st', n, γ, o, k, m₁, ho, hfrom t hmem (hcalls.trans (by rw [ho.frames_eq])),
    ho.inPlace⟩

/-- The first statement of a source. -/
def firstStatement (source : String) : Stmt :=
  match Syntax.readProgram source with
  | .ok (st :: _) => st
  | _ => default

/-- A block that prints a name that it binds. -/
def printingBlock : String := "\x7b let y = 1; console.log(y) \x7d"

/-- Its step of printing is the picture from the scope of the block. -/
theorem printingBlock_shows_its_scope :
    ∃ t ∈ (Machine.initial .default).shown
      (((Work.statement Scopes.globalId none (firstStatement printingBlock)).exec 20).after
        (Machine.initial .default)),
      t.kind.isHere = true ∧ t.callStack = (Machine.initial .default).frames.reverse ∧
      ∃ (scope : ScopeId) (st : Stmt) (n : Nat) (γ : Type) (o : Work γ) (k : Nat) (m₁ : Machine),
        OperandOf (.statement Scopes.globalId none (firstStatement printingBlock)) 20
          (Machine.initial .default) scope st n o k m₁ ∧
        t.IsFrom m₁.scope m₁ ((o.exec k).after m₁) ∧
        (InPlace scope st.node o m₁.scope ∨ Inherits n st.node o) := by
  have hview : ((Machine.initial .default).shown
      (((Work.statement Scopes.globalId none (firstStatement printingBlock)).exec 20).after
        (Machine.initial .default))).map (fun t => (t.kind, t.callStack)) =
      [(.declaration, []), (.console, [])] := by
    decide +kernel
  have hconsole : (StepKind.console, ([] : List Frame)) ∈
      [(StepKind.declaration, []), (.console, [])] := by simp
  obtain ⟨t, ht, heq⟩ := List.mem_map.mp (hview ▸ hconsole)
  obtain ⟨hkind, hstack⟩ := Prod.mk.inj heq
  have hhere : t.kind.isHere = true := by rw [hkind]; rfl
  exact ⟨t, ht, hhere, hstack, steps_show_executing_scope ht hhere hstack⟩

/-- A loop whose condition prints behind a block that binds a name. -/
def printingCondition : String := "do \x7b let y = 1; \x7d while (console.log(\"x\"))"

/-- The condition stands in the global scope, as the step of the loop shows, but what it prints
shows the block, which was left. -/
theorem printingCondition_shows_left_block :
    (run .default printingCondition).steps.toList.map
      (fun t => (t.kind, t.callStack, t.scopes.map fun s => s.name)) =
    [(.eventLoop, [], ["Global"]), (.declaration, [], ["Block", "Global"]),
      (.console, [], ["Block", "Global"]), (.loop, [], ["Global"]),
      (.eventLoop, [], ["Global"])] := by
  decide +kernel

end ScriptTrace
