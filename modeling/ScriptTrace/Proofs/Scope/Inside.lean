import ScriptTrace.Proofs.Scope.Requests
import ScriptTrace.Proofs.Scope.Statement
import ScriptTrace.Proofs.Syntax.Variable

/-!
# Proofs/Scope/Inside — statements stay inside a scope

The scopes that statements make lie inside the scope that the statement stands in.  So whatever a
statement asks for besides expressions is done inside any scope around it: the statements in its
row, the patterns that it binds and the next iteration of its loop (`Work.IsLocal`).
-/

namespace ScriptTrace

open Syntax (Expr Pattern Stmt StmtNode Declarator DeclarationKind ForStart LoopOver Handler Case)

/-! ## Scopes inside a scope -/

/-- **A scope lies inside another one**, or is that one itself. -/
inductive Machine.Inside (m : Machine) (c : ScopeId) : ScopeId → Prop
  | self (h : c < m.scopes.size) : Inside m c c
  | under {σ p : ScopeId} {r : Scope} (hr : m.scopes[σ]? = some r) (hp : r.parent = some p)
    (h : Inside m c p) : Inside m c σ

/-- A scope lies inside another one and is not that one. -/
inductive Machine.Beneath (m : Machine) (c σ : ScopeId) : Prop
  | intro {p : ScopeId} {r : Scope} (hr : m.scopes[σ]? = some r) (hp : r.parent = some p)
    (h : m.Inside c p)

namespace Machine.Inside

variable {m m' : Machine} {c σ : ScopeId} {name : String}

theorem later (h : m.Inside c σ) (hg : m.Grows m') : m'.Inside c σ := by
  induction h with
  | self h => exact .self (h.trans_le hg.size_le)
  | under hr hp _ ih =>
    obtain ⟨r', hr', hlater⟩ := hg.scope hr
    exact .under hr' (hlater.parent.trans hp) ih

/-- The way outward passes the scope. -/
theorem mem_chain (h : m.Inside c σ) (hm : m.scopes.IsTree) : c ∈ m.scopes.chain σ := by
  induction h with
  | self h =>
    obtain ⟨r, hr⟩ := Scopes.IsTree.exists_of_lt h
    rw [hm.chain_eq hr]
    exact List.mem_cons_self
  | under hr hp _ ih =>
    rw [hm.chain_eq hr, hp]
    exact List.mem_cons_of_mem _ ih

/-- A scope is not older than one around it. -/
theorem le (h : m.Inside c σ) (hm : m.scopes.IsTree) : c ≤ σ := by
  induction h with
  | self => exact le_rfl
  | under hr hp _ ih => exact ih.trans (hm.parent_lt hr hp).1.le

/-- **A name that a scope binds is bound inside it** for every scope inside it. -/
theorem binder (h : m.Inside c σ) (hm : m.scopes.IsTree)
    (hbound : (m.scopes.bindingIn? name c).isSome) :
    ∃ owner, m.scopes.binder? σ name = some owner ∧ m.Inside c owner := by
  induction h with
  | self h =>
    obtain ⟨r, hr⟩ := Scopes.IsTree.exists_of_lt h
    refine ⟨c, ?_, .self h⟩
    rw [Scopes.binder?, hm.chain_eq hr]
    exact List.find?_cons_of_pos hbound
  | @under σ p r hr hp h ih =>
    rw [Scopes.binder?, hm.chain_eq hr, hp]
    cases hown : (m.scopes.bindingIn? name σ).isSome with
    | true => exact ⟨σ, List.find?_cons_of_pos hown, .under hr hp h⟩
    | false =>
      obtain ⟨owner, howner, hinside⟩ := ih
      refine ⟨owner, ?_, hinside⟩
      rw [List.find?_cons, hown]
      exact howner

end Machine.Inside

namespace Machine.Beneath

variable {m m' : Machine} {c σ : ScopeId}

theorem inside (h : m.Beneath c σ) : m.Inside c σ := by
  obtain ⟨hr, hp, h⟩ := h
  exact .under hr hp h

theorem later (h : m.Beneath c σ) (hg : m.Grows m') : m'.Beneath c σ := by
  obtain ⟨hr, hp, h⟩ := h
  obtain ⟨r', hr', hlater⟩ := hg.scope hr
  exact ⟨hr', hlater.parent.trans hp, h.later hg⟩

/-- A new scope lies beneath another one if its parent lies inside it. -/
theorem pushed {p : ScopeId} {r : Scope} (hp : r.parent = some p) (h : m.Inside c p) :
    Machine.Beneath { m with scopes := m.scopes.push r } c m.scopes.size :=
  ⟨Array.getElem?_push_size, hp, h.later (.scopePushed m r)⟩

/-- A copy lies beneath another scope if the scope itself does. -/
theorem copied (h : m.Beneath c σ) :
    Machine.Beneath { m with scopes := m.scopes.push (m.scopes.getD σ default) } c
      m.scopes.size := by
  obtain ⟨hr, hp, h⟩ := h
  refine pushed ?_ h
  rwa [Array.getD_eq_getD_getElem?, hr, Option.getD_some]

end Machine.Beneath

/-! ## What statements ask for -/

/-- **Work that a statement does inside a scope**: the statements in its row, the patterns that it
binds, those of a `var` to variables that are there, and iterations of a counting loop. -/
def Work.IsLocal (c : ScopeId) (node : StmtNode) (m : Machine) {β : Type} : Work β → Prop
  | .statement σ _ s => m.Inside c σ ∧ s ∈ node.row
  | .bind σ _ _ mode _ => m.Inside c σ ∧ (node.varTargets ≠ [] → mode = .assign)
  | .forLoop σ _ => m.Beneath c σ
  | _ => True

/-- An action that a statement consists of, from a machine on. -/
abbrev Local (c : ScopeId) (node : StmtNode) (k : Nat) (m₀ : Machine) {α : Type}
    (x : Evaluator → Exec α) (Q : Machine → α → Prop) : Prop :=
  Requests k (fun m _ w => w.IsLocal c node m) m₀ x Q

namespace Local

variable {c scope : ScopeId} {node : StmtNode} {k : Nat} {m₀ : Machine} {α : Type} {line : Nat}

theorem expr {e : Expr} : Local c node k m₀ (fun ev => ev.expr scope e) Whatever :=
  Requests.expr fun _ _ => trivial

theorem loopTest {test : Expr} {word : String} :
    Local c node k m₀ (fun ev => ev.loopTest scope test word line) Whatever :=
  expr.before fun _ => Requests.record.before fun _ => .done

theorem countingTest {loop : CountingLoop} :
    Local c node k m₀ (fun ev => ev.countingTest scope loop) Whatever := by
  unfold Evaluator.countingTest
  split
  · exact loopTest
  · exact .done

theorem countingUpdate {loop : CountingLoop} :
    Local c node k m₀ (fun ev => ev.countingUpdate scope loop) Whatever := by
  unfold Evaluator.countingUpdate
  split
  · exact Requests.enter.before fun _ => expr.discard
  · exact .done

theorem execExpression {e : Expr} {excerpt : String} :
    Local c node k m₀ (fun ev => ev.execExpression scope e excerpt line) Whatever := by
  unfold Evaluator.execExpression
  dsimp only
  split
  iterate 3 exact expr.before fun _ => Requests.inspect.before fun _ => .record
  · exact expr.orElseShow

theorem hoistBlock {ss : List Stmt} :
    Local c node k m₀ (fun _ => Exec.hoistBlock scope ss) Whatever :=
  .made (.hoistBlock (sees_univ scope))

/-- The cases that are executed are among those of the statement. -/
theorem matchingCases {v : Value} : ∀ {cs : List Case},
    Local c node k m₀ (fun ev => ev.matchingCases scope v cs) fun _ chosen => chosen ⊆ cs
  | [] => .pure fun _ => List.Subset.refl _
  | case :: cs => by
    have hmore : Local c node k m₀ (fun ev => ev.matchingCases scope v cs) fun _ chosen =>
        chosen ⊆ case :: cs :=
      matchingCases.weaken fun _ _ h => List.Subset.trans h (List.subset_cons_self case cs)
    unfold Evaluator.matchingCases
    split
    · exact hmore
    · refine expr.before fun _ => .ite (fun _ => ?_) fun _ => hmore
      exact .pure fun _ => List.Subset.refl _

theorem returnValue {e : Option Expr} :
    Local c node k m₀ (fun ev => ev.returnValue scope e) Whatever := by
  cases e with
  | none => exact .done
  | some e => exact expr

section

variable (hs : m₀.Inside c scope)

include hs

theorem innerScope {kind : ScopeKind} :
    Local c node k m₀ (fun _ => Exec.innerScope scope kind) fun m σ => m.Beneath c σ :=
  .pushScope (fun _ => rfl) fun hm => .pushed rfl (hs.later hm)

theorem eachScope {mode : BindMode} :
    Local c node k m₀ (fun _ => Evaluator.eachScope scope mode) fun m σ => m.Inside c σ :=
  .ite (fun _ => .pure fun hm => hs.later hm) fun _ => (innerScope hs).weaken fun _ _ h => h.inside

theorem statement {label : Option String} {s : Stmt} (hrow : s ∈ node.row) :
    Local c node k m₀ (fun ev => ev.run (.statement scope label s)) Whatever :=
  .run fun hm => ⟨hs.later hm, hrow⟩

/-- The statements of a row run in the scope of the row. -/
theorem statements {ss : List Stmt} (hrow : ss ⊆ node.row) :
    Local c node k m₀ (fun ev => ev.statements scope ss) Whatever := by
  induction ss with
  | nil => exact .done
  | cons s ss ih =>
    obtain ⟨hs', hss⟩ := List.cons_subset.mp hrow
    refine (statement hs hs').before fun c => ?_
    split
    · exact ih hss
    · exact .done

theorem bindTo {p : Pattern} {v : Value} {mode : BindMode}
    (hmode : node.varTargets ≠ [] → mode = .assign) :
    Local c node k m₀ (fun ev => ev.bind scope p v mode line) Whatever :=
  .run (w := .bind scope p v mode line) fun hm => ⟨hs.later hm, hmode⟩

/-- Only a `var` may write a name that the function hoists. -/
theorem execDeclarators {kind : DeclarationKind} (hkind : node.varTargets ≠ [] → kind = .var)
    {ds : List Declarator} :
    Local c node k m₀ (fun ev => ev.execDeclarators scope kind line ds) Whatever := by
  have hmode (h : node.varTargets ≠ []) : declarationMode kind = .assign := by
    rw [hkind h]
    rfl
  induction ds with
  | nil => exact .done
  | cons d ds ih =>
    refine Requests.before (Q := Whatever) ?_ fun _ => ih
    unfold Evaluator.execDeclarator
    dsimp only
    split
    · exact .record
    · exact (bindTo hs hmode).before fun _ => .record
    · refine (Requests.exprFor fun _ _ => trivial).before fun _ => ?_
      exact Requests.inspect.before fun _ => (bindTo hs hmode).before fun _ => .record

theorem execBlock {body : List Stmt} (hrow : body ⊆ node.row) :
    Local c node k m₀ (fun ev => ev.execBlock scope body) Whatever :=
  (innerScope hs).bind fun _ _ _ hinner =>
    hoistBlock.before fun _ => statements hinner.inside hrow

theorem execWhile {test : Expr} {body : Stmt} {label : Option String} (hrow : body ∈ node.row) :
    Local c node k m₀ (fun ev => ev.execWhile scope test body label line) Whatever := by
  refine Requests.tick.before fun _ => loopTest.before fun passed => ?_
  refine .ite (fun _ => .done) fun _ => (statement hs hrow).before fun c => ?_
  split
  · exact .done
  · exact .run fun _ => trivial

theorem execDoWhile {test : Expr} {body : Stmt} {label : Option String}
    (hrow : body ∈ node.row) :
    Local c node k m₀ (fun ev => ev.execDoWhile scope body test label line) Whatever := by
  refine Requests.tick.before fun _ => (statement hs hrow).before fun c => ?_
  split
  · exact .done
  · refine loopTest.before fun passed => .ite (fun _ => .done) fun _ => ?_
    exact .run fun _ => trivial

end

/-- The scopes of the iterations have the same parent. -/
theorem nextScope (hs : m₀.Beneath c scope) {isFresh : Bool} :
    Local c node k m₀ (fun _ => Evaluator.nextScope scope isFresh) fun m σ => m.Beneath c σ :=
  .ite (fun _ => .pushScope (fun _ => rfl) fun hm => (hs.later hm).copied)
    fun _ => .pure fun hm => hs.later hm

/-- The body runs in the scope of its round, beneath that of the function. -/
theorem execCounting (hs : m₀.Beneath c scope) {loop : CountingLoop} (hrow : loop.body ∈ node.row) :
    Local c node k m₀ (fun ev => ev.execCounting scope loop) Whatever := by
  refine Requests.tick.before fun _ => Requests.enter.before fun _ => ?_
  refine countingTest.before fun goesOn => .ite (fun _ => .done) fun _ => ?_
  refine (statement hs.inside hrow).before fun c => ?_
  split
  · exact .done
  · refine (nextScope hs).bind fun next m hm hnext => countingUpdate.before fun _ => ?_
    exact .run fun hm => hnext.later hm

section

variable (hs : m₀.Inside c scope)

include hs

/-- The scope of the loop lies beneath that of the function. -/
theorem execFor {start : Option ForStart} {test update : Option Expr} {body : Stmt}
    {label : Option String} :
    Local c (.forLoop start test update body) k m₀
      (fun ev => ev.execFor scope start test update body label) Whatever := by
  refine (innerScope hs).bind fun outer m hm houter => ?_
  refine Requests.before (Q := Whatever) ?_ fun isFresh => ?_
  · unfold Evaluator.execStart
    split
    · refine (execDeclarators houter.inside ?_).before fun _ => .done
      rename_i kind ds
      cases kind with
      | var => exact fun _ => rfl
      | lexical | const => exact fun h => absurd rfl h
    · exact expr.discard.before fun _ => .done
    · exact .done
  · exact (nextScope houter).bind fun first m hm hfirst => .run fun hm => hfirst.later hm

/-- The body runs in the scope of its round, beneath that of the function. -/
theorem execEach {loop : LoopOver} {kind : Option DeclarationKind} {target : Pattern}
    {source : Expr} {body : Stmt} {word : String} {label : Option String} {vs : List Value} :
    Local c (.forEach loop kind target source body) k m₀
      (fun ev => ev.execEach scope word kind target body label line vs) Whatever := by
  have hmode : (StmtNode.forEach loop kind target source body).varTargets ≠ [] →
      kind.elim .assign declarationMode = .assign := by
    intro h
    rcases kind with - | - | - | -
    · rfl
    · rfl
    all_goals exact absurd rfl h
  induction vs generalizing m₀ with
  | nil => exact .done
  | cons v vs ih =>
    refine Requests.tick.before fun _ => (eachScope hs).bind fun inner m hm hinner => ?_
    refine Requests.enter.before fun _ => Requests.inspect.before fun _ => ?_
    refine (bindTo hinner hmode).before fun _ => Requests.record.before fun _ => ?_
    refine (statement hinner (List.mem_singleton_self body)).before fun c => ?_
    split
    · exact .done
    · exact ih (hs.later hm)

theorem execForEach {loop : LoopOver} {kind : Option DeclarationKind} {target : Pattern}
    {source : Expr} {body : Stmt} {label : Option String} :
    Local c (.forEach loop kind target source body) k m₀
      (fun ev => ev.execForEach scope loop kind target source body label) Whatever := by
  refine expr.before fun v => Requests.before (Q := Whatever) ?_ fun _ => execEach hs
  cases loop with
  | values => exact Requests.before (.plain .iterate) fun _ => .done
  | keys => exact Requests.before (.plain (.elementary .heap)) fun _ => .done

/-- The handler runs in its own scope, beneath that of the function. -/
theorem execHandler {body : List Stmt} {h : Handler} {finalizer : Option (List Stmt)}
    {t : Thrown} :
    Local c (.try body (some h) finalizer) k m₀ (fun ev => ev.execHandler scope h t line)
      Whatever := by
  refine (innerScope hs).bind fun inner m hm hinner => ?_
  refine Requests.before (Q := Whatever) ?_ fun _ => Requests.record.before fun _ => ?_
  · unfold Evaluator.bindThrown
    split
    · exact bindTo hinner.inside fun h => absurd rfl h
    · exact .done
  · refine hoistBlock.before fun _ => (statements hinner.inside ?_).catchThrown
    simp [StmtNode.row]

/-- Each part of a `try` runs beneath the scope of the function. -/
theorem execTry {body : List Stmt} {handler : Option Handler} {finalizer : Option (List Stmt)} :
    Local c (.try body handler finalizer) k m₀
      (fun ev => ev.execTry scope body handler finalizer line) Whatever := by
  refine Requests.record.before fun _ => (execBlock hs ?_).catchThrown.before fun outcome => ?_
  · simp [StmtNode.row]
  refine Requests.before (Q := Whatever) ?_ fun outcome => ?_
  · unfold Evaluator.handle
    split
    · exact execHandler hs
    · exact .done
  · cases finalizer with
    | none => exact .resume
    | some last =>
      refine Requests.enter.before fun _ => Requests.record.before fun _ => ?_
      refine (execBlock hs ?_).before fun c => ?_
      · simp [StmtNode.row]
      split
      · exact .resume
      · exact .done

theorem execCases {cs : List Case} (hrow : ∀ case ∈ cs, case.body ⊆ node.row) :
    Local c node k m₀ (fun ev => ev.execCases scope cs) Whatever := by
  induction cs with
  | nil => exact .done
  | cons case cs ih =>
    obtain ⟨hcase, hcs⟩ := List.forall_mem_cons.mp hrow
    refine (statements hs hcase).before fun completion => ?_
    split
    · exact ih hcs
    · exact .done
    · exact .done

/-- The cases run in one scope, beneath that of the function. -/
theorem execSwitch {value : Expr} {cases : List Case} :
    Local c (.switch value cases) k m₀ (fun ev => ev.execSwitch scope value cases line)
      Whatever := by
  refine expr.before fun v => (innerScope hs).bind fun inner m hm hinner => ?_
  refine hoistBlock.before fun _ => matchingCases.bind fun matching m hm hmatching => ?_
  refine Requests.record.before fun _ => execCases (hinner.inside.later hm) fun case hcase => ?_
  have hmem : case ∈ cases := by
    split at hcase
    · exact (List.dropWhile_suffix _).subset hcase
    · exact hmatching hcase
  exact fun s hs => List.mem_flatMap.mpr ⟨case, hmem, hs⟩

/-- **A statement stays inside** every scope around it. -/
theorem execStatement {label : Option String} {s : Stmt} :
    Local c s.node k m₀ (fun ev => ev.execStatement scope label s) Whatever := by
  obtain ⟨node, position, excerpt⟩ := s
  refine Requests.tick.before fun _ => Requests.enter.before fun _ => ?_
  cases node with
  | declare kind ds =>
    refine (execDeclarators hs ?_).before fun _ => .done
    cases kind with
    | var => exact fun _ => rfl
    | lexical | const => exact fun h => absurd rfl h
  | function f => exact Requests.record.before fun _ => .done
  | «return» e =>
    refine returnValue.before fun v => Requests.inspect.before fun _ => ?_
    exact Requests.record.before fun _ => .done
  | ifElse test yes no =>
    refine expr.before fun _ => Requests.record.before fun _ => ?_
    refine .ite (fun _ => statement hs List.mem_cons_self) fun _ => ?_
    cases no with
    | none => exact .done
    | some no => exact statement hs (List.mem_cons_of_mem _ List.mem_cons_self)
  | forLoop => exact execFor hs
  | forEach => exact execForEach hs
  | «while» | doWhile => exact .run fun _ => trivial
  | «break» | «continue» => exact Requests.record.before fun _ => .done
  | throw e =>
    refine expr.before fun v => Requests.inspect.before fun _ => ?_
    exact Requests.record.before fun _ => .plain (.throwValue (within_univ v))
  | «try» => exact execTry hs
  | switch => exact execSwitch hs
  | labeled name body =>
    refine (statement hs (List.mem_singleton_self body)).before fun c => ?_
    split
    · exact .done
    · exact .done
  | block => exact execBlock hs (List.Subset.refl _)
  | expr e => exact execExpression.before fun _ => .done
  | empty => exact .done

end

end Local

/-- Work that is not a counting loop, or one whose scope lies beneath another one. -/
def Work.IsBeneath (c : ScopeId) (m : Machine) {β : Type} : Work β → Prop
  | .forLoop σ _ => m.Beneath c σ
  | _ => True

/-- **What is done for a statement stays inside** every scope around it. -/
theorem Present.local {scope σ : ScopeId} {s : Stmt} {n k : Nat} {β : Type} {v : Work β}
    (h : Present scope s n v σ) {c : ScopeId} {m₀ : Machine} (hs : m₀.Inside c scope)
    (hv : v.IsBeneath c m₀) : Local c s.node k m₀ (fun ev => ev.step v) Whatever := by
  cases h with
  | statement => exact .execStatement hs
  | iteration h =>
    generalize s.node = node at h ⊢
    cases h with
    | «while» => exact .execWhile hs (List.mem_singleton_self _)
    | doWhile => exact .execDoWhile hs (List.mem_singleton_self _)
    | «for» => exact .execCounting hv (List.mem_singleton_self _)

end ScriptTrace
