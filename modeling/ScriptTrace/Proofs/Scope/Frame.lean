import ScriptTrace.Proofs.Scope.Writing
import ScriptTrace.Proofs.Syntax.Variable

/-!
# Proofs/Scope/Frame — calls, statements and the event loop pass a watch

Where all work is allowed, the scopes that are made stay in the region that is allowed: the scopes
of calls, of blocks and of iterations.  So a binding that was changed in some work was changed by a
declaration in its scope, or by an assignment from a scope where the name means that binding
(`Ward.writtenIn_of_nested`).
-/

namespace ScriptTrace

open Syntax (Expr ExprNode Element Property Key Pattern PatternElement PropertyPattern Slot Stmt
  StmtNode Declarator DeclarationKind ForStart LoopOver Handler Case Node)

open Ward

namespace Watch.Clears

variable {q : Watch} {m₀ m m' : Machine} {α β : Type} {scope : ScopeId} {line : Nat}

theorem tick : q.Clears m₀ (fun _ => Exec.tick) Whatever := plain (.elementary .tick)

theorem resume {r : Except Thrown α} : q.Clears m₀ (fun _ => Exec.resume r) Whatever := by
  cases r with
  | ok a => exact .done
  | error t => exact throwing

/-! ## Calls -/

section

variable (hq : q.IsFree)

include hq

section

omit hq in
/-- The functions of a block write their names in its scope. -/
theorem hoistBlock {ss : List Stmt} (h : scope = q.scope → q.name ∈ Syntax.functionNames ss →
    ∀ {m}, q.From m₀ m → q.Writes m) :
    q.Clears m₀ (fun _ => Exec.hoistBlock scope ss) Whatever := by
  induction ss with
  | nil => exact .done
  | cons s ss ih =>
    unfold Exec.hoistBlock
    split
    · rename_i f hf
      rw [Syntax.functionNames_of_function hf] at h
      refine makeClosure.before fun _ => (define fun hself hname => h hself ?_).before fun _ => ?_
      · exact hname ▸ List.mem_cons_self
      · exact ih fun hself hmem => h hself (List.mem_cons_of_mem _ hmem)
    · rename_i hf
      rw [Syntax.functionNames_of_other hf] at h
      exact ih h

omit hq in
/-- Names that are hoisted are written in their scope. -/
theorem hoistNames {names : List String} (h : scope = q.scope → q.name ∈ names →
    ∀ {m}, q.From m₀ m → q.Writes m) :
    q.Clears m₀ (fun _ => Exec.hoistNames scope names) Whatever := by
  induction names with
  | nil => exact .done
  | cons x xs ih =>
    have hrest := ih fun hself hmem => h hself (List.mem_cons_of_mem x hmem)
    refine (plain (.elementary .scopes)).before fun _ => .ite (fun _ => ?_) fun _ => hrest
    refine (define fun hself hname => h hself ?_).before fun _ => hrest
    exact hname ▸ List.mem_cons_self

omit hq in
theorem hoistBody {body : List Stmt} (h : scope = q.scope →
    (Syntax.FunctionBody.block body).Hoists q.name → ∀ {m}, q.From m₀ m → q.Writes m) :
    q.Clears m₀ (fun _ => Exec.hoistBody scope body) Whatever :=
  (hoistNames fun hself hmem => h hself (.inl (Syntax.mem_hoistedNames.mp hmem))).before fun _ =>
    hoistBlock fun hself hmem => h hself (.inr hmem)

variable (hs : q.Region m₀ scope)

include hs

theorem statement {label : Option String} {s : Stmt} :
    q.Clears m₀ (fun ev => ev.run (.statement scope label s)) Whatever :=
  .run fun hm => ⟨hq, q.later hm.grows hs⟩

theorem statements {ss : List Stmt} :
    q.Clears m₀ (fun ev => ev.statements scope ss) Whatever := by
  induction ss with
  | nil => exact .done
  | cons s ss ih =>
    refine (statement hq hs).before fun c => ?_
    split
    · exact ih
    · exact .done

theorem parameterValue {p : PatternElement} {v : Value} :
    q.Clears m₀ (fun ev => ev.parameterValue scope p v) Whatever := by
  unfold Evaluator.parameterValue
  split
  · exact expr hs (hq.permits _)
  · exact .done

theorem bindParameters {ps : List PatternElement} {args : List Value} :
    q.Clears m₀ (fun ev => ev.bindParameters scope line ps args) Whatever := by
  induction ps generalizing args with
  | nil => exact .done
  | cons p ps ih =>
    refine (parameterValue hq hs).before fun v => ?_
    exact (bindTo hs (hq.permits _)).before fun _ => ih

theorem bindArguments {f : Syntax.Function} {args : List Value} :
    q.Clears m₀ (fun ev => ev.bindArguments scope f args) Whatever := by
  refine (bindParameters hq hs).before fun remaining => ?_
  split
  · exact .done
  · refine Clears.before (.made (.makeArray (within_univ _))) fun _ => ?_
    exact bindTo hs (hq.permits _)

/-- The body of a function writes what it hoists, and nothing else at its beginning. -/
theorem runBody {body : Syntax.FunctionBody} (h : scope = q.scope → body.Hoists q.name →
    ∀ {m}, q.From m₀ m → q.Writes m) :
    q.Clears m₀ (fun ev => ev.runBody scope body) Whatever := by
  cases body with
  | expr e => exact expr hs (hq.permits _)
  | block body =>
    refine (hoistBody h).before fun _ => (statements hq hs).before fun c => ?_
    split
    · exact .done
    · exact .done

end

/-- The scope of a call is one where work may be asked for, and not the one that is watched. -/
theorem callScope {id : ObjectId} {c : Closure} {this : Value}
    (hc : m₀.heap.body? id = some (.closure c)) :
    q.Clears m₀ (fun _ => Evaluator.callScope id c this) q.Fresh := by
  have hnew : q.Clears m₀ (fun _ =>
      Exec.newScope ⟨some c.scope, .function c.name, [], c.receiver? this⟩) q.Fresh :=
    .pushScope (fun _ => rfl) fun hm => ⟨hq.call _ hm.made (hm.grows.closure hc), hm.made.ne'⟩
  refine hnew.bind fun scope m hm hs => Clears.enter.before fun _ => ?_
  have hend : q.Clears m (fun _ => Pure.pure scope) q.Fresh :=
    .pure fun hm => ⟨q.later hm.grows hs.1, hs.2⟩
  refine (plain (.elementary .scopes)).before fun _ => ?_
  exact .ite (fun _ => (define (absurd · hs.2)).before fun _ => hend) fun _ => hend

/-- **The body of a function runs** behind the binding of its parameters. -/
theorem runCall (hs : q.Region m₀ scope) {c : Closure} {args : List Value} {shown : String}
    (h : scope = q.scope → c.definition.body.Hoists q.name → ∀ {m}, q.From m₀ m → q.Writes m) :
    q.Clears m₀ (fun ev => ev.runCall scope c args shown line) Whatever :=
  (bindArguments hq hs).followedBy.before fun _ => runBody hq hs h

omit hq in
/-- A call goes back to the scope of its caller. -/
theorem endCall {c : Closure} {caller : ScopeId} {outcome : Except Thrown Value} :
    q.Clears m₀ (fun _ => Evaluator.endCall c caller line outcome) Whatever := by
  have hleave {description : String} :
      q.Clears m₀ (fun _ => Evaluator.leave caller line description) Whatever :=
    Clears.popFrame.before fun _ => Clears.enter.before fun _ => .record
  cases outcome with
  | ok v => exact (plain .inspect).before fun _ => hleave.before fun _ => resume
  | error t => exact hleave.before fun _ => resume

/-- **A call of a closure** works in its own scope. -/
theorem invoke {id : ObjectId} {c : Closure} {this : Value} {args : List Value}
    (hc : m₀.heap.body? id = some (.closure c)) :
    q.Clears m₀ (fun ev => ev.invoke id c this args line) Whatever := by
  refine tick.before fun _ => (plain (.elementary .heap)).before fun h => ?_
  refine Clears.pushFrame.before fun _ => Clears.currentScope.before fun caller => ?_
  refine (callScope hq hc).bind fun scope m hm hs => ?_
  exact (runCall hq hs.1 (absurd · hs.2)).catchThrown.before fun _ => endCall

omit hq in
/-- What is found on the heap is there. -/
theorem body? {id : ObjectId} :
    q.Clears m₀ (fun _ => Exec.body? id) fun m b => m.heap.body? id = b :=
  .still (.const (fun m => .refl m) fun _ h => by cases h; rfl) fun _ => rfl

/-- **A value is called.** -/
theorem applyValue {f this : Value} {args : List Value} :
    q.Clears m₀ (fun ev => ev.applyValue f this args line) Whatever := by
  cases f
  case function f => exact library hq (.callHost (within_univ _))
  case host h => exact library hq (.callConstructor (within_univ _))
  case object id =>
    refine Clears.bind body? fun b m hm hb => ?_
    split
    · exact invoke hq hb
    · exact library hq (.apply (within_univ _) (within_univ _) (within_univ _))
    · exact library hq (.callMethod (within_univ _) (within_univ _))
    · exact plain (.callResolver ⟨Set.mem_univ _, Set.mem_univ _⟩ (within_univ _))
    · exact (plain .inspect).before fun _ => throwing
  case undefined | null | bool | number | string | globalThis =>
    exact (plain .inspect).before fun _ => throwing

section

variable (hs : q.Region m₀ scope)

include hs

theorem callTarget? {callee : Expr} :
    q.Clears m₀ (fun ev => ev.callTarget? scope callee) Whatever := by
  unfold Evaluator.callTarget?
  split
  · refine (expr hs (hq.permits _)).before fun _ => .ite (fun _ => .done) fun _ => ?_
    refine (key hs (hq.permits _)).before fun _ => (plain (.elementary .heap)).before fun _ => ?_
    refine .ite (fun _ => .done) fun _ => ?_
    exact Clears.before (.made (.getMember (within_univ _))) fun _ => .done
  · exact (expr hs (hq.permits _)).before fun _ => .done

theorem evalCall {callee : Expr} {args : List Element} {isOptional : Bool} :
    q.Clears m₀ (fun ev => ev.evalCall scope callee args isOptional line) Whatever := by
  refine (callTarget? hq hs).before fun target => ?_
  split
  · exact .done
  · refine (elements hs fun _ _ => hq.permits _).before fun _ => ?_
    exact library hq (.callMethod (within_univ _) (within_univ _))
  · refine .ite (fun _ => .done) fun _ => ?_
    refine (elements hs fun _ _ => hq.permits _).before fun _ => ?_
    refine (plain .isCallable).before fun _ => .ite (fun _ => throwing) fun _ => ?_
    exact library hq (.apply (within_univ _) (within_univ _) (within_univ _))

omit hs in
theorem instantiate {id : ObjectId} {c : Closure} {args : List Value}
    (hc : m₀.heap.body? id = some (.closure c)) :
    q.Clears m₀ (fun ev => ev.instantiate id c args line) Whatever :=
  Clears.allocate.before fun _ => (invoke hq hc).before fun _ =>
    (plain (.elementary .heap)).before fun _ => .done

theorem evalNew {callee : Expr} {args : List Element} :
    q.Clears m₀ (fun ev => ev.evalNew scope callee args line) Whatever := by
  refine (expr hs (hq.permits _)).before fun constructor => ?_
  refine (elements hs fun _ _ => hq.permits _).before fun _ => ?_
  split
  · exact library hq (.construct (within_univ _))
  · refine Clears.bind body? fun b m hm hb => ?_
    split
    · exact .ite (fun _ => throwing) fun _ => instantiate hq hb
    · exact throwing
  · exact throwing

end

end

/-- **An expression is evaluated.** -/
theorem evalExpr (hq : q.Calls) (hs : q.Region m₀ scope) {e : Expr} (h : q.Permits e.nodes)
    (hw : e.assigned? = some q.name → q.Knows m₀ scope) :
    q.Clears m₀ (fun ev => ev.evalExpr scope e) Whatever := by
  obtain ⟨node, p⟩ := e
  obtain ⟨hnode, hinside⟩ := permits_expr.mp h
  change q.Permits node.inside at hinside
  unfold Evaluator.evalExpr
  cases node with
  | number | string | bool | null => exact .done
  | template pieces values =>
    exact (templateText hs (by simpa using hinside)).before fun _ => .done
  | name x => exact plain .valueOf
  | this => exact (plain (.elementary .scopes)).before fun _ => .done
  | array es =>
    exact (elements hs (by simpa using hinside)).before fun _ => .made (.makeArray (within_univ _))
  | object ps =>
    refine (properties hs (by simpa using hinside)).before fun _ => ?_
    exact .made (.makePlain (within_univ _))
  | function f => exact makeClosure
  | unary op operand => exact evalUnary hs hinside
  | update op before target => exact evalUpdate hs hinside hw
  | binary op left right =>
    obtain ⟨hleft, hright⟩ := permits_append.mp hinside
    exact (expr hs hleft).before fun _ => (expr hs hright).before fun _ => plain .binary
  | logical op left right =>
    obtain ⟨hleft, hright⟩ := permits_append.mp hinside
    exact (expr hs hleft).before fun _ => .ite (fun _ => .done) fun _ => expr hs hright
  | assign op target value =>
    obtain ⟨htarget, hvalue⟩ := permits_append.mp hinside
    refine evalAssign hs htarget hvalue fun hop heq => hw ?_
    cases op with
    | plain => exact absurd rfl hop
    | compound | logical => exact heq
  | conditional test yes no =>
    simp only [ExprNode.inside, permits_append] at hinside
    obtain ⟨htest, hyes, hno⟩ := hinside
    exact (expr hs htest).before fun _ => .ite (fun _ => expr hs hyes) fun _ => expr hs hno
  | call callee args isOptional =>
    have hcall : (Node.expr (.call callee args isOptional)).IsCall := trivial
    exact evalCall (hq hcall hnode) hs
  | new callee args =>
    have hcall : (Node.expr (.new callee args)).IsCall := trivial
    exact evalNew (hq hcall hnode) hs
  | member object k isOptional =>
    obtain ⟨hobject, hk⟩ := permits_append.mp hinside
    refine (expr hs hobject).before fun _ => .ite (fun _ => .done) fun _ => ?_
    exact (key hs hk).before fun _ => .made (.getMember (within_univ _))
  | sequence items => exact sequence hs (by simpa using hinside)

/-! ## Statements -/

section

variable (hq : q.IsFree)

include hq

theorem innerScope (hs : q.Region m₀ scope) {kind : ScopeKind} :
    q.Clears m₀ (fun _ => Exec.innerScope scope kind) q.Fresh :=
  .pushScope (fun _ => rfl) fun hm => ⟨hq.inner kind hm.made (q.later hm.grows hs), hm.made.ne'⟩

theorem nextScope (hs : q.Region m₀ scope) {isFresh : Bool} :
    q.Clears m₀ (fun _ => Evaluator.nextScope scope isFresh) q.Region :=
  .ite (fun _ => .pushScope (fun _ => rfl) fun hm => hq.copy hm.made (q.later hm.grows hs))
    fun _ => .pure fun hm => q.later hm.grows hs

theorem eachScope (hs : q.Region m₀ scope) {mode : BindMode} :
    q.Clears m₀ (fun _ => Evaluator.eachScope scope mode) q.Region :=
  .ite (fun _ => .pure fun hm => q.later hm.grows hs) fun _ =>
    (innerScope hq hs).weaken fun _ _ h => h.1

variable (hs : q.Region m₀ scope)

include hs

theorem operand {e : Expr} : q.Clears m₀ (fun ev => ev.expr scope e) Whatever :=
  expr hs (hq.permits _)

theorem execDeclarators {kind : DeclarationKind} {ds : List Declarator} :
    q.Clears m₀ (fun ev => ev.execDeclarators scope kind line ds) Whatever := by
  induction ds with
  | nil => exact .done
  | cons d ds ih =>
    refine Clears.before (Q := Whatever) ?_ fun _ => ih
    unfold Evaluator.execDeclarator
    dsimp only
    split
    · exact .record
    · exact (bindTo hs (hq.permits _)).before fun _ => .record
    · refine (exprFor hs (hq.permits _)).before fun _ => (plain .inspect).before fun _ => ?_
      exact (bindTo hs (hq.permits _)).before fun _ => .record

theorem execExpression {e : Expr} {excerpt : String} :
    q.Clears m₀ (fun ev => ev.execExpression scope e excerpt line) Whatever := by
  unfold Evaluator.execExpression
  dsimp only
  split
  iterate 3 exact (operand hq hs).before fun _ => (plain .inspect).before fun _ => .record
  · exact (operand hq hs).orElseShow

theorem execBlock {body : List Stmt} :
    q.Clears m₀ (fun ev => ev.execBlock scope body) Whatever :=
  (innerScope hq hs).bind fun _ _ _ hinner =>
    (hoistBlock (absurd · hinner.2)).before fun _ => statements hq hinner.1

omit hq in
theorem loopTest {test : Expr} {word : String} (h : q.Permits test.nodes) :
    q.Clears m₀ (fun ev => ev.loopTest scope test word line) Whatever :=
  (expr hs h).before fun _ => Clears.record.before fun _ => .done

omit hq in
theorem countingTest {loop : CountingLoop} (h : q.Permits (Syntax.optionExprNodes loop.test)) :
    q.Clears m₀ (fun ev => ev.countingTest scope loop) Whatever := by
  unfold Evaluator.countingTest
  split
  · rename_i heq
    rw [heq] at h
    exact loopTest hs h
  · exact .done

omit hq in
theorem countingUpdate {loop : CountingLoop} (h : q.Permits (Syntax.optionExprNodes loop.update)) :
    q.Clears m₀ (fun ev => ev.countingUpdate scope loop) Whatever := by
  unfold Evaluator.countingUpdate
  split
  · rename_i heq
    rw [heq] at h
    exact Clears.enter.before fun _ => (expr hs h).discard
  · exact .done

theorem execWhile {test : Expr} {body : Stmt} {label : Option String} :
    q.Clears m₀ (fun ev => ev.execWhile scope test body label line) Whatever := by
  refine tick.before fun _ => (loopTest hs (hq.permits _)).before fun passed => ?_
  refine .ite (fun _ => .done) fun _ => (statement hq hs).before fun c => ?_
  split
  · exact .done
  · exact .run fun hm => ⟨hq, q.later hm.grows hs⟩

theorem execDoWhile {test : Expr} {body : Stmt} {label : Option String} :
    q.Clears m₀ (fun ev => ev.execDoWhile scope body test label line) Whatever := by
  refine tick.before fun _ => (statement hq hs).before fun c => ?_
  split
  · exact .done
  · refine (loopTest hs (hq.permits _)).before fun passed => .ite (fun _ => .done) fun _ => ?_
    exact .run fun hm => ⟨hq, q.later hm.grows hs⟩

theorem execCounting {loop : CountingLoop} :
    q.Clears m₀ (fun ev => ev.execCounting scope loop) Whatever := by
  refine tick.before fun _ => Clears.enter.before fun _ => ?_
  refine (countingTest hs (hq.permits _)).before fun goesOn => .ite (fun _ => .done) fun _ => ?_
  refine (statement hq hs).before fun c => ?_
  split
  · exact .done
  · refine (nextScope hq hs).bind fun next m hm hnext => ?_
    refine (countingUpdate hnext (hq.permits _)).before fun _ => ?_
    exact .run fun hm => ⟨hq, q.later hm.grows hnext⟩

theorem execFor {start : Option ForStart} {test update : Option Expr} {body : Stmt}
    {label : Option String} :
    q.Clears m₀ (fun ev => ev.execFor scope start test update body label) Whatever := by
  refine (innerScope hq hs).bind fun outer m hm houter => ?_
  refine Clears.before (Q := Whatever) ?_ fun isFresh => ?_
  · unfold Evaluator.execStart
    split
    · exact (execDeclarators hq houter.1).before fun _ => .done
    · exact (operand hq houter.1).discard.before fun _ => .done
    · exact .done
  · refine (nextScope hq houter.1).bind fun first m hm hfirst => ?_
    exact .run fun hm => ⟨hq, q.later hm.grows hfirst⟩

/-- A round writes the variable of the loop in its own scope. -/
theorem execEach {word : String} {kind : Option DeclarationKind} {target : Pattern} {body : Stmt}
    {label : Option String} {vs : List Value} :
    q.Clears m₀ (fun ev => ev.execEach scope word kind target body label line vs) Whatever := by
  induction vs with
  | nil => exact .done
  | cons v vs ih =>
    refine tick.before fun _ => (eachScope hq hs).bind fun inner m hm hinner => ?_
    refine Clears.enter.before fun _ => (plain .inspect).before fun _ => ?_
    refine (bindTo hinner (hq.permits _)).before fun _ => Clears.record.before fun _ => ?_
    refine (statement hq hinner).before fun c => ?_
    split
    · exact .done
    · exact ih.later hm

theorem execForEach {loop : LoopOver} {kind : Option DeclarationKind} {target : Pattern}
    {source : Expr} {body : Stmt} {label : Option String} :
    q.Clears m₀ (fun ev => ev.execForEach scope loop kind target source body label) Whatever := by
  refine (operand hq hs).before fun v => Clears.before (Q := Whatever) ?_ fun _ => execEach hq hs
  cases loop with
  | values => exact (plain .iterate).before fun _ => .done
  | keys => exact (plain (.elementary .heap)).before fun _ => .done

theorem execHandler {h : Handler} {t : Thrown} :
    q.Clears m₀ (fun ev => ev.execHandler scope h t line) Whatever := by
  refine (innerScope hq hs).bind fun inner m hm hinner => ?_
  refine Clears.before (Q := Whatever) ?_ fun _ => Clears.record.before fun _ => ?_
  · unfold Evaluator.bindThrown
    split
    · exact bindTo hinner.1 (hq.permits _)
    · exact .done
  · refine (hoistBlock (absurd · hinner.2)).before fun _ => ?_
    exact (statements hq hinner.1).catchThrown

/-- Each part of a `try` writes in its own scope. -/
theorem execTry {body : List Stmt} {handler : Option Handler} {finalizer : Option (List Stmt)} :
    q.Clears m₀ (fun ev => ev.execTry scope body handler finalizer line) Whatever := by
  have htried : q.Clears m₀ (fun ev => Exec.catchThrown (ev.execBlock scope body)) Whatever :=
    (execBlock hq hs).catchThrown
  refine Clears.record.before fun _ => htried.before fun o => ?_
  refine Clears.before (Q := Whatever) ?_ fun outcome => ?_
  · unfold Evaluator.handle
    split
    · exact execHandler hq hs
    · exact .done
  · cases finalizer with
    | none => exact resume
    | some last =>
      refine Clears.enter.before fun _ => Clears.record.before fun _ => ?_
      refine (execBlock hq hs).before fun c => ?_
      split
      · exact resume
      · exact .done

theorem matchingCases {v : Value} : ∀ {cs : List Case},
    q.Clears m₀ (fun ev => ev.matchingCases scope v cs) Whatever
  | [] => .done
  | .mk test body :: cs => by
    unfold Evaluator.matchingCases
    split
    · exact matchingCases
    · exact (operand hq hs).before fun _ => .ite (fun _ => .done) fun _ => matchingCases

theorem execCases {cs : List Case} :
    q.Clears m₀ (fun ev => ev.execCases scope cs) Whatever := by
  induction cs with
  | nil => exact .done
  | cons c cs ih =>
    refine (statements hq hs).before fun completion => ?_
    split
    · exact ih
    · exact .done
    · exact .done

theorem execSwitch {value : Expr} {cases : List Case} :
    q.Clears m₀ (fun ev => ev.execSwitch scope value cases line) Whatever := by
  refine (operand hq hs).before fun v => (innerScope hq hs).bind fun inner m hm hinner => ?_
  refine (hoistBlock (absurd · hinner.2)).before fun _ => ?_
  refine (matchingCases hq hinner.1).before fun matching => ?_
  exact Clears.record.before fun _ => execCases hq hinner.1

/-- **A statement is executed.** -/
theorem execStatement {label : Option String} {s : Stmt} :
    q.Clears m₀ (fun ev => ev.execStatement scope label s) Whatever := by
  obtain ⟨node, p, excerpt⟩ := s
  refine tick.before fun _ => Clears.enter.before fun _ => ?_
  cases node with
  | declare kind ds => exact (execDeclarators hq hs).before fun _ => .done
  | function f => exact Clears.record.before fun _ => .done
  | «return» e =>
    refine Clears.before (Q := Whatever) ?_ fun v => (plain .inspect).before fun _ => ?_
    · cases e with
      | none => exact .done
      | some e => exact operand hq hs
    · exact Clears.record.before fun _ => .done
  | ifElse test yes no =>
    refine (operand hq hs).before fun _ => Clears.record.before fun _ => ?_
    refine .ite (fun _ => statement hq hs) fun _ => ?_
    cases no with
    | none => exact .done
    | some no => exact statement hq hs
  | forLoop => exact execFor hq hs
  | forEach => exact execForEach hq hs
  | «while» | doWhile => exact .run fun hm => ⟨hq, q.later hm.grows hs⟩
  | «break» | «continue» => exact Clears.record.before fun _ => .done
  | throw e =>
    refine (operand hq hs).before fun v => (plain .inspect).before fun _ => ?_
    refine Clears.record.before fun _ => (plain (.elementary .heap)).before fun _ => throwing
  | «try» => exact execTry hq hs
  | switch => exact execSwitch hq hs
  | labeled name body =>
    refine (statement hq hs).before fun c => ?_
    split
    · exact .done
    · exact .done
  | block => exact execBlock hq hs
  | expr e => exact (execExpression hq hs).before fun _ => .done
  | empty => exact .done

end

/-! ## The event loop -/

section

variable (hq : q.IsFree)

include hq

omit hq in
/-- What only the event loop does. -/
theorem turn {x : Exec α} {P : α → Prop} (hx : Elementary .loop Set.univ x P)
    (hscopes : ∀ m : Machine, (x.after m).scopes = m.scopes) :
    q.Clears m₀ (fun _ => x) Whatever :=
  .still (.plain (.elementary hx)) hscopes

theorem runTask {task : Task} : q.Clears m₀ (fun ev => ev.runTask task) Whatever :=
  library hq (.runTask (within_univ _))

/-- A task writes in the scopes of the function that it calls. -/
theorem execMicrotasks : q.Clears m₀ (fun ev => ev.execMicrotasks) Whatever := by
  refine (turn (.nextMicrotask? rfl) fun m => ?_).before fun task => ?_
  · cases hm : m.microtasks with
    | nil => rw [Exec.after_of_ok (Exec.nextMicrotask_of_nil hm)]
    | cons => rw [Exec.after_of_ok (Exec.nextMicrotask_of_cons hm)]
  · cases task with
    | none => exact .done
    | some task =>
      refine tick.before fun _ => Clears.enter.before fun _ => Clears.recordHere.before fun _ => ?_
      exact (runTask hq).before fun _ => .run fun _ => hq

theorem drainMicrotasks : q.Clears m₀ (fun ev => ev.drainMicrotasks) Whatever := by
  refine (turn (.hasMicrotask rfl) fun _ => rfl).before fun _ => .ite (fun _ => ?_) fun _ => .done
  exact (turn (.enterPhase rfl) fun _ => rfl).before fun _ => .run fun _ => hq

theorem execMacrotasks : q.Clears m₀ (fun ev => ev.execMacrotasks) Whatever := by
  have hrefill : q.Clears m₀ (fun _ => Exec.refillCallbacks) Whatever :=
    (turn (.awaitsTimers rfl) fun _ => rfl).before fun _ => .ite
      (fun _ => (turn (.moveTimers rfl) fun _ => rfl).before fun _ => .record) fun _ => .done
  refine hrefill.before fun _ => (turn (.nextCallback? rfl) fun m => ?_).before fun task => ?_
  · cases hm : m.callbacks with
    | nil => rw [Exec.after_of_ok (Exec.nextCallback_of_nil hm)]
    | cons => rw [Exec.after_of_ok (Exec.nextCallback_of_cons hm)]
  · cases task with
    | none => exact .done
    | some task =>
      refine tick.before fun _ => (turn (.enterPhase rfl) fun _ => rfl).before fun _ => ?_
      refine Clears.enter.before fun _ => Clears.recordHere.before fun _ => ?_
      refine (runTask hq).before fun _ => (drainMicrotasks hq).before fun _ => .run fun _ => hq

end

/-! ## Every piece of work -/

/-- **Every piece of work passes** a watch that allows it and knows of what it writes itself. -/
theorem step (hq : q.Calls) {w : Work α} (hw : q.Allows m₀ w)
    (hk : ∀ scope, w.Assigns scope q.name → q.Knows m₀ scope)
    (hd : w.Declares q.scope q.name → ∀ {m}, q.From m₀ m → q.Writes m) :
    q.Clears m₀ (fun ev => ev.step w) Whatever := by
  cases w with
  | expr scope e => exact evalExpr hq hw.1 hw.2 fun h => hk scope ⟨rfl, h⟩
  | bind scope p =>
    exact bindPattern hw.1 hw.2 (fun h => hk scope ⟨rfl, h⟩) fun hself h => hd ⟨hself, h⟩
  | apply => exact applyValue hw
  | statement => exact execStatement hw.1 hw.2
  | whileLoop => exact execWhile hw.1 hw.2
  | doLoop => exact execDoWhile hw.1 hw.2
  | forLoop => exact execCounting hw.1 hw.2
  | microtasks => exact execMicrotasks hw
  | macrotasks => exact execMacrotasks hw

end Watch.Clears

/-- **An assignment in an action**: a nested piece of work assigns to the name, and the next binding
of the name on the way outward from its scope is the one that is watched. -/
inductive Ward.AssignedIn (q : Ward) {α : Type} (x : Evaluator → Exec α) (fuel : Nat)
    (m : Machine) : Prop
  | intro {β : Type} {v : Work β} {k : Nat} {m₁ m₂ : Machine} {scope : ScopeId}
    (h : Nested x fuel m v k m₁) (hv : q.Allows m₁ v) (hassigns : v.Assigns scope q.name)
    (hgrows : m₁.Grows m₂) (hbinder : m₂.scopes.binder? scope q.name = some q.scope)

/-- **What is written in an action**: a nested piece of work assigns to the name, or declares it in
the scope that is watched. -/
inductive Ward.WrittenIn (q : Ward) {α : Type} (x : Evaluator → Exec α) (fuel : Nat)
    (m : Machine) : Prop
  | assigned (h : q.AssignedIn x fuel m)
  | declared {β : Type} {v : Work β} {k : Nat} {m₁ : Machine} (h : Nested x fuel m v k m₁)
    (hv : q.Allows m₁ v) (hdeclares : v.Declares q.scope q.name)

/-- Where no work is asked for in the scope that is watched, only assignments write to it. -/
theorem Ward.WrittenIn.assignedIn {q : Ward} {α : Type} {x : Evaluator → Exec α} {fuel : Nat}
    {m : Machine} (h : q.WrittenIn x fuel m)
    (hapart : ∀ {m : Machine} {σ : ScopeId}, q.Region m σ → σ ≠ q.scope) :
    q.AssignedIn x fuel m := by
  cases h with
  | assigned h => exact h
  | @declared β v k m₁ h hv hdeclares =>
    cases v with
    | bind σ => exact absurd hdeclares.1 (hapart hv.1)
    | _ => exact hdeclares.elim

section

variable {q : Ward} {α β : Type} {x : Evaluator → Exec α} {v : Work β} {fuel k : Nat}
  {m m₀ m₁ : Machine}

/-- A watch over one piece of work that knows of what the work writes itself. -/
def Work.watched (v : Work β) (q : Ward) (k : Nat) : Watch :=
  ⟨q, k, fun m => (∃ scope, v.Assigns scope q.name ∧
    m.scopes.binder? scope q.name = some q.scope) ∨ v.Declares q.scope q.name⟩

theorem Watch.Clears.watched (hq : q.Calls) (hv : q.Allows m₁ v) :
    (v.watched q k).Clears m₁ (fun ev => ev.step v) Whatever :=
  .step hq hv (fun scope hassigns _ _ hbinder => .inl ⟨scope, hassigns, hbinder⟩)
    fun hdeclares _ _ => .inr hdeclares

/-- What a piece of work writes itself. -/
theorem Ward.WrittenIn.of_writes {k' : Nat} (h : Nested x fuel m v k m₁) (hv : q.Allows m₁ v)
    (hw : ∃ m₂, m₁.Grows m₂ ∧ (v.watched q k').Writes m₂) : q.WrittenIn x fuel m := by
  obtain ⟨m₂, hgrows, ⟨scope, hassigns, hbinder⟩ | hdeclares⟩ := hw
  · exact .assigned ⟨h, hv, hassigns, hgrows, hbinder⟩
  · exact .declared h hv hdeclares

/-- What changes a binding in nested work is written in it: induction on the fuel. -/
theorem Ward.writtenIn_of_nested (hq : q.Calls) : ∀ {k : Nat} {β : Type} {v : Work β}
    {m₁ : Machine}, Nested x fuel m v k m₁ → q.Allows m₁ v → q.scope < m₁.scopes.size →
      q.bound ((v.exec k).after m₁) ≠ q.bound m₁ → q.WrittenIn x fuel m
  | 0, _, _, _, _, _, _, hne => absurd rfl hne
  | k + 1, _, v, m₁, h, hv, hmade, hne => by
    have hstep := Watch.Clears.watched (k := k) hq hv
    have hm : (v.watched q k).From m₁ m₁ := ⟨.refl m₁, hmade⟩
    rcases hstep.changes hm hne with ⟨γ, v', m₂, hv', hchange⟩ | hwrites
    · obtain ⟨hgrows, hallows⟩ := hstep.asks hm hv'.asks
      exact writtenIn_of_nested hq (h.inside hv'.asks) hallows (hmade.trans_le hgrows.size_le)
        hchange
    · exact .of_writes h hv hwrites

end

namespace Watch.Clears

variable {q : Watch} {α β : Type} {x : Evaluator → Exec α} {Q : Machine → α → Prop}
  {m m₀ m₁ : Machine}

/-- **What changes a binding is written** in nested work, or by the action itself. -/
theorem written (hx : q.Clears m₀ x Q) (hq : q.Calls) (hm : q.From m₀ m) (h : q.Changed x m) :
    q.WrittenIn x q.fuel m ∨ ∃ m₂, m.Grows m₂ ∧ q.Writes m₂ := by
  refine Or.imp_left ?_ h
  rintro ⟨γ, v, m₁, hv, hchange⟩
  obtain ⟨hgrows, hallows⟩ := hx.asks hm hv.asks
  exact writtenIn_of_nested hq (.asked hv.asks) hallows (hm.made.trans_le hgrows.size_le) hchange

/-- The same where nested work begins: what changed a binding until then was written, too. -/
theorem written_before (hx : q.Clears m x Q) (hq : q.Calls) (hmade : q.scope < m.scopes.size)
    {k : Nat} {v : Work β} (h : Nested x q.fuel m v k m₁) :
    m.Grows m₁ ∧ q.Allows m₁ v ∧ (q.bound m₁ ≠ q.bound m →
      q.WrittenIn x q.fuel m ∨ ∃ m₂, m.Grows m₂ ∧ q.Writes m₂) := by
  have hm : q.From m m := ⟨.refl m, hmade⟩
  induction h with
  | asked h =>
    obtain ⟨hgrows, hallows⟩ := hx.asks hm h
    exact ⟨hgrows, hallows, fun hne => hx.written hq hm (hx.reaches hm h hne)⟩
  | @inside β γ w v k m₁ m₂ hw h ih =>
    obtain ⟨hgrows, hallows, hwritten⟩ := ih
    have hstep := Watch.Clears.watched (k := k) hq hallows
    have hm₁ : (w.watched q.toWard k).From m₁ m₁ := ⟨.refl m₁, hmade.trans_le hgrows.size_le⟩
    obtain ⟨hgrows', hallows'⟩ := hstep.asks hm₁ h
    refine ⟨hgrows.trans hgrows', hallows', fun hne => ?_⟩
    by_cases hfirst : q.bound m₁ = q.bound m
    · rcases hstep.reaches hm₁ h (hfirst ▸ hne) with ⟨δ, v', m₃, hv', hchange⟩ | hwrites
      · obtain ⟨hgrows'', hallows''⟩ := hstep.asks hm₁ hv'.asks
        exact .inl (writtenIn_of_nested hq (hw.inside hv'.asks) hallows''
          (hm₁.made.trans_le hgrows''.size_le) hchange)
      · exact .inl (.of_writes hw hallows hwrites)
    · exact hwritten hfirst

/-- **What changes a binding is an assignment**, where no work is asked for in its scope. -/
theorem assignedIn {q : Ward} (hq : q.Calls) {fuel : Nat}
    (hapart : ∀ {m : Machine} {σ : ScopeId}, q.Region m σ → σ ≠ q.scope)
    (hx : (q.watch fuel).Clears m₀ x Q) (hm : (q.watch fuel).From m₀ m)
    (hne : q.bound ((x (.bounded fuel)).after m) ≠ q.bound m) : q.AssignedIn x fuel m := by
  rcases hx.written hq hm (hx.changes hm hne) with hwritten | ⟨_, _, hwrites⟩
  · exact hwritten.assignedIn hapart
  · exact hwrites.elim

end Watch.Clears

end ScriptTrace
