import ScriptTrace.Proofs.Composition.Expression

/-!
# Proofs/Composition/Statement — statements and the event loop

With the statements every piece of work is an action (`Action.step`), and so is a whole run
(`Action.runProgram`).
-/

namespace ScriptTrace

open Syntax (Expr Pattern Stmt Declarator DeclarationKind ForStart LoopOver Handler Case)

/-- Steps that show no deed may be recorded anywhere. -/
theorem Elementary.aside {l : Layer} [l.Roams] {W : World} {scope : ScopeId} {line : Nat}
    {kind : StepKind} {description : String} (h : Sees W scope) (hk : kind.isAside = true) :
    Elementary l W (Exec.record scope line kind description) Any := by
  refine .record h (StepKind.isOrdinary_of_isAside hk) (fun hd => ?_) ‹_›
  rw [StepKind.isAside, hd] at hk
  cases (Bool.and_eq_true_iff.mp hk).2

theorem Plain.record {l : Layer} [l.Executes] {W : World} {scope : ScopeId} {line : Nat}
    {kind : StepKind} {description : String} (h : Sees W scope) (hk : kind.isOrdinary = true) :
    Plain l W (Exec.record scope line kind description) Any :=
  .elementary (.record h hk (fun _ => ‹_›) inferInstance)

namespace Action

variable {l : Layer} {W : World}

/-! ## Declarations and expressions -/

theorem record [l.Executes] {scope : ScopeId} {line : Nat} {kind : StepKind} {description : String}
    (h : Sees W scope) (hk : kind.isOrdinary = true) :
    Action l W (fun _ => Exec.record scope line kind description) Free := .done (Plain.record h hk)

theorem aside [l.Roams] {scope : ScopeId} {line : Nat} {kind : StepKind} {description : String}
    (h : Sees W scope) (hk : kind.isAside = true) :
    Action l W (fun _ => Exec.record scope line kind description) Free :=
  .done (.elementary (.aside h hk))

/-- A declared variable is bound to its value, or to `undefined`. -/
theorem execDeclarator [l.Evaluates] [l.Roams] {scope : ScopeId} {kind : DeclarationKind}
    {d : Declarator} {line : Nat} (h : Sees W scope) :
    Action l W (fun ev => ev.execDeclarator scope kind d line) Free := by
  unfold Evaluator.execDeclarator
  dsimp only
  split
  · exact aside h rfl
  · exact .bind (bindTo h within_undefined) fun _ h₁ _ _ => aside (h.mono h₁) rfl
  · refine .bind (exprFor h) fun W₁ h₁ v hv => .seq .inspect fun _ _ => ?_
    exact .bind (bindTo (h.mono h₁) hv) fun _ h₂ _ _ => aside (h.mono (h₁.trans h₂)) rfl

theorem execDeclarators [l.Evaluates] [l.Roams] {scope : ScopeId} {kind : DeclarationKind}
    {line : Nat} :
    ∀ {W : World} {ds : List Declarator}, Sees W scope →
      Action l W (fun ev => ev.execDeclarators scope kind line ds) Free
  | _, [], _ => .pure trivial
  | _, _ :: _, h => .bind (execDeclarator h) fun _ h₁ _ _ => execDeclarators (h.mono h₁)

theorem execExpression [l.Executes] {scope : ScopeId} {e : Expr} {excerpt : String} {line : Nat}
    (h : Sees W scope) :
    Action l W (fun ev => ev.execExpression scope e excerpt line) Free := by
  unfold Evaluator.execExpression
  dsimp only
  split
  iterate 3 exact .bind (expr h) fun _ h₁ _ _ => .seq .inspect fun _ _ => record (h.mono h₁) rfl
  · exact .orElseShow (expr h) h ‹_›

/-! ## Blocks and loops -/

theorem innerScope {parent : ScopeId} {kind : ScopeKind} (h : Sees W parent)
    (hk : kind ≠ .global) :
    Action l W (fun _ => Exec.innerScope parent kind) fun W' id => .scope id ∈ W' :=
  .newScope h hk within_none

theorem execBlock [l.Evaluates] [l.Roams] {scope : ScopeId} {body : List Stmt} (h : Sees W scope) :
    Action l W (fun ev => ev.execBlock scope body) Within := by
  refine .bind (innerScope h nofun) fun W₁ h₁ inner hi => ?_
  refine .bind (hoistBlock (sees_of_mem hi)) fun W₂ h₂ _ _ => statements ?_
  exact (sees_of_mem hi).mono h₂

theorem loopTest [l.Executes] {scope : ScopeId} {test : Expr} {word : String} {line : Nat}
    (h : Sees W scope) : Action l W (fun ev => ev.loopTest scope test word line) Free :=
  .bind (expr h) fun _ h₁ _ _ => .seq (.record (h.mono h₁) rfl) fun _ _ => .pure trivial

theorem statement [l.Evaluates] [l.Roams] {scope : ScopeId} {s : Stmt} (h : Sees W scope) :
    Action l W (fun ev => ev.statement scope s) Within :=
  .eval (w := .statement scope none s) ⟨inferInstance, inferInstance, h⟩

/-- What a loop hands on is what its body gave. -/
theorem within_loopEnd {label : Option String} {c : Completion} (hc : Within W c) :
    Within W (loopEnd? label c) := by
  unfold loopEnd?
  split
  all_goals first | exact within_none | exact within_some.mpr within_normal | skip
  · split
    · exact within_none
    · exact hc
  · split
    · exact within_some.mpr within_normal
    · exact hc
  · exact hc

/-- The loop goes on with less fuel and in the scope in which it began. -/
theorem execWhile [l.Executes] {scope : ScopeId} {test : Expr} {body : Stmt}
    {label : Option String} {line : Nat} (h : Sees W scope) :
    Counted (fun rest => Action l W rest Within)
      fun ev => ev.execWhile scope test body label line := by
  refine ⟨_, rfl, .bind (loopTest h) fun W₁ h₁ passed _ => ?_⟩
  refine .ite (fun _ => .pure within_normal) fun _ => ?_
  refine .bind (statement (h.mono h₁)) fun W₂ h₂ c hc => ?_
  split
  · rename_i c' hc'
    exact .pure (within_some.mp (hc' ▸ within_loopEnd hc))
  · have hs := h.mono (h₁.trans h₂)
    exact .eval (w := .whileLoop scope test body label line) ⟨inferInstance, inferInstance, hs⟩

/-- The loop goes on with less fuel and in the scope in which it began. -/
theorem execDoWhile [l.Executes] {scope : ScopeId} {body : Stmt} {test : Expr}
    {label : Option String} {line : Nat} (h : Sees W scope) :
    Counted (fun rest => Action l W rest Within)
      fun ev => ev.execDoWhile scope body test label line := by
  refine ⟨_, rfl, .bind (statement h) fun W₁ h₁ c hc => ?_⟩
  split
  · rename_i c' hc'
    exact .pure (within_some.mp (hc' ▸ within_loopEnd hc))
  · refine .bind (loopTest (h.mono h₁)) fun W₂ h₂ passed _ => ?_
    refine .ite (fun _ => .pure within_normal) fun _ => ?_
    have hs := h.mono (h₁.trans h₂)
    exact .eval (w := .doLoop scope body test label line) ⟨inferInstance, inferInstance, hs⟩

theorem countingTest [l.Executes] {scope : ScopeId} {loop : CountingLoop} (h : Sees W scope) :
    Action l W (fun ev => ev.countingTest scope loop) Free := by
  unfold Evaluator.countingTest
  split
  · exact loopTest h
  · exact .pure trivial

theorem countingUpdate [l.Evaluates] [l.Roams] {scope : ScopeId} {loop : CountingLoop}
    (h : Sees W scope) :
    Action l W (fun ev => ev.countingUpdate scope loop) Free := by
  unfold Evaluator.countingUpdate
  split
  · exact .seq (.enter h) fun _ _ => .discard (expr h)
  · exact .pure trivial

theorem nextScope {scope : ScopeId} {isFresh : Bool} (h : .scope scope ∈ W) :
    Action l W (fun _ => Evaluator.nextScope scope isFresh) fun W' id => .scope id ∈ W' :=
  .ite (fun _ => .copyScope h) fun _ => .pure h

/-- The loop goes on in the scope of its next round. -/
theorem execCounting [l.Executes] {scope : ScopeId} {loop : CountingLoop} (h : .scope scope ∈ W) :
    Counted (fun rest => Action l W rest Within) fun ev => ev.execCounting scope loop := by
  have hs := sees_of_mem h
  refine ⟨_, rfl, .seq (.enter hs) fun _ _ => ?_⟩
  refine .bind (countingTest hs) fun W₁ h₁ goesOn _ => .ite (fun _ => .pure within_normal) ?_
  refine fun _ => .bind (statement (hs.mono h₁)) fun W₂ h₂ c hc => ?_
  split
  · rename_i c' hc'
    exact .pure (within_some.mp (hc' ▸ within_loopEnd hc))
  · refine .bind (nextScope (h₂ (h₁ h))) fun W₃ h₃ next hn => ?_
    refine .bind (countingUpdate (sees_of_mem hn)) fun W₄ h₄ _ _ => ?_
    exact .eval (w := .forLoop next loop) ⟨inferInstance, inferInstance, h₄ hn⟩

theorem execStart [l.Evaluates] [l.Roams] {scope : ScopeId} {start : Option ForStart} {line : Nat}
    (h : Sees W scope) :
    Action l W (fun ev => ev.execStart scope start line) Free := by
  unfold Evaluator.execStart
  split
  · exact .bind (execDeclarators h) fun _ _ _ _ => .pure trivial
  · exact .bind (.discard (expr h)) fun _ _ _ _ => .pure trivial
  · exact .pure trivial

theorem execFor [l.Evaluates] [l.Roams] {scope : ScopeId} {start : Option ForStart}
    {test update : Option Expr} {body : Stmt} {label : Option String} (h : Sees W scope) :
    Action l W (fun ev => ev.execFor scope start test update body label) Within := by
  refine .bind (innerScope h nofun) fun W₁ h₁ outer ho => ?_
  refine .bind (execStart (sees_of_mem ho)) fun W₂ h₂ isFresh _ => ?_
  refine .bind (nextScope (h₂ ho)) fun W₃ h₃ first hf => ?_
  exact .eval (w := .forLoop first ⟨test, update, body, label, isFresh⟩)
    ⟨inferInstance, inferInstance, hf⟩

theorem eachScope {scope : ScopeId} {mode : BindMode} (h : Sees W scope) :
    Action l W (fun _ => Evaluator.eachScope scope mode) fun W' id => Sees W' id :=
  .ite (fun _ => .pure h) fun _ => .weaken (innerScope h nofun) fun _ _ _ => sees_of_mem

/-- Each round has its own scope if the loop declares a variable. -/
theorem execEach [l.Executes] {scope : ScopeId} {word : String} {kind : Option DeclarationKind}
    {target : Pattern} {body : Stmt} {label : Option String} {line : Nat} {vs : List Value}
    (h : Sees W scope) (hvs : Within W vs) :
    Action l W (fun ev => ev.execEach scope word kind target body label line vs) Within := by
  induction vs generalizing W with
  | nil => exact .pure within_normal
  | cons v vs ih =>
    obtain ⟨hv, hvs⟩ := within_cons.mp hvs
    refine .seq (.elementary .tick) fun _ _ => .bind (eachScope h) fun W₁ h₁ inner hi => ?_
    refine .seq (.enter hi) fun _ _ => .seq .inspect fun _ _ => ?_
    refine .bind (bindTo hi (hv.mono h₁)) fun W₂ h₂ _ _ => ?_
    refine .seq (.record (hi.mono h₂) rfl) fun _ _ => ?_
    refine .bind (statement (hi.mono h₂)) fun W₃ h₃ c hc => ?_
    have h' := h₁.trans (h₂.trans h₃)
    split
    · rename_i c' hc'
      exact .pure (within_some.mp (hc' ▸ within_loopEnd hc))
    · exact ih (h.mono h') (hvs.mono h')

theorem loopItems {loop : LoopOver} {v : Value} {line : Nat} :
    Plain l W (Evaluator.loopItems loop v line) (Within W) := by
  cases loop with
  | values => exact .map .iterate fun _ hi => hi
  | keys =>
    refine .withHeap fun h _ => .pure (within_list.mpr fun v hv => ?_)
    obtain ⟨e, -, rfl⟩ := List.mem_map.mp hv
    exact within_string

theorem execForEach [l.Executes] {scope : ScopeId} {loop : LoopOver} {kind : Option DeclarationKind}
    {target : Pattern} {source : Expr} {body : Stmt} {label : Option String} (h : Sees W scope) :
    Action l W (fun ev => ev.execForEach scope loop kind target source body label) Within :=
  .bind (expr h) fun _ h₁ _ _ => .seq loopItems fun _ hi => execEach (h.mono h₁) hi

/-! ## Try and switch -/

theorem caught_mono {W W' : World} (hW : W ⊆ W') {r : Except Thrown Completion}
    (hr : Caught Within W r) : Caught Within W' r := by
  cases r with
  | ok c => exact Within.mono hr hW
  | error t => exact Within.mono hr hW

theorem resume {α : Type} {Q : World → α → Prop} {r : Except Thrown α} (hr : Caught Q W r) :
    Action l W (fun _ => Exec.resume r) Q := by
  cases r with
  | ok a => exact .pure hr
  | error t => exact .never (.elementary (.throw hr))

/-- The parameter of a handler takes the value that was thrown. -/
theorem bindThrown [l.Evaluates] {scope : ScopeId} {h : Handler} {t : Thrown} {line : Nat}
    (hs : Sees W scope) (ht : Within W t) :
    Action l W (fun ev => ev.bindThrown scope h t line) Free := by
  unfold Evaluator.bindThrown
  split
  · exact bindTo hs ht
  · exact .pure trivial

/-- A handler has its own scope. -/
theorem execHandler [l.Evaluates] [l.Roams] {scope : ScopeId} {h : Handler} {t : Thrown}
    {line : Nat}
    (hs : Sees W scope) (ht : Within W t) :
    Action l W (fun ev => ev.execHandler scope h t line) (Caught Within) := by
  refine .bind (innerScope hs nofun) fun W₁ h₁ inner hi => ?_
  have hi := sees_of_mem hi
  refine .bind (bindThrown hi (ht.mono h₁)) fun W₂ h₂ _ _ => ?_
  refine .seq (.elementary (.aside (hi.mono h₂) rfl)) fun _ _ => ?_
  refine .bind (hoistBlock (hi.mono h₂)) fun W₃ h₃ _ _ => ?_
  exact .catchThrown (statements (hi.mono (h₂.trans h₃)))

/-- A handler takes the place of what was thrown; other outcomes pass by it. -/
theorem handle [l.Evaluates] [l.Roams] {scope : ScopeId} {handler : Option Handler}
    {outcome : Except Thrown Completion} {line : Nat} (hs : Sees W scope)
    (ho : Caught Within W outcome) :
    Action l W (fun ev => ev.handle scope handler outcome line) (Caught Within) := by
  unfold Evaluator.handle
  split
  · exact execHandler hs ho
  · exact .pure ho

/-- **A `try` statement.** -/
theorem execTry [l.Evaluates] [l.Roams] {scope : ScopeId} {body : List Stmt}
    {handler : Option Handler} {finalizer : Option (List Stmt)} {line : Nat} (h : Sees W scope) :
    Action l W (fun ev => ev.execTry scope body handler finalizer line) Within := by
  refine .seq (.elementary (.aside h rfl)) fun _ _ => ?_
  refine .bind (.catchThrown (execBlock h)) fun W₁ h₁ o ho => ?_
  refine .bind (handle (h.mono h₁) ho) fun W₂ h₂ outcome ho => ?_
  have hs := h.mono (h₁.trans h₂)
  cases finalizer with
  | none => exact resume ho
  | some last =>
    refine .seq (.enter hs) fun _ _ => ?_
    refine .seq (.elementary (.aside hs rfl)) fun _ _ => ?_
    refine .bind (execBlock hs) fun W₃ h₃ c hc => ?_
    split
    · exact resume (caught_mono h₃ ho)
    · exact .pure hc

/-- The tests of the cases are evaluated up to the first one that holds. -/
theorem matchingCases [l.Evaluates] {scope : ScopeId} {v : Value} :
    ∀ {W : World} {cs : List Case}, Sees W scope →
      Action l W (fun ev => ev.matchingCases scope v cs) Free
  | _, [], _ => .pure trivial
  | W, c :: cs, h => by
    unfold Evaluator.matchingCases
    split
    · exact matchingCases h
    · refine .bind (expr h) fun W₁ h₁ candidate _ => .ite (fun _ => .pure trivial) fun _ => ?_
      exact matchingCases (h.mono h₁)

/-- The cases run one behind the other from the one that holds. -/
theorem execCases [l.Evaluates] [l.Roams] {scope : ScopeId} {cs : List Case} (h : Sees W scope) :
    Action l W (fun ev => ev.execCases scope cs) Within := by
  induction cs generalizing W with
  | nil => exact .pure within_normal
  | cons c cs ih =>
    refine .bind (statements h) fun W₁ h₁ completion hc => ?_
    split
    · exact ih (h.mono h₁)
    · exact .pure within_normal
    · exact .pure hc

theorem execSwitch [l.Executes] {scope : ScopeId} {value : Expr} {cases : List Case} {line : Nat}
    (h : Sees W scope) :
    Action l W (fun ev => ev.execSwitch scope value cases line) Within := by
  refine .bind (expr h) fun W₁ h₁ v _ => ?_
  refine .bind (innerScope (h.mono h₁) nofun) fun W₂ h₂ inner hi => ?_
  have hi := sees_of_mem hi
  refine .bind (hoistBlock hi) fun W₃ h₃ _ _ => ?_
  refine .bind (matchingCases (hi.mono h₃)) fun W₄ h₄ matching _ => ?_
  have hi₄ := hi.mono (h₃.trans h₄)
  exact .seq (.record hi₄ rfl) fun _ _ => execCases hi₄

/-! ## All statements -/

theorem execJump [l.Executes] {scope : ScopeId} {kind : StepKind} {label : Option String}
    {line : Nat} (h : Sees W scope) (hk : kind.isOrdinary = true) :
    Plain l W (Evaluator.execJump scope kind label line) Any := .record h hk

theorem returnValue [l.Evaluates] {scope : ScopeId} {e : Option Expr} (h : Sees W scope) :
    Action l W (fun ev => ev.returnValue scope e) Within := by
  cases e with
  | none => exact .pure within_undefined
  | some e => exact expr h

/-- **A statement.** -/
theorem execStatement [l.Executes] {scope : ScopeId} {label : Option String} {s : Stmt}
    (h : Sees W scope) :
    Counted (fun rest => Action l W rest Within) fun ev => ev.execStatement scope label s := by
  refine ⟨_, rfl, .seq (.enter h) fun _ _ => ?_⟩
  dsimp only
  split
  · exact .bind (execDeclarators h) fun _ _ _ _ => .pure within_normal
  · exact .seq (.record h rfl) fun _ _ => .pure within_normal
  · refine .bind (returnValue h) fun W₁ h₁ v hv => .seq .inspect fun _ _ => ?_
    exact .seq (.record (h.mono h₁) rfl) fun _ _ => .pure hv
  · refine .bind (expr h) fun W₁ h₁ v _ => .seq (.record (h.mono h₁) rfl) fun _ _ => ?_
    refine .ite (fun _ => statement (h.mono h₁)) fun _ => ?_
    split
    · exact statement (h.mono h₁)
    · exact .pure within_normal
  · exact execFor h
  · exact execForEach h
  · rename_i test body _
    exact .eval (w := .whileLoop scope test body label s.line) ⟨inferInstance, inferInstance, h⟩
  · rename_i body test _
    exact .eval (w := .doLoop scope body test label s.line) ⟨inferInstance, inferInstance, h⟩
  · exact .seq (execJump h rfl) fun _ _ => .pure within_broken
  · exact .seq (execJump h rfl) fun _ _ => .pure within_continued
  · refine .bind (expr h) fun W₁ h₁ v hv => .seq .inspect fun _ _ => ?_
    exact .seq (.record (h.mono h₁) rfl) fun _ _ => .never (.throwValue hv)
  · exact execTry h
  · exact execSwitch h
  · rename_i name body _
    have hw : (Work.statement scope (some name) body).Fits l W := ⟨inferInstance, inferInstance, h⟩
    refine .bind (.eval hw) fun W₁ h₁ c hc => ?_
    split
    · refine .pure ?_
      split
      · exact within_normal
      · exact within_broken
    · exact .pure hc
  · exact execBlock h
  · exact .bind (execExpression h) fun _ _ _ _ => .pure within_normal
  · exact .pure within_normal

/-! ## The event loop -/

/-- A task calls its function with its arguments. -/
theorem runTask {task : Task} (ht : Within W task) :
    Action l W (fun ev => ev.runTask task) Free := by
  unfold Evaluator.runTask
  have hjob := within_task.mp ht
  split
  · rename_i f args h
    obtain ⟨hf, ha⟩ := within_callback.mp (h ▸ hjob)
    exact .discard (apply hf within_undefined ha)
  · rename_i r outcome h
    obtain ⟨hr, ho⟩ := within_reactionJob.mp (h ▸ hjob)
    exact react hr ho

/-- A microtask, and those after it. -/
theorem microtask {task : Task} (ht : Within W task) :
    Counted (fun rest => Action .loop W rest Free) (fun ev => do
      Exec.tick
      Exec.enter Scopes.globalId
      Exec.recordHere task.line .microtask ("Run microtask " ++ task.label)
      ev.runTask task
      ev.run .microtasks) := by
  refine ⟨_, rfl, .seq (.enter sees_global) fun _ _ => ?_⟩
  refine .seq (.elementary (.showMicrotask rfl)) fun _ _ => ?_
  exact .bind (runTask ht) fun _ _ _ _ => .eval (w := .microtasks) rfl

theorem execMicrotasks : Action .loop W (fun ev => ev.execMicrotasks) Free := by
  refine .seq (.elementary (.nextMicrotask? rfl)) fun task ht => ?_
  cases task with
  | none => exact .pure trivial
  | some task => exact counted (microtask (within_some.mp ht))

theorem drainMicrotasks : Action .loop W (fun ev => ev.drainMicrotasks) Free :=
  .seq (.elementary (.hasMicrotask rfl)) fun _ _ => .ite
    (fun _ => .seq (.elementary (.enterPhase rfl)) fun _ _ => .eval (w := .microtasks) rfl)
    fun _ => .pure trivial

theorem refillCallbacks : Plain .loop W Exec.refillCallbacks Any :=
  .bind (.elementary (.awaitsTimers rfl)) fun _ _ => .ite
    (fun _ => .bind (.elementary (.moveTimers rfl)) fun _ _ => .record sees_global rfl)
    fun _ => .pure trivial

/-- A macrotask with the microtasks it leaves, and those after it. -/
theorem macrotask {task : Task} (ht : Within W task) :
    Counted (fun rest => Action .loop W rest Free) (fun ev => do
      Exec.tick
      Exec.enterPhase .macrotasks ("Event loop picks macrotask " ++ task.label)
      Exec.enter Scopes.globalId
      Exec.recordHere task.line .macrotask ("Run " ++ task.label)
      ev.runTask task
      ev.drainMicrotasks
      ev.run .macrotasks) := by
  refine ⟨_, rfl, .seq (.elementary (.enterPhase rfl)) fun _ _ => ?_⟩
  refine .seq (.enter sees_global) fun _ _ => ?_
  refine .seq (.elementary (.showMacrotask rfl)) fun _ _ => ?_
  refine .bind (runTask ht) fun _ _ _ _ => .bind drainMicrotasks ?_
  exact fun _ _ _ _ => .eval (w := .macrotasks) rfl

theorem execMacrotasks : Action .loop W (fun ev => ev.execMacrotasks) Free := by
  refine .seq refillCallbacks fun _ _ => .seq (.elementary (.nextCallback? rfl)) fun task ht => ?_
  cases task with
  | none => exact .pure trivial
  | some task => exact counted (macrotask (within_some.mp ht))

theorem runEventLoop : Action .loop W (fun ev => ev.runEventLoop) Free :=
  .seq (.enter sees_global) fun _ _ => .bind drainMicrotasks fun _ _ _ _ =>
    .bind (.eval (w := .macrotasks) rfl) fun _ _ _ _ => .elementary (.enterPhase rfl) fun _ => id

/-! ## Everything that is evaluated -/

/-- **Every piece of work is an action** in a world that has all it names. -/
theorem step [l.Executes] {α : Type} {w : Work α} (hw : w.Fits l W) :
    Action l W (fun ev => ev.step w) fun W' a => w.Yields W' a := by
  cases w with
  | expr scope e => exact evalExpr hw.2
  | statement scope label s => exact counted (execStatement hw.2.2)
  | bind scope p v mode line => exact bindPattern hw.2.1 hw.2.2
  | apply f this args line => exact applyValue hw.1 hw.2.1 hw.2.2
  | whileLoop scope test body label line => exact counted (execWhile hw.2.2)
  | doLoop scope body test label line => exact counted (execDoWhile hw.2.2)
  | forLoop scope loop => exact counted (execCounting hw.2.2)
  | microtasks => cases hw; exact execMicrotasks
  | macrotasks => cases hw; exact execMacrotasks

/-- **A run of a program is an action** in every world. -/
theorem runProgram {program : Syntax.Program} :
    Action .loop W (fun ev => ev.runProgram program) Free := by
  refine .bind (hoistBody sees_global) fun W₁ _ _ _ => ?_
  refine .seq (.elementary (.enterPhase rfl)) fun _ _ => ?_
  exact .bind (.discard (statements sees_global)) fun _ _ _ _ => runEventLoop

end Action

/-- **Evaluations**: pieces of work, calls of the host and of closures, tasks, the event loop and
whole programs. -/
inductive Evaluation : {α : Type} → (Evaluator → Exec α) → Prop
  | work {α : Type} (w : Work α) : Evaluation fun ev => ev.run w
  | callHost (f : HostFunction) (args : List Value) (line : Nat) :
    Evaluation fun ev => ev.callHost f args line
  | construct (h : HostObject) (args : List Value) (line : Nat) :
    Evaluation fun ev => ev.construct h args line
  | callMethod (receiver : Value) (method : String) (args : List Value) (line : Nat) :
    Evaluation fun ev => ev.callMethod receiver method args line
  | invoke (id : ObjectId) (c : Closure) (this : Value) (args : List Value) (line : Nat) :
    Evaluation fun ev => ev.invoke id c this args line
  | runTask (task : Task) : Evaluation fun ev => ev.runTask task
  | runEventLoop : Evaluation fun ev => ev.runEventLoop
  | runProgram (program : Syntax.Program) : Evaluation fun ev => ev.runProgram program

/-- In the world of all entities every piece of work may be asked for. -/
theorem Work.fits_univ {α : Type} (w : Work α) : w.Fits .loop Set.univ := by
  cases w with
  | expr => exact ⟨inferInstance, sees_univ _⟩
  | statement | whileLoop | doLoop => exact ⟨inferInstance, inferInstance, sees_univ _⟩
  | bind => exact ⟨inferInstance, sees_univ _, within_univ _⟩
  | apply => exact ⟨within_univ _, within_univ _, within_univ _⟩
  | forLoop => exact ⟨inferInstance, inferInstance, Set.mem_univ _⟩
  | microtasks | macrotasks => rfl

/-- **Every evaluation is an action** in the world of all entities. -/
theorem Evaluation.action {α : Type} {x : Evaluator → Exec α} (h : Evaluation x) :
    Action .loop Set.univ x Free := by
  cases h with
  | work w => exact .weaken (.eval w.fits_univ) fun _ _ _ _ => trivial
  | callHost => exact .weaken (.callHost (within_univ _)) fun _ _ _ _ => trivial
  | construct => exact .weaken (.construct (within_univ _)) fun _ _ _ _ => trivial
  | callMethod =>
    exact .weaken (.callMethod (within_univ _) (within_univ _)) fun _ _ _ _ => trivial
  | invoke =>
    refine .weaken (.call (Set.mem_univ _) ?_ ?_ ?_) fun _ _ _ _ => trivial
    all_goals exact within_univ _
  | runTask => exact .runTask (within_univ _)
  | runEventLoop => exact .runEventLoop
  | runProgram => exact .runProgram

end ScriptTrace
