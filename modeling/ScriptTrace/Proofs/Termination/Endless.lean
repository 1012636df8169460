import Mathlib.Data.Prod.Lex
import Mathlib.Order.WellFounded
import ScriptTrace.Proofs.Termination.Descent
import ScriptTrace.Proofs.Traversal.Trail

/-!
# Proofs/Termination/Endless — when a run does not end

    f(f)  asks for  f(f, 0, a)  asks for  f(f, 0, a)  asks for  ⋯

Statements, iterations, tasks and calls of closures are counted, and between two counts everything
that is evaluated gets smaller, except where a function of the host calls a value.  So a run that
does not end comes to calls of the host inside one another without end, or to an array that has no
end (`Endless`); and a run that comes to one of these does not end (`ends_iff_not_endless`).
-/

namespace ScriptTrace

variable {α β : Type}

/-- **What an evaluation comes to**: itself, and each piece of work that is asked for on the way. -/
inductive Reached (x : Evaluator → Exec α) (m : Machine) :
    {β : Type} → (Evaluator → Exec β) → Machine → Prop
  | start : Reached x m x m
  | step {β γ : Type} {y : Evaluator → Exec β} {w : Work γ} {m₁ m₂ : Machine}
    (h : Reached x m y m₁) (ha : Asks y .unbounded m₁ w m₂) :
    Reached x m (fun ev => ev.step w) m₂

/-- **Calls of the host inside one another without end**: each asks for the next one, and no unit of
work is counted. -/
structure EndlessCalls (calls : Nat → Work Value) (machines : Nat → Machine) : Prop where
  host : ∀ i, (calls i).IsHostCall (machines i)
  asks : ∀ i, Asks (fun ev => ev.step (calls i)) .unbounded (machines i)
    (calls (i + 1)) (machines (i + 1))
  uncounted : ∀ i, (machines i).work = (machines 0).work

/-- **An evaluation without end** comes to calls without end or to an array without end. -/
inductive Endless (x : Evaluator → Exec α) (m : Machine) : Prop
  | calls {β : Type} {y : Evaluator → Exec β} {m₁ : Machine} {calls : Nat → Work Value}
    {machines : Nat → Machine} (h : Reached x m y m₁)
    (ha : Asks y .unbounded m₁ (calls 0) (machines 0)) (hcalls : EndlessCalls calls machines)
  | array {β : Type} {y : Evaluator → Exec β} {m₁ : Machine} (h : Reached x m y m₁)
    (harray : EndlessArray y m₁)

section

variable {x : Evaluator → Exec α} {y : Evaluator → Exec β} {Q : World → α → Prop} {m m₁ : Machine}

/-! ## What comes to an end -/

/-- A piece of work that has enough fuel does its step with one less. -/
theorem Work.step_ends {w : Work α} {fuel : Nat} (h : (w.exec fuel).faultOf m ≠ some .exhausted) :
    ∃ k, ((Evaluator.bounded k).step w).faultOf m ≠ some .exhausted := by
  cases fuel with
  | zero => exact absurd rfl h
  | succ k => exact ⟨k, h⟩

/-- Everything that an evaluation comes to is an action. -/
theorem Reached.action (h : Reached x m y m₁) (hx : Action .loop Set.univ x Q) :
    ∃ R : World → β → Prop, Action .loop Set.univ y R := by
  cases h with
  | start => exact ⟨Q, hx⟩
  | step => exact ⟨_, .step (Work.fits_univ _)⟩

/-- If some fuel is enough for an evaluation, it is enough for all that it comes to. -/
theorem Reached.ends (h : Reached x m y m₁) (hx : Action .loop Set.univ x Q)
    (hend : ∃ fuel, (x (.bounded fuel)).faultOf m ≠ some .exhausted) :
    ∃ fuel, (y (.bounded fuel)).faultOf m₁ ≠ some .exhausted := by
  induction h with
  | start => exact hend
  | step h ha ih =>
    obtain ⟨fuel, hfuel⟩ := ih
    obtain ⟨R, hy⟩ := h.action hx
    exact Work.step_ends (hy.ends_of_asks hfuel ha)

/-- **Calls without end hang.** -/
theorem EndlessCalls.hangs {calls : Nat → Work Value} {machines : Nat → Machine}
    (h : EndlessCalls calls machines) (i : Nat) : (calls i).Hangs (machines i) := by
  intro fuel
  induction fuel generalizing i with
  | zero => rfl
  | succ fuel ih =>
    by_contra hend
    have hstep : Action .loop Set.univ (fun ev => ev.step (calls i)) _ := .step (Work.fits_univ _)
    have hends : ((Evaluator.bounded fuel).step (calls i)).faultOf (machines i) ≠
        some .exhausted := hend
    exact hstep.ends_of_asks hends (h.asks i) (ih (i + 1))

/-- **What is without end does not end.** -/
theorem Endless.not_ends (h : Endless x m) (hx : Action .loop Set.univ x Q) :
    ¬ ∃ fuel, (x (.bounded fuel)).faultOf m ≠ some .exhausted := by
  intro hend
  cases h with
  | calls h ha hcalls =>
    obtain ⟨R, hy⟩ := h.action hx
    obtain ⟨fuel, hfuel⟩ := h.ends hx hend
    exact hy.ends_of_asks hfuel ha (hcalls.hangs 0 fuel)
  | array h harray =>
    obtain ⟨R, hy⟩ := h.action hx
    obtain ⟨fuel, hfuel⟩ := h.ends hx hend
    exact hy.not_endlessArray hfuel harray

/-! ## What does not come to an end -/

/-- What is asked for begins below the ceiling on work, too. -/
theorem Action.metered_asks (hx : Action .loop Set.univ x Q) {w : Work β}
    (ha : Asks x .unbounded m w m₁) : Metered m none m₁ := by
  have hI := metered_stepwise .loop
  exact ((hx.follows hI (Evaluator.keeps_unbounded hI.lawful)).tracks trivial rfl ha).1.moves

/-- Up to what is reached no more work is counted than the limit allows. -/
theorem Reached.metered (h : Reached x m y m₁) (hx : Action .loop Set.univ x Q) :
    Metered m none m₁ := by
  induction h with
  | start => exact .idle rfl rfl nofun
  | step h ha ih =>
    obtain ⟨R, hy⟩ := h.action hx
    exact ih.trans (hy.metered_asks ha)

/-- How much work is left, and how large the part of the program is. -/
noncomputable def Work.left (w : Work α) (m : Machine) : ℕ ×ₗ ℕ :=
  toLex (m.limits.maxSteps - m.work, w.rank)

/-- **Less is left for what is asked for**, unless a function of the host calls a value. -/
theorem Work.left_of_asks {w : Work α} {v : Work β} (hm : m.work ≤ m.limits.maxSteps)
    (ha : Asks (fun ev => ev.step w) .unbounded m v m₁) : v.left m₁ < w.left m ∨
      (w.IsHostCall m ∧ v.IsCall ∧ m₁.work = m.work ∧ v.left m₁ = w.left m) := by
  have hmeter : Metered m none m₁ := (Action.step w.fits_univ).metered_asks ha
  obtain ⟨hle, hmax⟩ := hmeter.below hm nofun
  obtain ⟨-, hnext⟩ := w.asks_descend ha
  have hlimits := congrArg Limits.maxSteps hmeter.limits
  rcases hle.lt_or_eq with hlt | heq
  · exact .inl (Prod.Lex.toLex_lt_toLex.mpr (.inl (by omega)))
  · rcases hnext heq.symm with hrank | ⟨hhost, hcall⟩
    · exact .inl (Prod.Lex.toLex_lt_toLex.mpr (.inr ⟨by omega, hrank⟩))
    · refine .inr ⟨hhost, hcall, heq.symm, ?_⟩
      cases w with
      | apply =>
        cases v with
        | apply => rw [Work.left, Work.left, hmeter.limits, heq]; rfl
        | _ => cases hcall
      | _ => cases hhost

/-- **A piece of work that hangs**, and that an evaluation comes to. -/
structure Stuck (x : Evaluator → Exec α) (m : Machine) (w : Work β) (m₁ : Machine) : Prop where
  hangs : w.Hangs m₁
  asked : ∃ (γ : Type) (y : Evaluator → Exec γ) (m₂ : Machine), Reached x m y m₂ ∧
    Asks y .unbounded m₂ w m₁

theorem Stuck.reached {w : Work β} (h : Stuck x m w m₁) :
    Reached x m (fun ev => ev.step w) m₁ := by
  obtain ⟨γ, y, m₂, hreached, ha⟩ := h.asked
  exact hreached.step ha

/-- What hangs asks for something that hangs, unless there is an array without end. -/
theorem Stuck.next {w : Work β} (h : Stuck x m w m₁)
    (harray : ¬ EndlessArray (fun ev => ev.step w) m₁) :
    ∃ (γ : Type) (v : Work γ) (m₂ : Machine), Stuck x m v m₂ ∧
      Asks (fun ev => ev.step w) .unbounded m₁ v m₂ := by
  have hend (fuel : Nat) : ((Evaluator.bounded fuel).step w).faultOf m₁ = some .exhausted :=
    h.hangs (fuel + 1)
  obtain ⟨γ, v, m₂, ha, hv⟩ := ((Action.step w.fits_univ).hangs hend).resolve_right harray
  exact ⟨γ, v, m₂, ⟨hv, β, _, m₁, h.reached, ha⟩, ha⟩

/-- Calls of the host each of which asks for one of them go on without end. -/
theorem exists_endlessCalls {S : Work Value → Machine → Prop} {w : Work Value} (h : S w m)
    (hS : ∀ w m, S w m → w.IsHostCall m ∧ ∃ v m₁, S v m₁ ∧
      Asks (fun ev => ev.step w) .unbounded m v m₁ ∧ m₁.work = m.work) :
    ∃ calls machines, calls 0 = w ∧ machines 0 = m ∧ EndlessCalls calls machines := by
  have hnext (c : {c : Work Value × Machine // S c.1 c.2}) :
      ∃ d : {c : Work Value × Machine // S c.1 c.2},
        Asks (fun ev => ev.step c.1.1) .unbounded c.1.2 d.1.1 d.1.2 ∧ d.1.2.work = c.1.2.work := by
    obtain ⟨-, v, m₁, hv, ha, hwork⟩ := hS _ _ c.2
    exact ⟨⟨(v, m₁), hv⟩, ha, hwork⟩
  choose next hask hwork using hnext
  let seq (i : Nat) := next^[i] ⟨(w, m), h⟩
  have hseq (i : Nat) : seq (i + 1) = next (seq i) := Function.iterate_succ_apply' next i _
  refine ⟨fun i => (seq i).1.1, fun i => (seq i).1.2, rfl, rfl, ?_⟩
  refine ⟨fun i => (hS _ _ (seq i).2).1, fun i => ?_, fun i => ?_⟩
  · rw [hseq]
    exact hask (seq i)
  · induction i with
    | zero => rfl
    | succ i ih =>
      rw [hseq]
      exact (hwork (seq i)).trans ih

/-- A piece of work that hangs, and for which the least is left, is a call of the host and asks for
another one. -/
theorem Stuck.call {w : Work β} (hx : Action .loop Set.univ x Q) (hm : m.work ≤ m.limits.maxSteps)
    (harray : ∀ {γ : Type} {y : Evaluator → Exec γ} {m₂ : Machine}, Reached x m y m₂ →
      ¬ EndlessArray y m₂) (h : Stuck x m w m₁)
    (hleast : ∀ {γ : Type} {v : Work γ} {m₂ : Machine}, Stuck x m v m₂ → ¬ v.left m₂ < w.left m₁) :
    w.IsHostCall m₁ ∧ ∃ (v : Work Value) (m₂ : Machine), Stuck x m v m₂ ∧
      Asks (fun ev => ev.step w) .unbounded m₁ v m₂ ∧ m₂.work = m₁.work ∧
      v.left m₂ = w.left m₁ := by
  obtain ⟨γ, v, m₂, hv, ha⟩ := h.next (harray h.reached)
  have hmeter := h.reached.metered hx
  have hbound : m₁.work ≤ m₁.limits.maxSteps := hmeter.limits ▸ (hmeter.below hm nofun).2
  obtain ⟨hhost, hcall, hwork, hleft⟩ := (w.left_of_asks hbound ha).resolve_left (hleast hv)
  refine ⟨hhost, ?_⟩
  cases v with
  | apply f this args line => exact ⟨_, m₂, hv, ha, hwork, hleft⟩
  | _ => cases hcall

/-- **What does not end is without end.**  Of the pieces of work that hang take one for which the
least is left: it calls a value from the host, and so does what it asks for, and so on. -/
theorem Endless.of_not_ends (hx : Action .loop Set.univ x Q) (hm : m.work ≤ m.limits.maxSteps)
    (hend : ¬ ∃ fuel, (x (.bounded fuel)).faultOf m ≠ some .exhausted) : Endless x m := by
  by_contra hno
  have harray {γ : Type} {y : Evaluator → Exec γ} {m₂ : Machine} (h : Reached x m y m₂) :
      ¬ EndlessArray y m₂ := fun ha => hno (.array h ha)
  obtain ⟨β, w, m₁, ha, hw⟩ :=
    (hx.hangs (not_exists_not.mp hend)).resolve_right (harray .start)
  have hfirst : Stuck x m w m₁ := ⟨hw, α, x, m, .start, ha⟩
  let left (c : Σ β : Type, Work β × Machine) : ℕ ×ₗ ℕ := c.2.1.left c.2.2
  obtain ⟨⟨γ, v, m₂⟩, hv, hmin⟩ := (InvImage.wf left wellFounded_lt).has_min
    {c | Stuck x m c.2.1 c.2.2} ⟨⟨β, w, m₁⟩, hfirst⟩
  have hleast {δ : Type} {u : Work δ} {m₃ : Machine} (h : Stuck x m u m₃) :
      ¬ u.left m₃ < v.left m₂ := hmin ⟨δ, u, m₃⟩ h
  have hhost := (hv.call hx hm harray hleast).1
  cases v with
  | apply f this args line =>
    obtain ⟨calls, machines, hcall, hmachine, hcalls⟩ := exists_endlessCalls
      (S := fun u m₃ => Stuck x m u m₃ ∧ u.left m₃ = (Work.apply f this args line).left m₂)
      ⟨hv, rfl⟩ fun u m₃ ⟨hu, heq⟩ => by
        obtain ⟨hhost, u', m₄, hu', ha, hwork, hleft⟩ :=
          hu.call hx hm harray fun h => heq ▸ hleast h
        exact ⟨hhost, u', m₄, ⟨hu', hleft.trans heq⟩, ha, hwork⟩
    obtain ⟨γ, y, m₀, hreached, ha⟩ := hv.asked
    rw [← hcall, ← hmachine] at ha
    exact hno (.calls hreached ha hcalls)
  | _ => cases hhost

end

/-! ## Runs -/

/-- Only arrays that lie inside themselves are without end. -/
theorem EndlessArray.hasNoEnd {y : Evaluator → Exec β} {m : Machine} (h : EndlessArray y m) :
    ∃ m' v, y .unbounded m = .error .exhausted m' ∧ m'.heap.HasNoEnd v := by
  obtain ⟨m', items, depth, hend, hflat⟩ := h.endless
  obtain ⟨v, -, hv⟩ := hasNoEnd_of_flatten hflat
  exact ⟨m', v, hend, hv⟩

/-- **A run comes to an end unless it is without end.**  Some fuel is enough for it exactly when it
comes neither to calls of the host inside one another, at which no unit of work is counted, nor to
an array without end; and where there is one, some array lies inside itself. -/
theorem ends_iff_not_endless (limits : Limits) (program : Syntax.Program) :
    ((∃ fuel, ((Evaluator.bounded fuel).runProgram program).faultOf (.initial limits) ≠
        some .exhausted) ↔
      ¬ Endless (fun ev => ev.runProgram program) (.initial limits)) ∧
    ∀ {β : Type} {y : Evaluator → Exec β} {m : Machine}, EndlessArray y m →
      ∃ m' v, y .unbounded m = .error .exhausted m' ∧ m'.heap.HasNoEnd v := by
  have hrun : Action .loop Set.univ (fun ev => ev.runProgram program) Free := .runProgram
  refine ⟨⟨fun hend h => h.not_ends hrun hend, fun h => ?_⟩, EndlessArray.hasNoEnd⟩
  by_contra hend
  exact h (.of_not_ends hrun (Nat.zero_le _) hend)

/-! ## An array that holds its own method -/

/-- **An array holds its own method**: the array `a` has one element, the function `f`, which calls
its argument with each element of `a`. -/
structure Machine.HoldsItself (m : Machine) (a f : ObjectId) : Prop where
  array : m.heap.body? a = some (.array #[.object f])
  method : m.heap.body? f = some (.method (.object a) "forEach")

namespace Machine.HoldsItself

variable {m m' : Machine} {a f : ObjectId}

/-- The call of the method with itself. -/
def call (a f : ObjectId) (line : Nat) : Work Value :=
  .apply (.object f) .undefined [.object f, .count 0, .object a] line

/-- **A call of the method with itself asks for a call of the method with itself.** -/
theorem applyValue (h : m.HoldsItself a f) {ev : Evaluator} {this : Value} {args : List Value}
    {line : Nat} {e : Fault} (hev : ev.run (call a f line) m = .error e m') :
    ev.applyValue (.object f) this (.object f :: args) line m = .error e m' := by
  have hmethod : Exec.body? f m = .ok (some (.method (.object a) "forEach")) m := by
    rw [← h.method]
    rfl
  have harray : Exec.body? a m = .ok (some (.array #[.object f])) m := by
    rw [← h.array]
    rfl
  have hitems : m.heap.items? (.object a) = some #[.object f] := by
    rw [Heap.items?, h.array]
  have hcallable : m.heap.isCallable (.object f) = true := by
    rw [Heap.isCallable, h.method]
    rfl
  have hcallback : Exec.callback (.object f :: args) "forEach" line m = .ok (.object f) m := by
    have hcheck : Exec.isCallable (.object f) m = .ok true m := by
      rw [← hcallable]
      rfl
    exact Exec.bind_of_ok hcheck
  have heach : ev.mapItems a (.object f) line [.object f] m = .error e m' :=
    Exec.bind_of_error hev
  have hforEach : ev.arrayMethod a "forEach" (.object f :: args) line m = .error e m' := by
    change (Exec.callback (.object f :: args) "forEach" line >>= fun g =>
      (Functor.discard (ev.mapItems a g line ((m.heap.items? (.object a)).getD #[]).toList) :
        Exec Unit) >>= fun _ => pure Value.undefined) m = _
    rw [hitems]
    exact (Exec.bind_of_ok hcallback).trans (Exec.bind_of_error (Exec.bind_of_error heach))
  exact (Exec.bind_of_ok hmethod).trans ((Exec.bind_of_ok harray).trans hforEach)

/-- **So it calls itself without end.** -/
theorem endlessCalls (h : m.HoldsItself a f) (line : Nat) :
    EndlessCalls (fun _ => call a f line) fun _ => m where
  host _ id c hf hc := by
    cases hf
    cases h.method.symm.trans hc
  asks _ := .of_fails fun _ _ hev => h.applyValue hev
  uncounted _ := rfl

/-- A method that calls itself for its own array never ends. -/
theorem hangs (h : m.HoldsItself a f) {this : Value} {args : List Value} {line : Nat} :
    (Work.apply (.object f) this (.object f :: args) line).Hangs m := by
  intro fuel
  cases fuel with
  | zero => rfl
  | succ fuel =>
    obtain ⟨m', hcall⟩ := Exec.faultOf_eq_some.mp ((h.endlessCalls line).hangs 0 fuel)
    exact Exec.faultOf_of_error (h.applyValue hcall)

end Machine.HoldsItself

/-! ### A program that makes one -/

/-- Statements behind others that end normally. -/
theorem Evaluator.statements_append {ev : Evaluator} {scope : ScopeId} {m₁ : Machine}
    {ss rest : List Syntax.Stmt} (h : ev.statements scope ss m = .ok .normal m₁) :
    ev.statements scope (ss ++ rest) m = ev.statements scope rest m₁ := by
  induction ss generalizing m with
  | nil =>
    cases h
    rfl
  | cons s ss ih =>
    obtain ⟨c, m₂, hs, hc⟩ := Exec.bind_eq_ok h
    refine (Exec.bind_of_ok hs).trans ?_
    cases c with
    | normal => exact ih hc
    | returned | broken | continued => cases hc

/-- A statement that is a call ends in the fault of the call. -/
theorem Evaluator.execStatement_call {ev : Evaluator} {scope : ScopeId} {label : Option String}
    {callee : Syntax.Expr} {args : List Syntax.Element} {isOptional : Bool}
    {p p' : Grammar.Position} {excerpt : String} {e : Fault} {m' : Machine}
    (hm : m.work < m.limits.maxSteps)
    (h : ev.expr scope (.mk (.call callee args isOptional) p)
      { m with work := m.work + 1, scope } = .error e m') :
    ev.execStatement scope label (.mk (.expr (.mk (.call callee args isOptional) p)) p' excerpt) m =
      .error e m' := by
  refine (Exec.bind_of_ok (Exec.tick_of_lt hm)).trans ((Exec.bind_of_ok rfl).trans ?_)
  exact Exec.bind_of_error (Exec.orElseShow_of_error h)

/-- A run ends in the fault of its statements. -/
theorem Evaluator.runProgram_of_error {ev : Evaluator} {program : Syntax.Program} {e : Fault}
    {m' : Machine} (hhoist : Exec.hoistBody Scopes.globalId program m = .ok () m₁)
    (h : ev.statements Scopes.globalId program
      ({ m₁ with phase := .executing }.recorded Scopes.globalId 0 .eventLoop
        "Run script: synchronous code executes on the call stack") = .error e m') :
    ev.runProgram program m = .error e m' := by
  refine (Exec.bind_of_ok hhoist).trans ((Exec.bind_of_ok Exec.enterPhase_eq).trans ?_)
  exact Exec.bind_of_error (Exec.bind_of_error h)

/-- An array that comes to hold its own method. -/
def selfHolding : Syntax.Program :=
  [.mk (.declare .const [.mk (.name "a") (some (.mk (.array []) ⟨1, 11⟩))]) ⟨1, 1⟩
      "const a = [];",
    .mk (.declare .const [.mk (.name "f") (some
      (.mk (.member (.mk (.name "a") ⟨1, 25⟩) (.static "forEach") false) ⟨1, 25⟩))]) ⟨1, 15⟩
      "const f = a.forEach;",
    .mk (.expr (.mk (.call
      (.mk (.member (.mk (.name "a") ⟨1, 36⟩) (.static "push") false) ⟨1, 36⟩)
      [.single (.mk (.name "f") ⟨1, 43⟩)] false) ⟨1, 36⟩)) ⟨1, 36⟩ "a.push(f);"]

/-- The call of the method with itself. -/
def selfCall : Syntax.Expr :=
  .mk (.call (.mk (.name "f") ⟨1, 47⟩) [.single (.mk (.name "f") ⟨1, 49⟩)] false) ⟨1, 47⟩

/-- A host function that is called with itself over and over. -/
def selfCallUse : String := "const a = []; const f = a.forEach; a.push(f); f(f)"

/-- The tree of that source. -/
def selfCallProgram : Syntax.Program := selfHolding ++ [.mk (.expr selfCall) ⟨1, 47⟩ "f(f)"]

/-- Limits with more work than any stack could hold. -/
def selfCallLimits : Limits := { Limits.default with maxSteps := 1000000 }

/-- The machine when the program begins. -/
def selfCallStart : Machine :=
  { Machine.initial selfCallLimits with phase := .executing }.recorded Scopes.globalId 0
    .eventLoop "Run script: synchronous code executes on the call stack"

/-- The machine when the method is about to be called with itself. -/
def selfCallReady : Machine :=
  ((Evaluator.bounded 6).statements Scopes.globalId selfHolding).after selfCallStart

set_option maxRecDepth 100000 in
theorem readProgram_selfCallUse : Syntax.readProgram selfCallUse = .ok selfCallProgram := by
  rfl

/-- Whatever the fuel, the call of the method with itself exhausts it. -/
theorem selfCallReady_exhausts (fuel : Nat) :
    ∃ m', (Evaluator.bounded (fuel + 6)).statements Scopes.globalId
      [.mk (.expr selfCall) ⟨1, 47⟩ "f(f)"] selfCallReady = .error .exhausted m' := by
  let counted : Machine :=
    { selfCallReady with work := selfCallReady.work + 1, scope := Scopes.globalId }
  have hholds : counted.HoldsItself 0 1 := ⟨rfl, rfl⟩
  have hhangs : (Work.apply (.object 1) .undefined [.object 1] 1).Hangs counted := hholds.hangs
  obtain ⟨m', hcall⟩ := Exec.faultOf_eq_some.mp (hhangs (fuel + 4))
  have hexpr : (Evaluator.bounded (fuel + 5)).expr Scopes.globalId selfCall counted =
      .error .exhausted m' := by
    refine Eq.trans ?_ hcall
    rfl
  have hwork : selfCallReady.work < selfCallReady.limits.maxSteps := by decide
  have hstatement : (Evaluator.bounded (fuel + 5)).execStatement Scopes.globalId none
      (.mk (.expr selfCall) ⟨1, 47⟩ "f(f)") selfCallReady = .error .exhausted m' :=
    Evaluator.execStatement_call hwork hexpr
  exact ⟨m', Exec.bind_of_error hstatement⟩

/-- **A run that does not end.** -/
theorem selfCallUse_never_ends : Syntax.readProgram selfCallUse = .ok selfCallProgram ∧
    ∀ fuel, ((Evaluator.bounded fuel).runProgram selfCallProgram).faultOf
      (.initial selfCallLimits) = some .exhausted := by
  refine ⟨readProgram_selfCallUse, fun fuel => ?_⟩
  by_contra hend
  have hsame := ((Action.runProgram.steady.same (Evaluator.bounded_under (Nat.le_add_right fuel 6))
    (.initial selfCallLimits)).resolve_left hend)
  obtain ⟨m', hcall⟩ := selfCallReady_exhausts fuel
  have hsetup : (Evaluator.bounded (fuel + 6)).statements Scopes.globalId selfHolding
      selfCallStart = .ok .normal selfCallReady := rfl
  have hhoist : Exec.hoistBody Scopes.globalId selfCallProgram (.initial selfCallLimits) =
      .ok () (.initial selfCallLimits) := rfl
  have hstatements : (Evaluator.bounded (fuel + 6)).statements Scopes.globalId selfCallProgram
      selfCallStart = .error .exhausted m' := (Evaluator.statements_append hsetup).trans hcall
  have hrun := Evaluator.runProgram_of_error hhoist hstatements
  exact hend ((Exec.faultOf_congr hsame).symm.trans (Exec.faultOf_of_error hrun))

end ScriptTrace
