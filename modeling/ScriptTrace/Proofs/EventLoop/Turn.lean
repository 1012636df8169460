import ScriptTrace.Proofs.Nested

/-!
# Proofs/EventLoop/Turn — one turn of the event loop

What the event loop does before it hands over to a task depends on the queues alone: either no task
is left, or one is taken and begins in a machine that is known, or the ceiling on work stops it
there.  In each of these cases the loop is equal to something simpler, whatever the evaluator is.
-/

namespace ScriptTrace

/-! ## Machines between tasks -/

namespace Machine

/-- A phase is entered and shown. -/
def entering (m : Machine) (phase : Phase) (description : String) : Machine :=
  { m with phase }.recorded Scopes.globalId 0 .eventLoop description

/-- The microtasks are about to be drained. -/
def draining (m : Machine) : Machine :=
  m.entering .microtasks "Call stack empty: draining the microtask queue"

/-- A microtask is about to run, and these are left. -/
def beginMicrotask (m : Machine) (task : Task) (rest : List Task) : Machine :=
  { m with
    microtasks := rest
    work := m.work + 1
    scope := Scopes.globalId }.recorded Scopes.globalId task.line .microtask
      ("Run microtask " ++ task.label)

/-- All timers are due. -/
def refilled (m : Machine) : Machine :=
  { m with
    timers := []
    callbacks := m.callbacks ++ (Timer.inOrder m.timers).map Timer.task }.recorded
      Scopes.globalId 0 .timer
      (toString m.timers.length ++ " timer(s) elapsed: callbacks moved to the callback queue")

/-- A callback is picked, and these are left. -/
def picking (m : Machine) (task : Task) (rest : List Task) : Machine :=
  { m with callbacks := rest, work := m.work + 1 }.entering .macrotasks
    ("Event loop picks macrotask " ++ task.label)

/-- A callback is about to run, and these are left. -/
def beginMacrotask (m : Machine) (task : Task) (rest : List Task) : Machine :=
  { m.picking task rest with scope := Scopes.globalId }.recorded Scopes.globalId task.line
    .macrotask ("Run " ++ task.label)

/-- Nothing is left to do. -/
def idling (m : Machine) : Machine :=
  m.entering .idle "Call stack and queues are empty: event loop idle"

theorem refilled_callbacks (m : Machine) :
    m.refilled.callbacks = m.callbacks ++ (Timer.inOrder m.timers).map Timer.task := rfl

/-- If a timer waits, the next turn has a callback. -/
theorem refilled_callbacks_ne_nil {m : Machine} (h : m.timers ≠ []) :
    m.refilled.callbacks ≠ [] := by
  intro hnil
  have hlength := congrArg List.length ((refilled_callbacks m).symm.trans hnil)
  simp only [Timer.inOrder, List.length_append, List.length_map, List.length_mergeSort,
    List.length_nil, Nat.add_eq_zero_iff, List.length_eq_zero_iff] at hlength
  exact h hlength.2

end Machine

/-! ## Turns -/

namespace Evaluator

variable (ev : Evaluator) {m : Machine} {task : Task} {rest : List Task}

open Exec

theorem execMicrotasks_of_nil (h : m.microtasks = []) : ev.execMicrotasks m = .ok () m :=
  bind_of_ok (nextMicrotask_of_nil h)

/-- A microtask runs, and then the rest. -/
theorem execMicrotasks_of_cons (h : m.microtasks = task :: rest)
    (hw : m.work < m.limits.maxSteps) :
    ev.execMicrotasks m =
      (ev.runTask task >>= fun _ => ev.run .microtasks) (m.beginMicrotask task rest) :=
  (bind_of_ok (nextMicrotask_of_cons h)).trans <|
    (bind_of_ok (tick_of_lt (m := { m with microtasks := rest }) hw)).trans <|
    (bind_of_ok rfl).trans (bind_of_ok rfl)

/-- Beyond the limit no microtask begins. -/
theorem execMicrotasks_of_overrun (h : m.microtasks = task :: rest)
    (hw : m.limits.maxSteps ≤ m.work) :
    ev.execMicrotasks m = .error (.stepLimit m.limits.maxSteps)
      { m with microtasks := rest, work := m.work + 1 } :=
  (bind_of_ok (nextMicrotask_of_cons h)).trans
    (bind_of_error (tick_of_le (m := { m with microtasks := rest }) hw))

/-- Without microtasks there is nothing to drain. -/
theorem drainMicrotasks_of_nil (h : m.microtasks = []) : ev.drainMicrotasks m = .ok () m := by
  have hasno : hasMicrotask m = .ok (!m.microtasks.isEmpty) m := rfl
  rw [h] at hasno
  exact bind_of_ok hasno

/-- Microtasks are drained in their own phase. -/
theorem drainMicrotasks_of_ne_nil (h : m.microtasks ≠ []) :
    ev.drainMicrotasks m = ev.run .microtasks m.draining := by
  have has : hasMicrotask m = .ok (!m.microtasks.isEmpty) m := rfl
  rw [List.isEmpty_eq_false_iff.mpr h] at has
  exact (bind_of_ok has).trans (bind_of_ok enterPhase_eq)

/-- Timers are only moved when no callback is left. -/
theorem refillCallbacks_eq : refillCallbacks m =
    .ok () (if m.callbacks = [] ∧ m.timers ≠ [] then m.refilled else m) := by
  have hawaits : awaitsTimers m = .ok (m.callbacks.isEmpty && !m.timers.isEmpty) m := rfl
  have hif : (m.callbacks.isEmpty && !m.timers.isEmpty) = true ↔
      m.callbacks = [] ∧ m.timers ≠ [] := by
    simp
  refine (bind_of_ok hawaits).trans ?_
  by_cases h : m.callbacks = [] ∧ m.timers ≠ []
  · rw [if_pos (hif.mpr h), if_pos h]
    rfl
  · rw [if_neg (mt hif.mp h), if_neg h]
    rfl

/-- Without callbacks and timers the loop ends. -/
theorem execMacrotasks_of_empty (hc : m.callbacks = []) (ht : m.timers = []) :
    ev.execMacrotasks m = .ok () m := by
  refine (bind_of_ok refillCallbacks_eq).trans ?_
  rw [if_neg fun h => h.2 ht]
  exact bind_of_ok (nextCallback_of_nil hc)

/-- A callback runs with the microtasks that it leaves, and then the rest. -/
theorem execMacrotasks_of_cons (h : m.callbacks = task :: rest)
    (hw : m.work < m.limits.maxSteps) :
    ev.execMacrotasks m =
      (ev.runTask task >>= fun _ => ev.drainMicrotasks >>= fun _ => ev.run .macrotasks)
        (m.beginMacrotask task rest) := by
  refine (bind_of_ok refillCallbacks_eq).trans ?_
  rw [if_neg fun hrefill => List.cons_ne_nil _ _ (h.symm.trans hrefill.1)]
  exact (bind_of_ok (nextCallback_of_cons h)).trans <|
    (bind_of_ok (tick_of_lt (m := { m with callbacks := rest }) hw)).trans <|
    (bind_of_ok enterPhase_eq).trans <| (bind_of_ok rfl).trans (bind_of_ok rfl)

/-- Beyond the limit no callback begins. -/
theorem execMacrotasks_of_overrun (h : m.callbacks = task :: rest)
    (hw : m.limits.maxSteps ≤ m.work) :
    ev.execMacrotasks m = .error (.stepLimit m.limits.maxSteps)
      { m with callbacks := rest, work := m.work + 1 } := by
  refine (bind_of_ok refillCallbacks_eq).trans ?_
  rw [if_neg fun hrefill => List.cons_ne_nil _ _ (h.symm.trans hrefill.1)]
  exact (bind_of_ok (nextCallback_of_cons h)).trans
    (bind_of_error (tick_of_le (m := { m with callbacks := rest }) hw))

/-- Once the timers are moved the loop goes on as if their callbacks had been there. -/
theorem execMacrotasks_of_timers (hc : m.callbacks = []) (ht : m.timers ≠ []) :
    ev.execMacrotasks m = ev.execMacrotasks m.refilled := by
  have hmoved := refillCallbacks_eq (m := m)
  have hkept := refillCallbacks_eq (m := m.refilled)
  rw [if_pos ⟨hc, ht⟩] at hmoved
  rw [if_neg fun h => Machine.refilled_callbacks_ne_nil ht h.1] at hkept
  have hlater : ev.execMacrotasks m.refilled = _ := bind_of_ok hkept
  exact (bind_of_ok hmoved).trans hlater.symm

end Evaluator

end ScriptTrace
