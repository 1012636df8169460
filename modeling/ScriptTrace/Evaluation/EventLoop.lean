import ScriptTrace.Evaluation.Statement

/-!
# Evaluation/EventLoop — what runs after the program

Microtasks run first to last until none is left.  Then all timers are due at once, in the order in
which they were set; their callbacks run one by one, each followed by the microtasks it left.
-/

namespace ScriptTrace

namespace Exec

/-- Goes over to another phase. -/
def setPhase (phase : Phase) : Exec Unit := modify fun m => { m with phase }

/-- Enters a phase and shows it from the global scope. -/
def enterPhase (phase : Phase) (description : String) : Exec Unit := do
  setPhase phase
  record Scopes.globalId 0 .eventLoop description

/-- The next microtask, taken from the queue. -/
def nextMicrotask? : Exec (Option Task) :=
  modifyGet fun m =>
    match m.microtasks with
    | [] => (none, m)
    | task :: rest => (some task, { m with microtasks := rest })

/-- The next callback, taken from the queue. -/
def nextCallback? : Exec (Option Task) :=
  modifyGet fun m =>
    match m.callbacks with
    | [] => (none, m)
    | task :: rest => (some task, { m with callbacks := rest })

/-- Makes the callbacks of all timers due, in their order, and counts them. -/
def moveTimers : Exec Nat :=
  modifyGet fun m =>
    (m.timers.length,
      { m with timers := [], callbacks := m.callbacks ++ (Timer.inOrder m.timers).map Timer.task })

/-- Whether no callback is left but timers are. -/
def awaitsTimers : Exec Bool := do
  let m ← get
  return m.callbacks.isEmpty && !m.timers.isEmpty

/-- Whether a microtask is left. -/
def hasMicrotask : Exec Bool := return !(← get).microtasks.isEmpty

/-- Moves the timers if no callback is left but timers are. -/
def refillCallbacks : Exec Unit := do
  if ← awaitsTimers then
    let count ← moveTimers
    record Scopes.globalId 0 .timer
      (toString count ++ " timer(s) elapsed: callbacks moved to the callback queue")

end Exec

namespace Evaluator

variable (ev : Evaluator)

open Exec

/-- Does the work of a task. -/
def runTask (task : Task) : Exec Unit :=
  match task.job with
  | .callback f args => discard (ev.apply f .undefined args task.line)
  | .reaction r outcome => ev.react r outcome

/-- Runs one microtask, and those after it. -/
def execMicrotasks : Exec Unit := do
  match ← nextMicrotask? with
  | none => return ()
  | some task =>
    tick
    enter Scopes.globalId
    recordHere task.line .microtask ("Run microtask " ++ task.label)
    ev.runTask task
    ev.run .microtasks

/-- **Drains the queue of microtasks**, if it is not empty. -/
def drainMicrotasks : Exec Unit := do
  if ← hasMicrotask then
    enterPhase .microtasks "Call stack empty: draining the microtask queue"
    ev.run .microtasks

/-- Runs one macrotask with the microtasks it leaves, and those after it. -/
def execMacrotasks : Exec Unit := do
  refillCallbacks
  match ← nextCallback? with
  | none => return ()
  | some task =>
    tick
    enterPhase .macrotasks ("Event loop picks macrotask " ++ task.label)
    enter Scopes.globalId
    recordHere task.line .macrotask ("Run " ++ task.label)
    ev.runTask task
    ev.drainMicrotasks
    ev.run .macrotasks

/-- **Runs everything that the program left in the queues.** -/
def runEventLoop : Exec Unit := do
  enter Scopes.globalId
  ev.drainMicrotasks
  ev.run .macrotasks
  enterPhase .idle "Call stack and queues are empty: event loop idle"

end Evaluator

end ScriptTrace
