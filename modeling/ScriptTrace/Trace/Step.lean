/-!
# Trace/Step — what a run shows of itself

A step is a picture of the whole machine at one moment.  It holds texts and counts only, so nothing
that happens later can change it.
-/

namespace ScriptTrace

/-- What a step shows. -/
inductive StepKind where
  | declaration | assignment | expression | functionCall | functionReturn | console | condition
  | loop | return | break | continue | throw | tryCatch | timer | promise | microtask | macrotask
  | eventLoop | error | warning
  deriving DecidableEq, Repr

/-- The word for a kind of step in the trace. -/
def StepKind.word : StepKind → String
  | .declaration => "declaration"
  | .assignment => "assignment"
  | .expression => "expression"
  | .functionCall => "function-call"
  | .functionReturn => "function-return"
  | .console => "console"
  | .condition => "condition"
  | .loop => "loop"
  | .return => "return"
  | .break => "break"
  | .continue => "continue"
  | .throw => "throw"
  | .tryCatch => "trycatch"
  | .timer => "timer"
  | .promise => "promise"
  | .microtask => "microtask"
  | .macrotask => "macrotask"
  | .eventLoop => "event-loop"
  | .error => "error"
  | .warning => "warning"

/-- What the event loop is doing. -/
inductive Phase where
  | executing | microtasks | macrotasks | idle
  deriving DecidableEq, Repr

/-- The word for a phase in the trace. -/
def Phase.word : Phase → String
  | .executing => "executing"
  | .microtasks => "microtasks"
  | .macrotasks => "macrotasks"
  | .idle => "idle"

/-- A call that has not returned. -/
structure Frame where
  functionName : String
  line : Nat
  deriving DecidableEq, Repr

/-- A line that was printed. -/
structure ConsoleEntry where
  method : String
  text : String
  deriving DecidableEq, Repr

/-- What a step tells of a variable. -/
structure VariableView where
  name : String
  value : String
  kind : String
  heapRef : Option Nat
  deriving DecidableEq, Repr

/-- What a step tells of a scope. -/
structure ScopeView where
  name : String
  kind : String
  bindings : List VariableView
  deriving DecidableEq, Repr

/-- What a step tells of a timer that waits. -/
structure TimerView where
  id : Nat
  label : String
  delay : Float
  registrationOrder : Nat

/-- What a step tells of an object. -/
structure HeapView where
  id : Nat
  label : String
  kind : String
  value : String
  deriving DecidableEq, Repr

/-- The machine at one moment. -/
structure Step where
  line : Nat
  kind : StepKind
  description : String
  callStack : List Frame
  scopes : List ScopeView
  console : List ConsoleEntry
  timers : List TimerView
  callbacks : List String
  microtasks : List String
  heap : List HeapView
  phase : Phase

end ScriptTrace
