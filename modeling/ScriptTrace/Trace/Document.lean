import ScriptTrace.Json.Basic
import ScriptTrace.Trace.Result

/-!
# Trace/Document — traces as JSON documents
-/

namespace ScriptTrace

/-- A document, or `null` in its absence. -/
def Json.optional {α : Type} (f : α → Json) : Option α → Json
  | none => .null
  | some a => f a

/-- A list of documents. -/
def Json.list {α : Type} (f : α → Json) (items : List α) : Json := .array (items.map f)

/-- A call that has not returned, as a document. -/
def Frame.document (f : Frame) : Json :=
  .object [("functionName", .string f.functionName), ("line", .count f.line)]

/-- A line of the console as a document. -/
def ConsoleEntry.document (e : ConsoleEntry) : Json :=
  .object [("method", .string e.method), ("text", .string e.text)]

/-- A variable; one that is no object of the heap has no reference. -/
def VariableView.document (v : VariableView) : Json :=
  let reference := match v.heapRef with
    | none => []
    | some id => [("heapRef", Json.count id)]
  .object
    ([("name", .string v.name), ("value", .string v.value), ("kind", .string v.kind)] ++ reference)

/-- A scope with its variables as a document. -/
def ScopeView.document (s : ScopeView) : Json :=
  .object
    [("name", .string s.name), ("kind", .string s.kind),
      ("variables", .list VariableView.document s.bindings)]

/-- A timer that waits, as a document. -/
def TimerView.document (t : TimerView) : Json :=
  .object
    [("id", .count t.id), ("kind", .string "timer"), ("label", .string t.label),
      ("delayMs", .real t.delay), ("registrationOrder", .count t.registrationOrder)]

/-- A task in a queue, by its label. -/
def taskDocument (label : String) : Json := .object [("label", .string label)]

/-- An object as a document. -/
def HeapView.document (o : HeapView) : Json :=
  .object
    [("id", .count o.id), ("label", .string o.label), ("kind", .string o.kind),
      ("value", .string o.value)]

namespace Step

/-- The members of the document of a step that say what happened. -/
def eventMembers (s : Step) : List (String × Json) :=
  [("line", .count s.line), ("type", .string s.kind.word), ("description", .string s.description)]

/-- The members that show the machine. -/
def stateMembers (s : Step) : List (String × Json) :=
  [("callStack", .list Frame.document s.callStack), ("scopes", .list ScopeView.document s.scopes),
    ("consoleOutput", .list ConsoleEntry.document s.console),
    ("webApis", .list TimerView.document s.timers),
    ("callbackQueue", .list taskDocument s.callbacks),
    ("microtaskQueue", .list taskDocument s.microtasks),
    ("heapSnapshot", .list HeapView.document s.heap),
    ("eventLoopPhase", .string s.phase.word)]

/-- A step as a document. -/
def document (s : Step) : Json := .object (s.eventMembers ++ s.stateMembers)

end Step

/-- **The document of a trace.** -/
def Result.document (r : Result) : Json :=
  .object
    [("steps", .list Step.document r.steps.toList), ("error", .optional .string r.error)]

end ScriptTrace
