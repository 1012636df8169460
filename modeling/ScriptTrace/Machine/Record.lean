import ScriptTrace.Machine.Basic

/-!
# Machine/Record — pictures of the machine

`Machine.view` takes the picture that a step shows, seen from a scope; `Exec.record` adds it to the
trace.
-/

namespace ScriptTrace

namespace Machine

/-- The heap entry of a value, if it has one. -/
def heapRef? (m : Machine) (v : Value) : Option ObjectId :=
  v.objectId?.filter fun id => (m.heap.body? id).any Body.isData

/-- What a step tells of a variable. -/
def variableView (m : Machine) (name : String) (b : Binding) : VariableView where
  name := name
  value := m.inspect b.value
  kind := b.kind.word
  heapRef := m.heapRef? b.value

/-- The view of one scope; a block, catch or loop scope without bindings is left out. -/
def scopeView? (m : Machine) (id : ScopeId) : Option ScopeView :=
  m.scopes[id]?.bind fun s =>
    if s.bindings.isEmpty && s.kind.isHiddenEmpty then none
    else some ⟨s.kind.title, s.kind.label, s.bindings.map fun (name, b) => m.variableView name b⟩

/-- What a step tells of a scope and those around it, the innermost first. -/
def scopeViews (m : Machine) (id : ScopeId) : List ScopeView :=
  (m.scopes.chain id).filterMap m.scopeView?

/-- The plain objects and arrays, each with its own text. -/
def heapViews (m : Machine) : List HeapView :=
  m.heap.objects.toList.zipIdx.filterMap fun (o, id) =>
    if o.body.isData then
      some ⟨id, o.label.getD "", o.body.kindName, m.inspect (.object id)⟩
    else none

/-- What a step tells of a timer that waits. -/
def timerView (t : Timer) : TimerView where
  id := t.id
  label := t.label
  delay := t.delay
  registrationOrder := t.registrationOrder

/-- **The machine as a step shows it**, seen from a scope. -/
def view (m : Machine) (scope : ScopeId) (line : Nat) (kind : StepKind) (description : String) :
    Step where
  line := line
  kind := kind
  description := description
  callStack := m.frames.reverse
  scopes := m.scopeViews scope
  console := m.console.toList
  timers := m.timers.map timerView
  callbacks := m.callbacks.map Task.label
  microtasks := m.microtasks.map Task.label
  heap := m.heapViews
  phase := m.phase

/-- The machine with one step more. -/
def recorded (m : Machine) (scope : ScopeId) (line : Nat) (kind : StepKind)
    (description : String) : Machine :=
  { m with steps := m.steps.push (m.view scope line kind description) }

end Machine

namespace Exec

/-- Records a step seen from a scope. -/
def record (scope : ScopeId) (line : Nat) (kind : StepKind) (description : String) : Exec Unit :=
  modify (·.recorded scope line kind description)

/-- Records a step seen from the scope of the statement that is executed. -/
def recordHere (line : Nat) (kind : StepKind) (description : String) : Exec Unit := do
  record (← currentScope) line kind description

end Exec

end ScriptTrace
