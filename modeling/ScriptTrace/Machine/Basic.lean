import ScriptTrace.Machine.Convert
import ScriptTrace.Machine.Fault
import ScriptTrace.Machine.Scope
import ScriptTrace.Trace.Step

/-!
# Machine/Basic — the machine and its elementary actions

The machine holds everything that a run can change.  An action (`Exec`) takes a machine to a result
or a fault and, in both cases, to another machine; a fault undoes nothing.
-/

namespace ScriptTrace

/-- What a run may use. -/
structure Limits where
  maxSteps : Nat
  maxCallDepth : Nat
  /-- The longest array in elements and the longest string in bytes. -/
  maxLength : Nat
  deriving DecidableEq, Repr

/-- The limits of a run that is given none. -/
def Limits.default : Limits := ⟨2000, 100, 1 <<< 20⟩

/-- A timer that waits. -/
structure Timer where
  id : Nat
  label : String
  delay : Float
  /-- The place among all timers that were set, which alone says when it fires. -/
  registrationOrder : Nat
  callback : Value
  args : List Value
  line : Nat

/-- The work of a task. -/
inductive Job where
  | callback (function : Value) (args : List Value)
  | reaction (r : Reaction) (outcome : PromiseState)

/-- A piece of work in a queue. -/
structure Task where
  label : String
  line : Nat
  job : Job

/-- The task of a timer that is due. -/
def Timer.task (t : Timer) : Task := ⟨t.label, t.line, .callback t.callback t.args⟩

/-- **Timers in the order in which they fire**: that in which they were set, whatever their
delays. -/
def Timer.inOrder (timers : List Timer) : List Timer :=
  timers.mergeSort fun s t => s.registrationOrder ≤ t.registrationOrder

/-- The state of a run: what the program can see, what waits to run, and what has been shown. -/
structure Machine where
  scopes : Scopes
  heap : Heap
  /-- The calls that have not returned, the latest first. -/
  frames : List Frame
  console : Array ConsoleEntry
  /-- The timers that wait, in the order in which they were set. -/
  timers : List Timer
  callbacks : List Task
  microtasks : List Task
  phase : Phase
  steps : Array Step
  /-- The scope of the statement that is executed. -/
  scope : ScopeId
  /-- The units of work done so far. -/
  work : Nat
  limits : Limits
  nextTimer : Nat
  random : UInt64

namespace Machine

/-- Where the stream of random numbers starts. -/
def randomSeed : UInt64 := 0x2545f4914f6cdd1d

/-- The machine before the first step of a run. -/
def initial (limits : Limits) : Machine where
  scopes := .initial
  heap := .empty
  frames := []
  console := #[]
  timers := []
  callbacks := []
  microtasks := []
  phase := .executing
  steps := #[]
  scope := Scopes.globalId
  work := 0
  limits := limits
  nextTimer := 1
  random := randomSeed

/-- A value as a console shows it inside others. -/
def inspect (m : Machine) (v : Value) : String := m.heap.inspect v

end Machine

/-- The next state of the stream of random numbers: three shifted copies are added to it without
carry. -/
def nextRandom (x : UInt64) : UInt64 :=
  let x := x ^^^ (x >>> 12)
  let x := x ^^^ (x <<< 25)
  x ^^^ (x >>> 27)

/-- The number that a state stands for: the upper 53 bits of a multiple of it, as a fraction. -/
def randomValue (state : UInt64) : Float :=
  Float.ofNat ((state * Machine.randomSeed) >>> 11).toNat / Float.ofNat (1 <<< 53)

/-- An action of the machine. -/
abbrev Exec := EStateM Fault Machine

namespace Exec

variable {α : Type}

/-- Stops because of a misuse. -/
def misuse (what : Misuse) (line : Nat) : Exec α := throw (.misuse what line)

/-- Counts one unit of work. -/
def tick : Exec Unit := do
  modify fun m => { m with work := m.work + 1 }
  let m ← get
  if m.work > m.limits.maxSteps then throw (.stepLimit m.limits.maxSteps)

/-- The scope of the statement that is executed. -/
def currentScope : Exec ScopeId := return (← get).scope

/-- Goes on in another scope. -/
def enter (scope : ScopeId) : Exec Unit := modify fun m => { m with scope }

/-! ## What is read

No other part of the machine has a say in what values a program computes. -/

/-- All objects. -/
def heap : Exec Heap := return (← get).heap

/-- All scopes. -/
def scopes : Exec Scopes := return (← get).scopes

/-- The longest array in elements and the longest string in bytes. -/
def ceiling : Exec Nat := return (← get).limits.maxLength

/-! ## Values -/

/-- The text that shows a value in a step. -/
def inspect (v : Value) : Exec String := return (← heap).inspect v

/-- The text that a value becomes where one is needed. -/
def text (v : Value) : Exec String := return (← heap).text (← ceiling) v

/-- The number that a value becomes where one is needed. -/
def number (v : Value) : Exec Float := return (← heap).number (← ceiling) v

/-- Whether a value can be called. -/
def isCallable (v : Value) : Exec Bool := return (← heap).isCallable v

/-- The contents of an object, if there is such an object. -/
def body? (id : ObjectId) : Exec (Option Body) := return (← heap).body? id

/-! ## Objects -/

/-- Makes an object of a class. -/
def allocate (body : Body) (className : Option String) : Exec ObjectId :=
  modifyGet fun m => (m.heap.size, { m with heap := m.heap.add body className })

/-- Makes an object. -/
def make (body : Body) : Exec Value := return .object (← allocate body none)

/-- Makes an array. -/
def makeArray (items : Array Value) : Exec Value := make (.array items)

/-- Makes an object with these properties. -/
def makePlain (props : Props) : Exec Value := make (.plain props)

/-- Changes the contents of an object. -/
def change (id : ObjectId) (c : Change) : Exec Unit :=
  modify fun m => { m with heap := m.heap.modify id (·.changed c) }

/-- Makes an error object. -/
def makeError (c : ErrorClass) (message : String) : Exec Value := do
  let props := Props.ofList [("name", .string c.name), ("message", .string message)]
  return .object (← allocate (.plain props) (some c.name))

/-! ## Throwing -/

/-- Throws a value. -/
def throwValue (v : Value) (line : Nat) : Exec α := do
  throw (.thrown v ((← heap).display v) line)

/-- Throws a fresh error object. -/
def raise (c : ErrorClass) (message : String) (line : Nat) : Exec α := do
  throwValue (← makeError c message) line

/-- Refuses arrays past the ceiling. -/
def checkArrayLength (n line : Nat) : Exec Unit := do
  if n > (← ceiling) then raise .rangeError "Invalid array length" line

/-- Refuses strings past the ceiling, counted in bytes. -/
def checkStringLength (n line : Nat) : Exec Unit := do
  if n > (← ceiling) then raise .rangeError "Invalid string length" line

/-! ## Calls -/

/-- Notes that a call begins. -/
def pushFrame (name : String) (line : Nat) : Exec Unit := do
  let m ← get
  if m.frames.length ≥ m.limits.maxCallDepth then throw .callDepth
  else set { m with frames := ⟨name, line⟩ :: m.frames }

/-- Notes that the latest call is over. -/
def popFrame : Exec Unit := modify fun m => { m with frames := m.frames.tail }

/-! ## Scopes -/

/-- Makes a scope. -/
def newScope (s : Scope) : Exec ScopeId :=
  modifyGet fun m => (m.scopes.size, { m with scopes := m.scopes.push s })

/-- Makes an empty scope inside another. -/
def innerScope (parent : ScopeId) (kind : ScopeKind) : Exec ScopeId :=
  newScope ⟨some parent, kind, [], none⟩

/-- Makes a scope with the bindings that another one has now. -/
def copyScope (id : ScopeId) : Exec ScopeId := do
  newScope ((← scopes).getD id default)

/-- Writes a binding in one scope. -/
def putIn (id : ScopeId) (name : String) (b : Binding) : Exec Unit :=
  modify fun m =>
    { m with
      heap := m.heap.label b.value name
      scopes := m.scopes.modify id (·.put name b) }

/-- Binds a name in a scope itself. -/
def define (id : ScopeId) (name : String) (value : Value) (kind : BindingKind) : Exec Unit :=
  putIn id name ⟨value, kind⟩

/-- Writes to the next binding of a name; a name without binding becomes a global one. -/
def assign (id : ScopeId) (name : String) (value : Value) (line : Nat) : Exec Unit := do
  let around ← scopes
  match around.binder? id name with
  | none => define Scopes.globalId name value .var
  | some owner =>
    match around.bindingIn? name owner with
    | some b =>
      if b.kind = .const then misuse .assignmentToConstant line
      else putIn owner name ⟨value, b.kind⟩
    | none => return ()

/-! ## Console and queues -/

/-- Prints a line. -/
def write (e : ConsoleEntry) : Exec Unit := modify fun m => { m with console := m.console.push e }

/-- Sets a timer and gives its number. -/
def addTimer (label : String) (delay : Float) (callback : Value) (args : List Value)
    (line : Nat) : Exec Nat :=
  modifyGet fun m =>
    let timer : Timer := ⟨m.nextTimer, label, delay, m.nextTimer, callback, args, line⟩
    (m.nextTimer, { m with nextTimer := m.nextTimer + 1, timers := m.timers ++ [timer] })

/-- Puts a task at the end of the queue of microtasks. -/
def addMicrotask (task : Task) : Exec Unit :=
  modify fun m => { m with microtasks := m.microtasks ++ [task] }

/-! ## Random numbers -/

/-- Advances the stream of random numbers and gives the next one, in `[0, 1)`. -/
def random : Exec Float :=
  modifyGet fun m =>
    let state := nextRandom m.random
    (randomValue state, { m with random := state })

end Exec

end ScriptTrace
