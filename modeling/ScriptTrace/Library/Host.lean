import ScriptTrace.Evaluation.Promise
import ScriptTrace.Library.Json
import ScriptTrace.Library.Number
import ScriptTrace.Library.Object
import ScriptTrace.Library.String

/-!
# Library/Host — functions, constructors and methods of the host

What a call does whose target is no function of the program.  Time does not pass: a timer keeps its
delay only to show it, an interval fires once, and nothing is cancelled.
-/

namespace ScriptTrace

/-- The delay that a number means. -/
def delayOf (x : Float) : Float := if Number.isFinite x && x > 0 then x else 0

/-- Whether a value is a number with a property. -/
def isNumberWith (holds : Float → Bool) (v : Value) : Bool :=
  match v with
  | .number x => holds x
  | _ => false

namespace Exec

/-- **Prints values**: texts as they are, all others as they are inspected, with blanks between. -/
def print (method : ConsoleMethod) (args : List Value) (line : Nat) : Exec Value := do
  let h ← heap
  let text := " ".intercalate (args.map h.display)
  write ⟨method.name, text⟩
  recordHere line .console ("console." ++ method.name ++ ": " ++ text)
  return .undefined

/-- Sets a timer by the function of this name. -/
def setTimer (name : String) (args : List Value) (line : Nat) : Exec Value := do
  let callback := argument args 0
  if !(← isCallable callback) then misuse (.timerCallback name (← inspect callback)) line
  let delay := delayOf (← number (argument args 1))
  let label := name ++ "(" ++ (← heap).functionName callback ++ ")"
  let id ← addTimer label delay callback (args.drop 2) line
  recordHere line .timer
    (label ++ " registered with the Web APIs (" ++ Number.positionalText delay ++ "ms)")
  return .count id

/-- Notes that the program wanted to cancel a timer. -/
def clearTimer (name : String) (args : List Value) (line : Nat) : Exec Value := do
  let target ← match args with
    | [] => pure ""
    | v :: _ => inspect v
  recordHere line .timer
    (name ++ "(" ++ target ++ ") ignored: cancellation is not simulated")
  return .undefined

/-- Queues a function as a microtask. -/
def queueMicrotask (args : List Value) (line : Nat) : Exec Value := do
  let f := argument args 0
  if !(← isCallable f) then misuse (.microtaskCallback (← inspect f)) line
  let label := "queueMicrotask(" ++ (← heap).functionName f ++ ")"
  addMicrotask ⟨label, line, .callback f []⟩
  recordHere line .microtask (label ++ " added to the microtask queue")
  return .undefined

/-- The primitive value that a constructor converts its argument to. -/
def convert (h : HostObject) (args : List Value) (line : Nat) : Exec Value := do
  match h, args with
  | .number, [] => return .number 0
  | .number, v :: _ => return .number (← number v)
  | .string, [] => return .string ""
  | .string, v :: _ =>
    let s ← text v
    checkStringLength s.utf8ByteSize line
    return .string s
  | _, args => return .bool (argument args 0).isTruthy

end Exec

namespace Evaluator

variable (ev : Evaluator)

open Exec

/-- **A call of a function of the host.** -/
def callHost (f : HostFunction) (args : List Value) (line : Nat) : Exec Value := do
  let first := argument args 0
  match f with
  | .console method => print method args line
  | .math f => callMath f args
  | .stringify => stringify args line
  | .parse => parseDocument args line
  | .keys => objectKeys args line
  | .values => objectValues args line
  | .entries => objectEntries args line
  | .assign => objectAssign args line
  | .freeze => objectFreeze args
  | .isArray => return .bool ((← heap).items? first).isSome
  | .arrayFrom => ev.arrayFrom args line
  | .arrayOf => makeArray args.toArray
  | .isInteger => return .bool (isNumberWith Number.isWhole first)
  | .numberIsFinite => return .bool (isNumberWith Number.isFinite first)
  | .numberIsNaN => return .bool (isNumberWith Number.isNaN first)
  | .parseInt => parseInt args
  | .parseFloat => parseFloat args
  | .isNaN => return .bool (Number.isNaN (← number first))
  | .isFinite => return .bool (Number.isFinite (← number first))
  | .setTimeout | .setInterval => setTimer f.name args line
  | .clearTimeout | .clearInterval => clearTimer f.name args line
  | .queueMicrotask => queueMicrotask args line
  | .promiseResolve => promiseResolve first line
  | .promiseReject => promiseReject first line

/-! ## Constructors -/

/-- **An object made by a constructor of the host.** -/
def construct (h : HostObject) (args : List Value) (line : Nat) : Exec Value := do
  let first := argument args 0
  match h with
  | .promise => ev.newPromise first line
  | .error c =>
    let message ← if first.isUndefined then pure "" else text first
    makeError c message
  | .array => newArray args line
  | .object =>
    match first with
    | .object id => return .object id
    | _ => makePlain .empty
  | .number | .string | .boolean => convert h args line
  | .console | .math | .json => misuse (.notConstructor h.name) line

/-- **A constructor of the host called as a function.** -/
def callConstructor (h : HostObject) (args : List Value) (line : Nat) : Exec Value :=
  match h with
  | .promise => misuse .promiseWithoutNew line
  | .console | .math | .json => misuse (.notFunction h.name) line
  | _ => ev.construct h args line

/-! ## Methods -/

/-- The methods of functions: `call`, `apply` and `bind`. -/
def functionMethod (target : Value) (method : String) (args : List Value) (line : Nat) :
    Exec Value := do
  let this := argument args 0
  let args := args.drop 1
  match method with
  | "call" => ev.apply target this args line
  | "apply" =>
    let items := ((← heap).items? (argument args 0)).getD #[]
    ev.apply target this items.toList line
  | "bind" => make (.bound target this args)
  | _ => misuse (.notFunction method) line

/-- **A call of a method of the host.** -/
def callMethod (receiver : Value) (method : String) (args : List Value) (line : Nat) :
    Exec Value := do
  match receiver with
  | .string s => ev.stringMethod s method args line
  | .number x => numberMethod x method args line
  | .object id =>
    match ← body? id with
    | some (.array _) => ev.arrayMethod id method args line
    | some (.plain props) => plainMethod id props method args
    | some (.promise _) => register id method args line
    | _ => ev.functionMethod receiver method args line
  | .function _ | .host _ => ev.functionMethod receiver method args line
  | _ => misuse (.notFunction method) line

end Evaluator

end ScriptTrace
