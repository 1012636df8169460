import ScriptTrace.Machine.Value

/-!
# Machine/Fault — why a run stops

A thrown value can be caught by the program.  Every other fault ends the run.
-/

namespace ScriptTrace

/-- Uses of a value that it does not allow; values are given as they are shown. -/
inductive Misuse where
  | assignmentToConstant
  | notIterable (shown : String)
  | instanceOfTarget
  | inTarget (key shown : String)
  | assignmentTarget (text : String)
  | compoundTarget
  | unaryOperator
  | destructuring (shown : String)
  | readProperty (shown key : String)
  | writeProperty (shown key : String)
  | notFunction (text : String)
  | notConstructor (text : String)
  | promiseExecutor (shown : String)
  | timerCallback (name shown : String)
  | microtaskCallback (shown : String)
  | arrayCallback (shown method : String)
  | emptyReduce
  | comparator
  | frozenArray (method : String)
  | promiseWithoutNew
  | notObject (shown : String)
  deriving DecidableEq, Repr

/-- What a program is told about a misuse. -/
def Misuse.message : Misuse → String
  | .assignmentToConstant => "Assignment to constant variable."
  | .notIterable shown => shown ++ " is not iterable"
  | .instanceOfTarget => "Right-hand side of 'instanceof' is not callable"
  | .inTarget key shown =>
    "Cannot use 'in' operator to search for '" ++ key ++ "' in " ++ shown
  | .assignmentTarget text => "Invalid assignment target: " ++ text
  | .compoundTarget => "Invalid left-hand side in compound assignment"
  | .unaryOperator => "invalid unary operator"
  | .destructuring shown =>
    "Cannot destructure '" ++ shown ++ "' as it is " ++ shown ++ "."
  | .readProperty shown key =>
    "Cannot read properties of " ++ shown ++ " (reading '" ++ key ++ "')"
  | .writeProperty shown key =>
    "Cannot set properties of " ++ shown ++ " (setting '" ++ key ++ "')"
  | .notFunction text => text ++ " is not a function"
  | .notConstructor text => text ++ " is not a constructor"
  | .promiseExecutor shown => "Promise resolver " ++ shown ++ " is not a function"
  | .timerCallback name shown => name ++ ": callback " ++ shown ++ " is not a function"
  | .microtaskCallback shown => "queueMicrotask: " ++ shown ++ " is not a function"
  | .arrayCallback shown method => shown ++ " is not a function (in Array." ++ method ++ ")"
  | .emptyReduce => "Reduce of empty array with no initial value"
  | .comparator => "The comparison function must be either a function or undefined"
  | .frozenArray method => "Cannot call " ++ method ++ "() on a frozen array"
  | .promiseWithoutNew => "Promise constructor cannot be invoked without 'new'"
  | .notObject shown => "Cannot convert " ++ shown ++ " to object"

/-- Why evaluation does not go on. -/
inductive Fault where
  | unknownName (name : String) (line : Nat)
  | misuse (what : Misuse) (line : Nat)
  /-- A value thrown by the program, with its text at that moment. -/
  | thrown (value : Value) (text : String) (line : Nat)
  | stepLimit (limit : Nat)
  | callDepth
  /-- Evaluation went deeper than it was given room for.  This is no fault of the program, and says
  nothing about it. -/
  | exhausted
  deriving Inhabited

namespace Fault

/-- How a run that ends in the fault reports it. -/
def message : Fault → String
  | .unknownName name _ => "ReferenceError: " ++ name ++ " is not defined"
  | .misuse what _ => "TypeError: " ++ what.message
  | .thrown _ text _ => "Uncaught " ++ text
  | .stepLimit limit =>
    "Execution exceeded " ++ toString limit ++ " steps (possible infinite loop)"
  | .callDepth => "RangeError: Maximum call stack size exceeded"
  | .exhausted => "RangeError: Evaluation nested too deep"

/-- The line of a fault; `0` if it has none. -/
def line : Fault → Nat
  | .unknownName _ line | .misuse _ line | .thrown _ _ line => line
  | _ => 0

/-- Whether the program can catch the fault. -/
def isThrown : Fault → Bool
  | .thrown .. => true
  | _ => false

end Fault

/-- A thrown value on its way to a handler. -/
structure Thrown where
  value : Value
  /-- The text of the value when it was thrown. -/
  text : String
  line : Nat

/-- The fault of a thrown value that nothing has caught. -/
def Thrown.fault (t : Thrown) : Fault := .thrown t.value t.text t.line

end ScriptTrace
