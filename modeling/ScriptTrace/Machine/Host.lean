/-!
# Machine/Host — what a program finds ready-made

The functions and objects that a program can name without declaring them.  They are tags: what each
of them does is said where it is called.
-/

namespace ScriptTrace

/-- The methods that print. -/
inductive ConsoleMethod where
  | log | info | warn | error | debug
  deriving DecidableEq, Repr

/-- The name of a method of the console. -/
def ConsoleMethod.name : ConsoleMethod → String
  | .log => "log"
  | .info => "info"
  | .warn => "warn"
  | .error => "error"
  | .debug => "debug"

/-- All methods of the console. -/
def ConsoleMethod.all : List ConsoleMethod := [.log, .info, .warn, .error, .debug]

/-- The functions of `Math`. -/
inductive MathFunction where
  | abs | floor | ceil | round | trunc | sign | sqrt | cbrt | pow | min | max | log | exp | random
  deriving DecidableEq, Repr

/-- The name of a mathematical function. -/
def MathFunction.name : MathFunction → String
  | .abs => "abs"
  | .floor => "floor"
  | .ceil => "ceil"
  | .round => "round"
  | .trunc => "trunc"
  | .sign => "sign"
  | .sqrt => "sqrt"
  | .cbrt => "cbrt"
  | .pow => "pow"
  | .min => "min"
  | .max => "max"
  | .log => "log"
  | .exp => "exp"
  | .random => "random"

/-- All mathematical functions. -/
def MathFunction.all : List MathFunction :=
  [.abs, .floor, .ceil, .round, .trunc, .sign, .sqrt, .cbrt, .pow, .min, .max, .log, .exp, .random]

/-- A function of the host. -/
inductive HostFunction where
  | console (method : ConsoleMethod)
  | math (function : MathFunction)
  | stringify | parse
  | keys | values | entries | assign | freeze
  | isArray | arrayFrom | arrayOf
  | isInteger | numberIsFinite | numberIsNaN
  | parseInt | parseFloat | isNaN | isFinite
  | setTimeout | setInterval | clearTimeout | clearInterval | queueMicrotask
  | promiseResolve | promiseReject
  deriving DecidableEq, Repr

/-- The name under which a program finds a host function. -/
def HostFunction.name : HostFunction → String
  | .console m => m.name
  | .math f => f.name
  | .stringify => "stringify"
  | .parse => "parse"
  | .keys => "keys"
  | .values => "values"
  | .entries => "entries"
  | .assign => "assign"
  | .freeze => "freeze"
  | .isArray => "isArray"
  | .arrayFrom => "from"
  | .arrayOf => "of"
  | .isInteger => "isInteger"
  | .numberIsFinite | .isFinite => "isFinite"
  | .numberIsNaN | .isNaN => "isNaN"
  | .parseInt => "parseInt"
  | .parseFloat => "parseFloat"
  | .setTimeout => "setTimeout"
  | .setInterval => "setInterval"
  | .clearTimeout => "clearTimeout"
  | .clearInterval => "clearInterval"
  | .queueMicrotask => "queueMicrotask"
  | .promiseResolve => "resolve"
  | .promiseReject => "reject"

/-- The classes of errors that a program can make. -/
inductive ErrorClass where
  | error | typeError | rangeError | syntaxError
  deriving DecidableEq, Repr

/-- The name of a class of errors, as it begins a report. -/
def ErrorClass.name : ErrorClass → String
  | .error => "Error"
  | .typeError => "TypeError"
  | .rangeError => "RangeError"
  | .syntaxError => "SyntaxError"

/-- All classes of errors. -/
def ErrorClass.all : List ErrorClass := [.error, .typeError, .rangeError, .syntaxError]

/-- Whether a class is one of errors. -/
def isErrorClass (name : String) : Bool := ErrorClass.all.any (·.name = name)

/-- A namespace or a constructor of the host. -/
inductive HostObject where
  | console | math | json | object | array | number | string | boolean | promise
  | error (c : ErrorClass)
  deriving DecidableEq, Repr

/-- The global name of a host object. -/
def HostObject.name : HostObject → String
  | .console => "console"
  | .math => "Math"
  | .json => "JSON"
  | .object => "Object"
  | .array => "Array"
  | .number => "Number"
  | .string => "String"
  | .boolean => "Boolean"
  | .promise => "Promise"
  | .error c => c.name

/-- Namespaces are plain objects; all else is a constructor. -/
def HostObject.isCallable : HostObject → Bool
  | .console | .math | .json => false
  | _ => true

end ScriptTrace
