import ScriptTrace.Machine.Heap

/-!
# Machine/Globals — names without declaration

The values of the global names and of the members of host objects, and the methods that values of
each kind answer to.
-/

namespace ScriptTrace

/-- The value of a global name. -/
def globalValue? (name : String) : Option Value :=
  match name with
  | "undefined" => some .undefined
  | "NaN" => some (.number Number.nan)
  | "Infinity" => some (.number Number.infinity)
  | "globalThis" => some .globalThis
  | "console" => some (.host .console)
  | "Math" => some (.host .math)
  | "JSON" => some (.host .json)
  | "Object" => some (.host .object)
  | "Array" => some (.host .array)
  | "Number" => some (.host .number)
  | "String" => some (.host .string)
  | "Boolean" => some (.host .boolean)
  | "Promise" => some (.host .promise)
  | "parseInt" => some (.function .parseInt)
  | "parseFloat" => some (.function .parseFloat)
  | "isNaN" => some (.function .isNaN)
  | "isFinite" => some (.function .isFinite)
  | "setTimeout" => some (.function .setTimeout)
  | "setInterval" => some (.function .setInterval)
  | "clearTimeout" => some (.function .clearTimeout)
  | "clearInterval" => some (.function .clearInterval)
  | "queueMicrotask" => some (.function .queueMicrotask)
  | _ => (ErrorClass.all.find? (·.name = name)).map fun c => .host (.error c)

/-- The constants of `Math`. -/
def mathConstant? (key : String) : Option Float :=
  match key with
  | "PI" => some 3.141592653589793
  | "E" => some 2.718281828459045
  | "LN2" => some 0.6931471805599453
  | "LN10" => some 2.302585092994046
  | "SQRT2" => some 1.4142135623730951
  | _ => none

/-- The constants of `Number`. -/
def numberConstant? (key : String) : Option Float :=
  match key with
  | "MAX_SAFE_INTEGER" => some 9007199254740991
  | "MIN_SAFE_INTEGER" => some (-9007199254740991)
  | "EPSILON" => some 2.220446049250313e-16
  | "MAX_VALUE" => some 1.7976931348623157e308
  | "MIN_VALUE" => some 5e-324
  | "POSITIVE_INFINITY" => some Number.infinity
  | "NEGATIVE_INFINITY" => some (-Number.infinity)
  | "NaN" => some Number.nan
  | _ => none

/-- A function of the host or a missing member. -/
def functionOr (f : Option HostFunction) : Value := f.elim .undefined .function

/-- **The member of a host object.** -/
def HostObject.member (h : HostObject) (key : String) : Value :=
  match h with
  | .console => functionOr ((ConsoleMethod.all.find? (·.name = key)).map .console)
  | .math =>
    match mathConstant? key with
    | some x => .number x
    | none => functionOr ((MathFunction.all.find? (·.name = key)).map .math)
  | .number =>
    match key with
    | "isInteger" => .function .isInteger
    | "isFinite" => .function .numberIsFinite
    | "isNaN" => .function .numberIsNaN
    | "parseInt" => .function .parseInt
    | "parseFloat" => .function .parseFloat
    | _ => (numberConstant? key).elim .undefined .number
  | .json =>
    match key with
    | "stringify" => .function .stringify
    | "parse" => .function .parse
    | _ => named h key
  | .object =>
    match key with
    | "keys" => .function .keys
    | "values" => .function .values
    | "entries" => .function .entries
    | "assign" => .function .assign
    | "freeze" => .function .freeze
    | _ => named h key
  | .array =>
    match key with
    | "isArray" => .function .isArray
    | "from" => .function .arrayFrom
    | "of" => .function .arrayOf
    | _ => named h key
  | .promise =>
    match key with
    | "resolve" => .function .promiseResolve
    | "reject" => .function .promiseReject
    | _ => named h key
  | _ => named h key
where
  /-- The name of a constructor, its only other member. -/
  named (h : HostObject) (key : String) : Value :=
    if key = "name" then .string h.name else .undefined

/-! ## Methods -/

/-- The names of the methods of arrays. -/
def arrayMethods : List String :=
  ["push", "pop", "shift", "unshift", "slice", "splice", "concat", "join", "indexOf",
    "lastIndexOf", "includes", "reverse", "map", "filter", "forEach", "reduce", "find",
    "findIndex", "some", "every", "sort", "flat", "fill", "at", "toString"]

/-- The names of the methods of strings. -/
def stringMethods : List String :=
  ["toUpperCase", "toLowerCase", "trim", "trimStart", "trimEnd", "split", "includes", "indexOf",
    "lastIndexOf", "startsWith", "endsWith", "slice", "substring", "charAt", "charCodeAt", "at",
    "replace", "replaceAll", "repeat", "padStart", "padEnd", "concat", "toString"]

/-- The names of the methods of numbers. -/
def numberMethods : List String := ["toFixed", "toString"]

/-- The names of the methods of plain objects. -/
def plainMethods : List String := ["hasOwnProperty", "toString"]

/-- The names of the methods of functions. -/
def functionMethods : List String := ["call", "apply", "bind"]

/-- The names of the methods of promises. -/
def promiseMethods : List String := ["then", "catch", "finally"]

/-- **Whether `receiver.name(…)` calls a method of the host.**  A property of a plain object hides
the method of its name. -/
def Heap.hasMethod (h : Heap) (receiver : Value) (name : String) : Bool :=
  match receiver with
  | .string _ => stringMethods.contains name
  | .number _ => numberMethods.contains name
  | .object id =>
    match h.body? id with
    | some (.array _) => arrayMethods.contains name
    | some (.plain props) => !props.contains name && plainMethods.contains name
    | some (.promise _) => promiseMethods.contains name
    | _ => h.isCallable receiver && functionMethods.contains name
  | .function _ | .host _ => functionMethods.contains name
  | _ => false

end ScriptTrace
