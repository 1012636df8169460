import ScriptTrace.Machine.Host
import ScriptTrace.Number.Index

/-!
# Machine/Value — values

Primitive values are held directly; arrays, objects, functions and promises live in the heap and a
value names them by their id.
-/

namespace ScriptTrace

/-- The place of an object in the heap. -/
abbrev ObjectId := Nat

/-- The place of a scope among all scopes. -/
abbrev ScopeId := Nat

/-- A value of the language; objects and functions of programs lie on the heap. -/
inductive Value where
  | undefined
  | null
  | bool (b : Bool)
  | number (x : Float)
  | string (s : String)
  | object (id : ObjectId)
  | function (f : HostFunction)
  | host (h : HostObject)
  /-- The global bindings seen as an object. -/
  | globalThis
  deriving Inhabited

namespace Value

/-- A count as a number. -/
def count (n : Nat) : Value := .number (Float.ofNat n)

/-- A text from its characters. -/
def chars (cs : List Char) : Value := .string (String.ofList cs)

/-- Whether a condition holds. -/
def isTruthy : Value → Bool
  | .undefined | .null => false
  | .bool b => b
  | .number x => !(x == 0 || Number.isNaN x)
  | .string s => !s.isEmpty
  | _ => true

/-- Whether a value is `undefined`. -/
def isUndefined : Value → Bool
  | .undefined => true
  | _ => false

/-- Whether a value is `undefined` or `null`. -/
def isNullish : Value → Bool
  | .undefined | .null => true
  | _ => false

/-- The object that a value names. -/
def objectId? : Value → Option ObjectId
  | .object id => some id
  | _ => none

/-- **Equality without conversion**: numbers by value, so NaN differs from itself and the zeros are
equal; objects by identity. -/
def strictEquals : Value → Value → Bool
  | .undefined, .undefined => true
  | .null, .null => true
  | .bool a, .bool b => a = b
  | .number x, .number y => x == y
  | .string s, .string t => s = t
  | .object i, .object j => i = j
  | .function f, .function g => f = g
  | .host a, .host b => a = b
  | .globalThis, .globalThis => true
  | _, _ => false

/-- Equality in which NaN equals itself. -/
def sameValue : Value → Value → Bool
  | .number x, .number y => (Number.isNaN x && Number.isNaN y) || x == y
  | a, b => strictEquals a b

end Value

/-- The argument at a place; a missing one is `undefined`. -/
def argument (args : List Value) (n : Nat) : Value := args.getD n .undefined

end ScriptTrace
