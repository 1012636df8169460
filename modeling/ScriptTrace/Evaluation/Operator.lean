import ScriptTrace.Evaluation.Member

/-!
# Evaluation/Operator — operators on values

What the operators of the language do with operands that are evaluated already.
-/

namespace ScriptTrace

open Syntax (BinaryOperator LogicalOperator UpdateOperator)

/-- Whether a logical operator is decided by its left operand. -/
def isDecidedBy (op : LogicalOperator) (left : Value) : Bool :=
  match op with
  | .and => !left.isTruthy
  | .or => left.isTruthy
  | .nullish => !left.isNullish

/-- Whether `+` joins texts for the sake of this operand. -/
def isJoined (v : Value) : Bool :=
  match v with
  | .string _ | .object _ | .function _ | .host _ | .globalThis => true
  | _ => false

/-- A number counted up or down. -/
def stepped (op : UpdateOperator) (x : Float) : Float :=
  match op with
  | .increment => x + 1
  | .decrement => x - 1

/-- The complement of the bits of a number. -/
def bitNot (x : Float) : Float := Float.ofInt (-(Number.toInt32 x) - 1)

/-- A number raised to another; NaN as exponent gives NaN. -/
def power (x y : Float) : Float := if Number.isNaN y then Number.nan else Float.pow x y

namespace Exec

/-- Whether an object was made by a constructor. -/
def instanceOf (v constructor : Value) (line : Nat) : Exec Bool := do
  let h ← heap
  if !h.isCallable constructor then misuse .instanceOfTarget line
  else match v.objectId?.bind h.get? with
  | none => return false
  | some o =>
    match constructor with
    | .host .object => return true
    | .host .array => return (match o.body with | .array _ => true | _ => false)
    | .host .promise => return (match o.body with | .promise _ => true | _ => false)
    | .host (.error .error) => return o.className.any isErrorClass
    | .host (.error c) => return o.className = some c.name
    | .object id =>
      match h.body? id with
      | some (.closure c) => return !c.name.isEmpty && o.className = some c.name
      | _ => return false
    | _ => return false

/-- The text of two operands one behind the other. -/
def join (l r : Value) (line : Nat) : Exec Value := do
  let x ← text l
  let y ← text r
  checkStringLength (x.utf8ByteSize + y.utf8ByteSize) line
  return .string (x ++ y)

/-- A comparison by order; it fails if the values have none. -/
def ordered (l r : Value) (holds : Ordering → Bool) : Exec Value := do
  return .bool (((← heap).compare (← ceiling) l r).any holds)

/-- An operation on numbers. -/
def numeric (l r : Value) (f : Float → Float → Float) : Exec Value := do
  return .number (f (← number l) (← number r))

/-- Equality with conversion. -/
def looseEquals (l r : Value) : Exec Bool := do
  return (← heap).looseEquals (← ceiling) l r

/-- **A binary operator on two values.** -/
def binary (op : BinaryOperator) (l r : Value) (line : Nat) : Exec Value :=
  match op with
  | .add => if isJoined l || isJoined r then join l r line else numeric l r (· + ·)
  | .subtract => numeric l r (· - ·)
  | .multiply => numeric l r (· * ·)
  | .divide => numeric l r (· / ·)
  | .remainder => numeric l r Number.remainder
  | .power => numeric l r power
  | .strictEqual => return .bool (l.strictEquals r)
  | .strictUnequal => return .bool (!l.strictEquals r)
  | .looseEqual => return .bool (← looseEquals l r)
  | .looseUnequal => return .bool (!(← looseEquals l r))
  | .less => ordered l r Ordering.isLT
  | .greater => ordered l r Ordering.isGT
  | .atMost => ordered l r Ordering.isLE
  | .atLeast => ordered l r Ordering.isGE
  | .instanceOf => return .bool (← instanceOf l r line)
  | .within => do return .bool (← hasProperty (← text l) r line)

end Exec

end ScriptTrace
