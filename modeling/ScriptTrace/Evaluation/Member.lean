import ScriptTrace.Machine.Globals
import ScriptTrace.Evaluation.Work

/-!
# Evaluation/Member — properties

Reading, writing and removing `receiver[key]`, and names that stand for themselves.
-/

namespace ScriptTrace

namespace Exec

/-- The value of a name in a scope, or of a global name. -/
def valueOf? (scope : ScopeId) (name : String) : Exec (Option Value) := do
  return ((← scopes).lookup? scope name).map Binding.value <|> globalValue? name

/-- The value of a name. -/
def valueOf (scope : ScopeId) (name : String) (line : Nat) : Exec Value := do
  match ← valueOf? scope name with
  | some v => return v
  | none => throw (.unknownName name line)

/-- The values that a loop or a spread runs over. -/
def iterate (v : Value) (line : Nat) : Exec (Array Value) := do
  let h ← heap
  match h.items? v, v with
  | some items, _ => return items
  | none, .string s => return (s.toList.map fun c => .chars [c]).toArray
  | none, _ => misuse (.notIterable (h.inspect v)) line

/-- A method of the host, taken from its receiver. -/
def methodOf (receiver : Value) (name : String) : Exec Value := make (.method receiver name)

/-- The name of a callable value as its property. -/
def nameProperty (v : Value) : Exec Value := return .string ((← heap).functionName v)

/-- The property of a text. -/
def stringMember (s : String) (key : String) : Exec Value := do
  if key = "length" then return .count s.length
  else match Number.indexOf? key with
  | some i => return s.toList[i]?.elim .undefined fun c => .chars [c]
  | none =>
    if stringMethods.contains key then methodOf (.string s) key else return .undefined

/-- The property of an object. -/
def objectMember (id : ObjectId) (key : String) : Exec Value := do
  let receiver := Value.object id
  match ← body? id with
  | some (.plain props) =>
    match props.get? key with
    | some v => return v
    | none => if plainMethods.contains key then methodOf receiver key else return .undefined
  | some (.array items) =>
    if key = "length" then return .count items.size
    else match Number.indexOf? key with
    | some i => return items.getD i .undefined
    | none => if arrayMethods.contains key then methodOf receiver key else return .undefined
  | some (.closure c) =>
    if key = "name" then return .string c.name
    else if key = "length" then return .count c.definition.parameters.length
    else if functionMethods.contains key then methodOf receiver key
    else return .undefined
  | some (.promise _) =>
    if promiseMethods.contains key then methodOf receiver key else return .undefined
  | _ =>
    if key = "name" then nameProperty receiver
    else if functionMethods.contains key then methodOf receiver key
    else return .undefined

/-- **Reads a property.**  A method of the host is a fresh object each time. -/
def getMember (receiver : Value) (key : String) (line : Nat) : Exec Value := do
  match receiver with
  | .undefined | .null => misuse (.readProperty (← inspect receiver) key) line
  | .string s => stringMember s key
  | .number _ =>
    if numberMethods.contains key then methodOf receiver key else return .undefined
  | .bool _ => return .undefined
  | .host h => return h.member key
  | .function f =>
    if key = "name" then return .string f.name
    else if functionMethods.contains key then methodOf receiver key
    else return .undefined
  | .globalThis => return (← valueOf? Scopes.globalId key).getD .undefined
  | .object id => objectMember id key

/-! ## Writing -/

/-- The length that a value gives to an array. -/
def arrayLength (v : Value) (line : Nat) : Exec Nat := do
  let valid := match v with
    | .number x => x ≥ 0 && Number.isWhole x && x ≤ 4294967295
    | _ => false
  match valid, v with
  | true, .number x =>
    let n := (Number.toInt x).toNat
    checkArrayLength n line
    return n
  | _, _ => raise .rangeError "Invalid array length" line

/-- An array cut or filled up with `undefined` to a length. -/
def resize (items : Array Value) (n : Nat) : Array Value :=
  if n ≤ items.size then items.take n
  else items ++ Array.replicate (n - items.size) .undefined

/-- Writes an element or the length of an array; other keys are ignored. -/
def setElement (id : ObjectId) (items : Array Value) (key : String) (v : Value) (line : Nat) :
    Exec Unit := do
  if key = "length" then
    let n ← arrayLength v line
    change id (.items (resize items n))
  else match Number.indexOf? key with
  | some i =>
    let n := min (i + 1) Number.maxCount
    checkArrayLength n line
    let items := if i < items.size then items else resize items n
    change id (.items (items.set! i v))
  | none => return ()

/-- **Writes a property.**  Frozen objects and values that hold no properties ignore it. -/
def setMember (receiver : Value) (key : String) (v : Value) (line : Nat) : Exec Unit := do
  match receiver with
  | .undefined | .null => misuse (.writeProperty (← inspect receiver) key) line
  | .globalThis => assign Scopes.globalId key v line
  | .object id =>
    match (← heap).get? id with
    | some o =>
      if o.frozen then return ()
      else match o.body with
      | .array items => setElement id items key v line
      | .plain props => change id (.props (props.set key v))
      | _ => return ()
    | none => return ()
  | _ => return ()

/-- **Removes a property.**  An element of an array becomes `undefined`. -/
def deleteMember (receiver : Value) (key : String) : Exec Unit := do
  match receiver with
  | .object id =>
    match (← heap).get? id with
    | some o =>
      if o.frozen then return ()
      else match o.body with
      | .plain props => change id (.props (props.erase key))
      | .array items =>
        match Number.indexOf? key with
        | some i => if i < items.size then change id (.items (items.set! i .undefined))
        | none => return ()
      | _ => return ()
    | none => return ()
  | _ => return ()

/-- Whether a value has a property, for the operator `in`. -/
def hasProperty (key : String) (v : Value) (line : Nat) : Exec Bool := do
  match v with
  | .object id =>
    match ← body? id with
    | some (.plain props) => return props.contains key
    | some (.array items) =>
      return key = "length" || (Number.indexOf? key).any (· < items.size)
    | _ => return false
  | .globalThis => return (← valueOf? Scopes.globalId key).isSome
  | .host h => return !(h.member key).isUndefined
  | _ => misuse (.inTarget key (← inspect v)) line

end Exec

end ScriptTrace
