import ScriptTrace.Evaluation.Member

/-!
# Library/Object — plain objects

The functions of `Object` and the methods that every plain object answers to.
-/

namespace ScriptTrace

namespace Exec

/-- Refuses values that have no properties. -/
def requireObject (v : Value) (line : Nat) : Exec Unit := do
  if v.isNullish then misuse (.notObject (← inspect v)) line

/-- The own properties of the first argument. -/
def entriesOf (args : List Value) (line : Nat) : Exec (List (String × Value)) := do
  let v := argument args 0
  requireObject v line
  return (← heap).ownEntries v

/-- `Object.keys`. -/
def objectKeys (args : List Value) (line : Nat) : Exec Value := do
  makeArray ((← entriesOf args line).map fun e => Value.string e.1).toArray

/-- `Object.values`. -/
def objectValues (args : List Value) (line : Nat) : Exec Value := do
  makeArray ((← entriesOf args line).map Prod.snd).toArray

/-- An array of a key and its value for each property. -/
def makePairs : List (String × Value) → Exec (List Value)
  | [] => return []
  | (k, v) :: es => do
    let pair ← makeArray #[.string k, v]
    return pair :: (← makePairs es)

/-- `Object.entries`. -/
def objectEntries (args : List Value) (line : Nat) : Exec Value := do
  makeArray (← makePairs (← entriesOf args line)).toArray

/-- Writes properties to a value. -/
def setMembers (target : Value) (line : Nat) : List (String × Value) → Exec Unit
  | [] => return ()
  | (k, v) :: es => do
    setMember target k v line
    setMembers target line es

/-- Writes the own properties of values to another one. -/
def assignAll (target : Value) (line : Nat) : List Value → Exec Unit
  | [] => return ()
  | source :: sources => do
    setMembers target line ((← heap).ownEntries source)
    assignAll target line sources

/-- `Object.assign`. -/
def objectAssign (args : List Value) (line : Nat) : Exec Value := do
  let target := argument args 0
  requireObject target line
  assignAll target line (args.drop 1)
  return target

/-- `Object.freeze`: later writes are ignored. -/
def objectFreeze (args : List Value) : Exec Value := do
  let target := argument args 0
  match target with
  | .object id => change id .freeze
  | _ => pure ()
  return target

/-- **A method of a plain object.** -/
def plainMethod (id : ObjectId) (props : Props) (method : String) (args : List Value) :
    Exec Value := do
  match method with
  | "hasOwnProperty" => return .bool (props.contains (← text (argument args 0)))
  | "toString" => return .string (← text (.object id))
  | _ => return .undefined

end Exec

end ScriptTrace
