import ScriptTrace.Json.Reader
import ScriptTrace.Machine.Basic

/-!
# Library/Json — values as documents

`documentOf` gives the document of a value.  Functions and `undefined` have none: they are left out
of objects and are `null` in arrays.  An object inside itself is refused, and so is a value whose
document would be longer than the ceiling by a careful estimate.
-/

namespace ScriptTrace

/-- Why a value has no document. -/
inductive Unwritable where
  | tooLong | circular
  deriving DecidableEq, Repr

/-- The greatest number below which every whole number is told from its neighbours. -/
def maxSafeInteger : Float := 9007199254740991

/-- The document of a number. -/
def documentOfNumber (x : Float) : Json :=
  if Number.isWhole x && x.abs ≤ maxSafeInteger then .integer (Number.toInt x)
  else if Number.isFinite x then .real x
  else .null

/-- What a value adds to the estimated length. -/
def estimatedLength (v : Value) : Nat :=
  match v with
  | .string s => s.utf8ByteSize + 2
  | _ => 1

/-- A document and the estimated length of all that was written so far. -/
abbrev Draft := Except Unwritable (Option Json × Nat)

/-- The documents of the elements of an array. -/
def documentsOfItems (item : Value → Nat → Draft) :
    List Value → Nat → Except Unwritable (List Json × Nat)
  | [], size => return ([], size)
  | v :: vs, size => do
    let (j, size) ← item v size
    let (js, size) ← documentsOfItems item vs size
    return (j.getD .null :: js, size)

/-- The members of the document of an object. -/
def documentsOfProps (item : Value → Nat → Draft) :
    List (String × Value) → Nat → Except Unwritable (List (String × Json) × Nat)
  | [], size => return ([], size)
  | (k, v) :: es, size => do
    match ← item v size with
    | (none, size) => documentsOfProps item es size
    | (some j, size) =>
      let (ms, size) ← documentsOfProps item es (size + k.utf8ByteSize + 3)
      return ((k, j) :: ms, size)

/-- The document of a value inside the objects `around`, of which at most `fuel` more may be
entered. -/
def documentWithin (h : Heap) (limit : Nat) : Nat → List ObjectId → Value → Nat → Draft
  | fuel, around, v, size => do
    let size := size + estimatedLength v
    if size > limit then throw .tooLong
    match v with
    | .undefined | .function _ => return (none, size)
    | .null => return (some .null, size)
    | .bool b => return (some (.bool b), size)
    | .number x => return (some (documentOfNumber x), size)
    | .string s => return (some (.string s), size)
    | .host o => return (if o.isCallable then none else some (.object []), size)
    | .globalThis => return (some (.object []), size)
    | .object id =>
      if around.contains id then throw .circular
      match h.body? id, fuel with
      | some (.array items), fuel + 1 =>
        let (js, size) ← documentsOfItems (documentWithin h limit fuel (id :: around))
          items.toList size
        return (some (.array js), size)
      | some (.plain props), fuel + 1 =>
        let (ms, size) ←
          documentsOfProps (documentWithin h limit fuel (id :: around)) props.entries size
        return (some (.object ms), size)
      | some (.array _), 0 | some (.plain _), 0 => throw .circular
      | some (.promise _), _ => return (some (.object []), size)
      | _, _ => return (none, size)

/-- **The document of a value**, if it has one.  No chain of different objects is longer than the
heap, so the bound is never reached. -/
def documentOf (h : Heap) (limit : Nat) (v : Value) : Except Unwritable (Option Json) :=
  (documentWithin h limit h.size [] v 0).map Prod.fst

/-- The longest indentation of a line, for one level. -/
def maxIndent : Nat := 10

/-- The indentation that an argument asks for: a number of blanks, or a text. -/
def indentOf (v : Value) : String :=
  match v with
  | .number x => if x ≥ 1 then String.ofList (List.replicate (Number.toCount maxIndent x) ' ')
    else ""
  | .string s => String.ofList (s.toList.take maxIndent)
  | _ => ""

namespace Exec

/-- `JSON.stringify`. -/
def stringify (args : List Value) (line : Nat) : Exec Value := do
  match documentOf (← heap) (← ceiling) (argument args 0) with
  | .error .tooLong => raise .rangeError "Invalid string length" line
  | .error .circular => raise .typeError "Converting circular structure to JSON" line
  | .ok none => return .undefined
  | .ok (some j) =>
    let indent := indentOf (argument args 2)
    let text := if indent.isEmpty then j.compact else j.indented indent
    checkStringLength text.utf8ByteSize line
    return .string text

/-! ## Reading -/

mutual

/-- Makes the value of a document, what is inside it first. -/
def makeDocument : Json → Exec Value
  | .null => return .null
  | .bool b => return .bool b
  | .integer n => return .number (Float.ofInt n)
  | .real x => return .number x
  | .string s => return .string s
  | .array items => do makeArray (← makeItems items).toArray
  | .object members => do makePlain (.ofList (← makeMembers members))

/-- Makes the values of a list of documents, the first one first. -/
def makeItems : List Json → Exec (List Value)
  | [] => return []
  | j :: js => do
    let v ← makeDocument j
    return v :: (← makeItems js)

/-- Makes the values of the members of an object, in their order. -/
def makeMembers : List (String × Json) → Exec (List (String × Value))
  | [] => return []
  | m :: ms => do
    let e ← makeMember m
    return e :: (← makeMembers ms)

/-- Makes the value of a member. -/
def makeMember : String × Json → Exec (String × Value)
  | (k, j) => return (k, ← makeDocument j)

end

/-- `JSON.parse`. -/
def parseDocument (args : List Value) (line : Nat) : Exec Value := do
  match Json.read (← text (argument args 0)) with
  | .ok j => makeDocument j
  | .error e => raise .syntaxError ("Unexpected token in JSON (" ++ e.text ++ ")") line

end Exec

end ScriptTrace
