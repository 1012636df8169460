import ScriptTrace.Machine.Heap
import ScriptTrace.Number.Text
import ScriptTrace.Text.Escape

/-!
# Machine/Inspect — values as a console shows them

`inspect` shows the inside of objects: an object inside itself is `[Circular]`, and what has more
than two objects around it is shown by its kind alone, unless it is empty or an error.
-/

namespace ScriptTrace

namespace Inspect

/-- How many objects may stand around one that is still shown in full. -/
def depthLimit : Nat := 2

/-- How many elements of an array are shown. -/
def itemLimit : Nat := 100

/-- How many characters of a text are shown. -/
def characterLimit : Nat := 10000

/-- The ending of a word that stands behind a count. -/
def plural (n : Nat) : String := if n = 1 then "" else "s"

/-- A text in quotes, cut at the limit. -/
def quoted (s : String) : String :=
  let rest := s.length - characterLimit
  if rest = 0 then String.ofList (Text.quote s.toList)
  else
    String.ofList (Text.quote (s.take characterLimit).copy.toList) ++ "... " ++ toString rest ++
      " more character" ++ plural rest

/-- A letter or a sign with which a key may begin that is shown without quotes. -/
def isNameStart (c : Char) : Bool := c.isAlpha || c = '_' || c = '$'

/-- A letter, digit or sign in a key that is shown without quotes. -/
def isNameChar (c : Char) : Bool := c.isAlphanum || c = '_' || c = '$'

/-- A key, in quotes unless it is a name or consists of digits. -/
def key (k : String) : String :=
  let cs := k.toList
  let isPlain := match cs with
    | [] => false
    | c :: rest => if isNameStart c then rest.all isNameChar else cs.all Number.isDigit
  if isPlain then k else String.ofList (Text.quote cs)

/-- A function by its name. -/
def functionLabel (name : String) : String :=
  if name.isEmpty then "[Function (anonymous)]" else "[Function: " ++ name ++ "]"

/-- An object of the host. -/
def hostLabel (h : HostObject) : String :=
  if h.isCallable then "[Function: " ++ h.name ++ "]" else "Object [" ++ h.name ++ "]"

/-- An error by its name and message. -/
def errorText (className : String) (props : Props) : String :=
  let name := match props.get? "name" with
    | some (.string n) => n
    | _ => className
  let message := match props.get? "message" with
    | some (.string m) => if m.isEmpty then "" else ": " ++ m
    | _ => ""
  name ++ message

/-- What is shown of an object too deep inside others. -/
def collapsed? (o : HeapObject) : Option String :=
  match o.body with
  | .array items => if items.isEmpty then none else some "[Array]"
  | .plain props =>
    if props.isEmpty then none
    else match o.className with
    | some c => if isErrorClass c then none else some ("[" ++ c ++ "]")
    | none => some "[Object]"
  | _ => none

/-- The name of the function behind a bound one. -/
def boundName (h : Heap) (target : Value) : String :=
  match target with
  | .object id =>
    match h.body? id with
    | some (.closure c) => c.name
    | _ => ""
  | .function f => f.name
  | _ => ""

/-- Elements in brackets; of a long array only the first ones, with the count of the others. -/
def arrayText (shown : List String) (count : Nat) : String :=
  let rest := count - itemLimit
  let more := if rest = 0 then [] else ["... " ++ toString rest ++ " more item" ++ plural rest]
  "[ " ++ ", ".intercalate (shown ++ more) ++ " ]"

/-- Properties in braces, behind the class if there is one. -/
def plainText (className : Option String) (members : List String) : String :=
  let front := match className with
    | some c => c ++ " "
    | none => ""
  if members.isEmpty then front ++ "\x7b\x7d"
  else front ++ "\x7b " ++ ", ".intercalate members ++ " \x7d"

/-- The text of an object; `inner` shows what it holds. -/
def bodyText (h : Heap) (inner : Value → String) (o : HeapObject) : String :=
  match o.body with
  | .plain props =>
    let members (_ : Unit) := props.entries.map fun (k, v) => key k ++ ": " ++ inner v
    match o.className with
    | some c => if isErrorClass c then errorText c props else plainText (some c) (members ())
    | none => plainText none (members ())
  | .array items =>
    if items.isEmpty then "[]"
    else arrayText ((items.take itemLimit).toList.map inner) items.size
  | .closure c => functionLabel c.name
  | .bound target _ _ => "[Function: bound " ++ boundName h target ++ "]"
  | .method _ name => "[Function: " ++ name ++ "]"
  | .resolver _ rejects => if rejects then "[Function: reject]" else "[Function: resolve]"
  | .promise record =>
    match record.state with
    | .pending => "Promise \x7b <pending> \x7d"
    | .fulfilled v => "Promise \x7b " ++ inner v ++ " \x7d"
    | .rejected v => "Promise \x7b <rejected> " ++ inner v ++ " \x7d"

/-- The text of a value inside the objects `around`, of which at most `fuel` more may be opened. -/
def textWithin (h : Heap) : Nat → List ObjectId → Value → String
  | fuel, around, v =>
    match v with
    | .undefined => "undefined"
    | .null => "null"
    | .bool b => if b then "true" else "false"
    | .number x => Number.text x
    | .string s => quoted s
    | .function f => "[Function: " ++ f.name ++ "]"
    | .host o => hostLabel o
    | .globalThis => "Object [global]"
    | .object id =>
      if around.contains id then "[Circular]"
      else match h.get? id with
      | none => "[Circular]"
      | some o =>
        let short := if around.length > depthLimit then collapsed? o else none
        match short, fuel with
        | some text, _ => text
        | none, 0 => "[Circular]"
        | none, fuel + 1 => bodyText h (textWithin h fuel (id :: around)) o

end Inspect

namespace Heap

/-- **A value as a console shows it inside others**: texts are quoted.  No chain of different
objects is longer than the heap, so the bound is never reached. -/
def inspect (h : Heap) (v : Value) : String := Inspect.textWithin h h.size [] v

/-- **A value as a console prints it**: a text stands for itself. -/
def display (h : Heap) (v : Value) : String :=
  match v with
  | .string s => s
  | _ => h.inspect v

end Heap

end ScriptTrace
