import ScriptTrace.Number.Text

/-!
# Json/Basic — JSON documents and how they are written

A document is written on one line, or with one member a line under an indentation.  Whole numbers
are written as integers, all others with a point or an exponent.
-/

namespace ScriptTrace

/-- A JSON document; the members of an object keep their order. -/
inductive Json where
  | null
  | bool (value : Bool)
  | integer (value : Int)
  | real (value : Float)
  | string (value : String)
  | array (items : List Json)
  | object (members : List (String × Json))
  deriving Inhabited

namespace Json

/-- A count as a document. -/
def count (n : Nat) : Json := .integer n

/-- A hexadecimal digit of a value below sixteen. -/
def hexDigit (n : Nat) : Char := if n < 10 then Char.ofNat (48 + n) else Char.ofNat (87 + n)

/-- A character as it stands in a string: quotes, backslashes and controls are escaped. -/
def escapeChar (c : Char) : List Char :=
  match c with
  | '"' => ['\\', '"']
  | '\\' => ['\\', '\\']
  | '\x08' => ['\\', 'b']
  | '\x0c' => ['\\', 'f']
  | '\n' => ['\\', 'n']
  | '\r' => ['\\', 'r']
  | '\t' => ['\\', 't']
  | c =>
    if c.toNat < 32 then
      ['\\', 'u', '0', '0', hexDigit (c.toNat / 16), hexDigit (c.toNat % 16)]
    else [c]

/-- A text as a JSON string. -/
def quoted (s : String) : String :=
  "\"" ++ String.ofList (s.toList.flatMap escapeChar) ++ "\""

/-- A number as JSON; where JSON has none it is `null`. -/
def realText (x : Float) : String := (Number.jsonText? x).getD "null"

/-- Puts the texts of members between brackets: on one line, or each on a line of its own that
starts with `inner`, the closing bracket on one that starts with `outer`. -/
def bracketed (opening closing : String) (lines : Option (String × String))
    (members : List String) : String :=
  if members.isEmpty then opening ++ closing
  else match lines with
  | none => opening ++ ",".intercalate members ++ closing
  | some (inner, outer) =>
    opening ++ "\n" ++ inner ++ (",\n" ++ inner).intercalate members ++ "\n" ++ outer ++ closing

/-- The start of a line `depth` levels deep. -/
def margin (indent : String) (depth : Nat) : String := String.join (List.replicate depth indent)

/-- The lines around members `depth` levels deep, if there is an indentation. -/
def linesAt (indent : Option String) (depth : Nat) : Option (String × String) :=
  indent.map fun i => (margin i (depth + 1), margin i depth)

mutual

/-- The text of a document `depth` levels deep. -/
def textAt (indent : Option String) (depth : Nat) : Json → String
  | .null => "null"
  | .bool b => if b then "true" else "false"
  | .integer n => toString n
  | .real x => realText x
  | .string s => quoted s
  | .array items => bracketed "[" "]" (linesAt indent depth) (itemTexts indent (depth + 1) items)
  | .object members =>
    bracketed "\x7b" "\x7d" (linesAt indent depth) (memberTexts indent (depth + 1) members)

/-- The texts of the items of a list, one level down. -/
def itemTexts (indent : Option String) (depth : Nat) : List Json → List String
  | [] => []
  | item :: items => textAt indent depth item :: itemTexts indent depth items

/-- The texts of the members of an object, one level down. -/
def memberTexts (indent : Option String) (depth : Nat) : List (String × Json) → List String
  | [] => []
  | member :: members => memberText indent depth member :: memberTexts indent depth members

/-- The text of a member: its key in quotes and its value. -/
def memberText (indent : Option String) (depth : Nat) : String × Json → String
  | (key, value) =>
    quoted key ++ (if indent.isSome then ": " else ":") ++ textAt indent depth value

end

/-- **The text of a document on one line.** -/
def compact (j : Json) : String := textAt none 0 j

/-- **The text of a document with an indentation.** -/
def indented (indent : String) (j : Json) : String := textAt (some indent) 0 j

end Json

end ScriptTrace
