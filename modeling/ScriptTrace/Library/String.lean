import ScriptTrace.Evaluation.Work
import ScriptTrace.Library.Array
import ScriptTrace.Text.Blank
import ScriptTrace.Text.LetterCase
import ScriptTrace.Text.Search

/-!
# Library/String — texts

The methods of texts.  Places and lengths count characters; only the ceiling on lengths
counts bytes.
-/

namespace ScriptTrace

/-- The first `n` characters of endless copies of a text that is not empty. -/
def padding (fill : List Char) (n : Nat) : List Char :=
  (List.replicate (n / fill.length + 1) fill).flatten.take n

/-- The places of a pattern in a text with the text between them.  An empty pattern stands at the
start and nowhere else. -/
def replacedPieces (pattern text : List Char) : List (List Char) :=
  if pattern.isEmpty then [[], text] else Text.splitAt pattern text

namespace Exec

/-- The place that an argument means; negative numbers and NaN mean the start, and `undefined` means
`missing`. -/
def placeArgument (v : Value) (n missing : Nat) : Exec Nat := do
  if v.isUndefined then return missing else return Number.toCount n (← number v)

/-- Adds the texts of values, each sum below the ceiling. -/
def concatTexts (line : Nat) : String → List Value → Exec String
  | out, [] => return out
  | out, v :: vs => do
    let out := out ++ (← text v)
    checkStringLength out.utf8ByteSize line
    concatTexts line out vs

/-- A text a number of times. -/
def repeatText (s : String) (count : Value) (line : Nat) : Exec Value := do
  let x ← number count
  if x < 0 || x == Number.infinity then
    raise .rangeError ("Invalid count value: " ++ (← text count)) line
  let n := Number.toCount Number.maxCount x
  checkStringLength (s.utf8ByteSize * (Number.toInt x).toNat) line
  return .string (if s.isEmpty then "" else String.join (List.replicate n s))

/-- What fills a text up to the length that an argument gives; nothing if it is long enough. -/
def paddingFor (cs : List Char) (args : List Value) (line : Nat) : Exec (List Char) := do
  let target := Number.toCount Number.maxCount (← number (argument args 0))
  let fill := argument args 1
  let fill ← if fill.isUndefined then pure [' '] else pure (← text fill).toList
  if target ≤ cs.length || fill.isEmpty then return []
  checkStringLength target line
  return padding fill (target - cs.length)

/-- The pieces of a text, at most as many as the second argument says. -/
def splitText (cs : List Char) (args : List Value) : Exec Value := do
  let separator := argument args 0
  let pieces ←
    if separator.isUndefined then pure [cs]
    else do
      let pattern := (← text separator).toList
      pure (if pattern.isEmpty then cs.map fun c => [c] else Text.splitAt pattern cs)
  let limit := argument args 1
  let pieces ←
    if limit.isUndefined then pure pieces
    else pure (pieces.take (Number.toCount Number.maxCount (← number limit)))
  makeArray (pieces.map Value.chars).toArray

end Exec

namespace Evaluator

variable (ev : Evaluator)

open Exec

/-- The text that takes the place of an occurrence: what a function gives for the pattern, the place
and the whole text, or the same text for all. -/
def replacementText (pattern whole : String) (replacement : Value) (place line : Nat) :
    Exec String := do
  if ← isCallable replacement then
    text (← ev.apply replacement .undefined [.string pattern, .count place, .string whole] line)
  else text replacement

/-- Joins pieces, the next one behind an occurrence at `place`, with replacements between them;
`out` is what stands in front of it. -/
def joinReplaced (pattern whole : String) (replacement : Value) (line : Nat) :
    Nat → String → List (List Char) → Exec String
  | _, out, [] => return out
  | place, out, piece :: pieces => do
    let new ← ev.replacementText pattern whole replacement place line
    checkStringLength (out.utf8ByteSize + new.utf8ByteSize) line
    joinReplaced pattern whole replacement line (place + pattern.length + piece.length)
      (out ++ new ++ String.ofList piece) pieces

/-- The first piece, and the others as one if only the first occurrence counts. -/
def replacedText (s : String) (isGlobal : Bool) (args : List Value) (line : Nat) :
    Exec String := do
  let pattern ← text (argument args 0)
  match replacedPieces pattern.toList s.toList with
  | [] => return s
  | first :: others =>
    let others :=
      if isGlobal || others.isEmpty then others
      else [s.toList.drop (first.length + pattern.length)]
    ev.joinReplaced pattern s (argument args 1) line first.length (String.ofList first) others

/-- **A method of a text.** -/
def stringMethod (s : String) (method : String) (args : List Value) (line : Nat) :
    Exec Value := do
  let cs := s.toList
  let n := cs.length
  let pattern : Exec (List Char) := return (← text (argument args 0)).toList
  match method with
  | "toUpperCase" => return .chars (Text.upper cs)
  | "toLowerCase" => return .chars (Text.lower cs)
  | "trim" => return .chars (Text.trim cs)
  | "trimStart" => return .chars (Text.dropBlanks cs)
  | "trimEnd" => return .chars (Text.dropBlanksEnd cs)
  | "toString" => return .string s
  | "concat" => return .string (← concatTexts line s args)
  | "includes" => return .bool (Text.contains (← pattern) cs)
  | "startsWith" =>
    let start ← placeArgument (argument args 1) n 0
    return .bool ((← pattern).isPrefixOf (cs.drop start))
  | "endsWith" =>
    let stop ← placeArgument (argument args 1) n n
    return .bool (Text.endsWith (← pattern) (cs.take stop))
  | "indexOf" =>
    let start ← placeArgument (argument args 1) n 0
    match Text.find? (← pattern) (cs.drop start) with
    | some i => return .count (start + i)
    | none => return .number (-1)
  | "lastIndexOf" =>
    match Text.findLast? (← pattern) cs with
    | some i => return .count i
    | none => return .number (-1)
  | "slice" =>
    let start ← relativeArgument (argument args 0) n 0
    let stop ← relativeArgument (argument args 1) n n
    return .chars (Text.slice start stop cs)
  | "substring" =>
    let a ← placeArgument (argument args 0) n 0
    let b ← placeArgument (argument args 1) n n
    return .chars (Text.slice (min a b) (max a b) cs)
  | "charAt" =>
    let i ← placeArgument (argument args 0) n 0
    return .chars cs[i]?.toList
  | "charCodeAt" =>
    let i ← placeArgument (argument args 0) n 0
    return cs[i]?.elim (.number Number.nan) fun c => .count c.toNat
  | "at" =>
    let c := (elementPlace? n (← number (argument args 0))).bind (cs[·]?)
    return c.elim .undefined fun c => .chars [c]
  | "split" => splitText cs args
  | "repeat" => repeatText s (argument args 0) line
  | "padStart" => return .chars ((← paddingFor cs args line) ++ cs)
  | "padEnd" => return .chars (cs ++ (← paddingFor cs args line))
  | "replace" => return .string (← ev.replacedText s false args line)
  | "replaceAll" => return .string (← ev.replacedText s true args line)
  | _ => misuse (.notFunction ("string." ++ method)) line

end Evaluator

end ScriptTrace
