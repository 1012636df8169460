import ScriptTrace.Json.Basic
import ScriptTrace.Number.Reading

/-!
# Json/Reader — documents from text

Errors name what was expected and where reading stopped: the line, and the bytes read on it.  A
number with a point or an exponent is its first digits, as many as 64 bits hold, scaled by a power
of ten; that is rounded twice and may differ in the last digit from the same text in a program.
-/

namespace ScriptTrace.Json

/-- Why a text is no document. -/
inductive Problem where
  | endInValue | endInList | endInObject | endInString
  | expectedValue | expectedWord | expectedColon | expectedListEnd | expectedObjectEnd
  | keyNotString | trailingComma | trailingCharacters
  | invalidNumber | numberOutOfRange | invalidEscape
  | endOfHexEscape | loneSurrogate | controlCharacter | tooDeep
  deriving DecidableEq, Repr

/-- The message of a problem, without its place. -/
def Problem.message : Problem → String
  | .endInValue => "EOF while parsing a value"
  | .endInList => "EOF while parsing a list"
  | .endInObject => "EOF while parsing an object"
  | .endInString => "EOF while parsing a string"
  | .expectedValue => "expected value"
  | .expectedWord => "expected ident"
  | .expectedColon => "expected `:`"
  | .expectedListEnd => "expected `,` or `]`"
  | .expectedObjectEnd => "expected `,` or `\x7d`"
  | .keyNotString => "key must be a string"
  | .trailingComma => "trailing comma"
  | .trailingCharacters => "trailing characters"
  | .invalidNumber => "invalid number"
  | .numberOutOfRange => "number out of range"
  | .invalidEscape => "invalid escape"
  | .endOfHexEscape => "unexpected end of hex escape"
  | .loneSurrogate => "lone leading surrogate in hex escape"
  | .controlCharacter => "control character (\\u0000-\\u001F) found while parsing a string"
  | .tooDeep => "recursion limit exceeded"

/-- How far reading went: the line, and the bytes read on it. -/
structure Place where
  line : Nat
  column : Nat
  deriving DecidableEq, Repr, Inhabited

/-- The place `n` bytes further on in a text. -/
def Place.advance (p : Place) : Nat → List Char → Place
  | 0, _ => p
  | _, [] => p
  | n, c :: cs =>
    if c = '\n' then Place.advance ⟨p.line + 1, 0⟩ (n - 1) cs
    else
      let k := min n c.utf8Size
      Place.advance ⟨p.line, p.column + k⟩ (n - k) cs

/-- A problem and its place. -/
structure ReadError where
  problem : Problem
  place : Place
  deriving DecidableEq, Repr

/-- The whole text of an error. -/
def ReadError.text (e : ReadError) : String :=
  e.problem.message ++ " at line " ++ toString e.place.line ++ " column " ++
    toString e.place.column

/-- The text still to be read, and how far reading went. -/
structure Input where
  rest : List Char
  place : Place
  deriving Inhabited

namespace Input

/-- A text that has not been read from yet. -/
def ofString (s : String) : Input := ⟨s.toList, ⟨1, 0⟩⟩

/-- The input behind its next `n` characters. -/
def drop (i : Input) : Nat → Input
  | 0 => i
  | n + 1 =>
    match i.rest with
    | [] => i
    | c :: cs => drop ⟨cs, i.place.advance c.utf8Size [c]⟩ n

/-- The input behind white space. -/
def skipSpace (i : Input) : Input :=
  i.drop (i.rest.takeWhile fun c => c = ' ' || c = '\n' || c = '\t' || c = '\r').length

/-- An error `n` bytes further on. -/
def failAfter {α : Type} (i : Input) (n : Nat) (p : Problem) : Except ReadError α :=
  .error ⟨p, i.place.advance n i.rest⟩

/-- An error where reading stopped. -/
def failHere {α : Type} (i : Input) (p : Problem) : Except ReadError α := i.failAfter 0 p

/-- An error at the next byte, which counts as read. -/
def failNext {α : Type} (i : Input) (p : Problem) : Except ReadError α := i.failAfter 1 p

end Input

/-- A reader of documents or of parts of them. -/
abbrev Reader (α : Type) := Input → Except ReadError (α × Input)

/-! ## Words and strings -/

/-- Reads the rest of a word and gives the document that it stands for. -/
def readWord (value : Json) : List Char → Reader Json
  | [], i => .ok (value, i)
  | w :: ws, i =>
    match i.rest with
    | [] => i.failHere .endInValue
    | c :: _ => if c = w then readWord value ws (i.drop 1) else i.failNext .expectedWord

/-- Reads four hexadecimal digits. -/
def readHex : Reader Nat := fun i =>
  match i.rest with
  | a :: b :: c :: d :: _ =>
    match Number.natOfBase? 16 [a, b, c, d] with
    | some n => .ok (n, i.drop 4)
    | none => i.failAfter 4 .invalidEscape
  | rest =>
    let bytes := (String.ofList rest).utf8ByteSize
    if bytes ≥ 4 then i.failAfter 4 .invalidEscape else i.failAfter bytes .endInString

/-- Reads a character, which must be `expected`. -/
def readEscapeMark (expected : Char) : Reader Unit := fun i =>
  match i.rest with
  | [] => i.failHere .endInString
  | c :: _ => if c = expected then .ok ((), i.drop 1) else i.failNext .endOfHexEscape

/-- The first half of a character beyond the basic plane. -/
def isLeadingSurrogate (n : Nat) : Bool := 0xD800 ≤ n && n ≤ 0xDBFF

/-- The second half of a character beyond the basic plane. -/
def isTrailingSurrogate (n : Nat) : Bool := 0xDC00 ≤ n && n ≤ 0xDFFF

/-- Reads the digits of a `\u` escape, and a second one behind a leading surrogate. -/
def readUnicode : Reader Char := fun i => do
  let (n, i) ← readHex i
  if isTrailingSurrogate n then i.failHere .loneSurrogate
  else if isLeadingSurrogate n then
    let (_, i) ← readEscapeMark '\\' i
    let (_, i) ← readEscapeMark 'u' i
    let (m, i) ← readHex i
    if isTrailingSurrogate m then
      return (Char.ofNat ((n - 0xD800) * 1024 + (m - 0xDC00) + 0x10000), i)
    else i.failHere .loneSurrogate
  else return (Char.ofNat n, i)

/-- Reads an escape behind its backslash. -/
def readEscape : Reader Char := fun i =>
  match i.rest with
  | [] => i.failHere .endInString
  | c :: _ =>
    match c with
    | '"' => .ok ('"', i.drop 1)
    | '\\' => .ok ('\\', i.drop 1)
    | '/' => .ok ('/', i.drop 1)
    | 'b' => .ok ('\x08', i.drop 1)
    | 'f' => .ok ('\x0c', i.drop 1)
    | 'n' => .ok ('\n', i.drop 1)
    | 'r' => .ok ('\r', i.drop 1)
    | 't' => .ok ('\t', i.drop 1)
    | 'u' => readUnicode (i.drop 1)
    | _ => i.failNext .invalidEscape

/-- Reads the inside of a string and its closing quote; the text has at most `fuel` characters. -/
def readStringWithin : Nat → Reader (List Char)
  | 0, i => i.failHere .endInString
  | fuel + 1, i =>
    match i.rest with
    | [] => i.failHere .endInString
    | '"' :: _ => .ok ([], i.drop 1)
    | '\\' :: _ => do
      let (c, i) ← readEscape (i.drop 1)
      let (cs, i) ← readStringWithin fuel i
      return (c :: cs, i)
    | c :: _ =>
      if c.toNat < 32 then i.failNext .controlCharacter
      else do
        let (cs, i) ← readStringWithin fuel (i.drop 1)
        return (c :: cs, i)

/-- Reads a string behind its opening quote. -/
def readString : Reader String := fun i => do
  let (cs, i) ← readStringWithin (i.rest.length + 1) i
  return (String.ofList cs, i)

/-! ## Numbers -/

/-- The largest count of 64 bits; digits that would take a number past it are dropped. -/
def maxSignificand : Nat := (1 <<< 64) - 1

/-- The largest exponent that is counted. -/
def maxExponent : Nat := (1 <<< 31) - 1

/-- Appends digits to a count as long as it fits, and tells how many it took. -/
def takeDigits (significand : Nat) : List Char → Nat × Nat
  | [] => (significand, 0)
  | d :: ds =>
    let next := 10 * significand + (d.toNat - 48)
    if next > maxSignificand then (significand, 0)
    else
      let (n, taken) := takeDigits next ds
      (n, taken + 1)

/-- The digits at the front of an input. -/
def digitsHere (i : Input) : List Char := i.rest.takeWhile Number.isDigit

/-- Scales by a power of ten, a power past the range in several steps. -/
def scaleTen : Nat → Float → Int → Option Float
  | 0, x, _ => some x
  | fuel + 1, x, exponent =>
    if exponent.natAbs ≤ 308 then
      let power := Float.ofScientific 1 false exponent.natAbs
      if exponent ≥ 0 then
        let y := x * power
        if Number.isFinite y then some y else none
      else some (x / power)
    else if x == 0 then some x
    else if exponent ≥ 0 then none
    else scaleTen fuel (x / Float.ofScientific 1 false 308) (exponent + 308)

/-- The number `± significand · 10 ^ exponent`. -/
def scaled (negative : Bool) (significand : Nat) (exponent : Int) : Reader Json := fun i =>
  match scaleTen 4 (Float.ofNat significand) exponent with
  | some x => .ok (.real (Number.signed negative x), i)
  | none => i.failHere .numberOutOfRange

/-- How many of the digits make up an exponent that is still counted; `none` if all do. -/
def exponentOverflow? (n : Nat) (taken : Nat) : List Char → Option Nat
  | [] => none
  | d :: ds =>
    let next := 10 * n + (d.toNat - 48)
    if next > maxExponent then some (taken + 1) else exponentOverflow? next (taken + 1) ds

/-- Reads an exponent behind its letter. -/
def readExponent (negative : Bool) (significand : Nat) (start : Int) : Reader Json := fun i =>
  let (below, i) := match i.rest with
    | '+' :: _ => (false, i.drop 1)
    | '-' :: _ => (true, i.drop 1)
    | _ => (false, i)
  match i.rest with
  | [] => i.failHere .endInValue
  | c :: _ =>
    if Number.isDigit c then
      let ds := digitsHere i
      match exponentOverflow? 0 0 ds with
      | some n =>
        if significand ≠ 0 && !below then (i.drop n).failHere .numberOutOfRange
        else .ok (.real (Number.signed negative 0), i.drop ds.length)
      | none =>
        let e : Int := Number.natOfDigits ds
        scaled negative significand (if below then start - e else start + e) (i.drop ds.length)
    else i.failNext .invalidNumber

/-- Reads an exponent if there is one. -/
def readScaled (negative : Bool) (significand : Nat) (exponent : Int) : Reader Json := fun i =>
  match i.rest with
  | 'e' :: _ => readExponent negative significand exponent (i.drop 1)
  | 'E' :: _ => readExponent negative significand exponent (i.drop 1)
  | _ => scaled negative significand exponent i

/-- Reads the places behind a point. -/
def readPlaces (negative : Bool) (significand : Nat) (exponent : Int) : Reader Json := fun i =>
  let ds := digitsHere i
  match ds with
  | [] => if i.rest.isEmpty then i.failHere .endInValue else i.failNext .invalidNumber
  | _ :: _ =>
    let (n, taken) := takeDigits significand ds
    readScaled negative n (exponent - taken) (i.drop ds.length)

/-- Reads a number behind its sign. -/
def readNumber (negative : Bool) : Reader Json := fun i =>
  let ds := digitsHere i
  match ds with
  | [] => if i.rest.isEmpty then i.failHere .endInValue else i.failNext .invalidNumber
  | '0' :: _ :: _ => (i.drop 1).failNext .invalidNumber
  | ds =>
    let (n, taken) := takeDigits 0 ds
    let exponent : Int := ds.length - taken
    let i := i.drop ds.length
    match i.rest with
    | '.' :: _ => readPlaces negative n exponent (i.drop 1)
    | 'e' :: _ => readScaled negative n exponent i
    | 'E' :: _ => readScaled negative n exponent i
    | _ =>
      if exponent ≠ 0 then scaled negative n exponent i
      else if !negative then .ok (.integer n, i)
      else if n = 0 ∨ n > 1 <<< 63 then .ok (.real (-Float.ofNat n), i)
      else .ok (.integer (-n), i)

/-! ## Lists, objects, documents -/

/-- Reads the items of a list up to its end. -/
def readItems (value : Reader Json) : Nat → Bool → Reader (List Json)
  | 0, _, i => i.failHere .endInList
  | fuel + 1, first, i =>
    let i := i.skipSpace
    let item (i : Input) : Except ReadError (List Json × Input) := do
      let (j, i) ← value i
      let (js, i) ← readItems value fuel false i
      return (j :: js, i)
    match i.rest with
    | [] => i.failHere .endInList
    | ']' :: _ => .ok ([], i.drop 1)
    | c :: _ =>
      if first then item i
      else if c = ',' then
        let i := (i.drop 1).skipSpace
        match i.rest with
        | [] => i.failHere .endInValue
        | ']' :: _ => i.failNext .trailingComma
        | _ => item i
      else i.failNext .expectedListEnd

/-- Reads a colon. -/
def readColon : Reader Unit := fun i =>
  let i := i.skipSpace
  match i.rest with
  | [] => i.failHere .endInObject
  | ':' :: _ => .ok ((), i.drop 1)
  | _ => i.failNext .expectedColon

/-- Reads the members of an object up to its end. -/
def readMembers (value : Reader Json) : Nat → Bool → Reader (List (String × Json))
  | 0, _, i => i.failHere .endInObject
  | fuel + 1, first, i =>
    let i := i.skipSpace
    let member (i : Input) : Except ReadError (List (String × Json) × Input) := do
      let (k, i) ← readString (i.drop 1)
      let (_, i) ← readColon i
      let (j, i) ← value i
      let (ms, i) ← readMembers value fuel false i
      return ((k, j) :: ms, i)
    match i.rest with
    | [] => i.failHere .endInObject
    | '\x7d' :: _ => .ok ([], i.drop 1)
    | c :: _ =>
      if first then if c = '"' then member i else i.failNext .keyNotString
      else if c = ',' then
        let i := (i.drop 1).skipSpace
        match i.rest with
        | [] => i.failHere .endInValue
        | '"' :: _ => member i
        | '\x7d' :: _ => i.failNext .trailingComma
        | _ => i.failNext .keyNotString
      else i.failNext .expectedObjectEnd

/-- The members of an object in which a later value of a key takes the place of an earlier one. -/
def mergeMembers (members : List (String × Json)) : List (String × Json) :=
  members.foldl (fun acc (k, j) =>
    if acc.any (·.1 = k) then acc.map fun m => if m.1 = k then (k, j) else m
    else acc ++ [(k, j)]) []

/-- Reads a value that holds at most `depth` levels of lists and objects. -/
def readValue : Nat → Reader Json
  | depth, i =>
    let i := i.skipSpace
    match i.rest with
    | [] => i.failHere .endInValue
    | 'n' :: _ => readWord .null ['u', 'l', 'l'] (i.drop 1)
    | 't' :: _ => readWord (.bool true) ['r', 'u', 'e'] (i.drop 1)
    | 'f' :: _ => readWord (.bool false) ['a', 'l', 's', 'e'] (i.drop 1)
    | '-' :: _ => readNumber true (i.drop 1)
    | '"' :: _ => do
      let (s, i) ← readString (i.drop 1)
      return (.string s, i)
    | '[' :: rest =>
      match depth with
      | 0 => i.failNext .tooDeep
      | depth + 1 => do
        let (js, i) ← readItems (readValue depth) (rest.length + 1) true (i.drop 1)
        return (.array js, i)
    | '\x7b' :: rest =>
      match depth with
      | 0 => i.failNext .tooDeep
      | depth + 1 => do
        let (ms, i) ← readMembers (readValue depth) (rest.length + 1) true (i.drop 1)
        return (.object (mergeMembers ms), i)
    | c :: _ => if Number.isDigit c then readNumber false i else i.failNext .expectedValue

/-- The levels of lists and objects that a document may have. -/
def maxDepth : Nat := 127

/-- **Reads a document**, with nothing but white space behind it. -/
def read (s : String) : Except ReadError Json := do
  let (j, i) ← readValue maxDepth (.ofString s)
  let i := i.skipSpace
  if i.rest.isEmpty then return j else i.failNext .trailingCharacters

end ScriptTrace.Json
