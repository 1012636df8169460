import ScriptTrace.Settings.Variables
import ScriptTrace.Text.Blank

/-!
# Settings/VariableFile — environment variables from a file

A line `name=value` sets a variable that the environment does not have.  Quotes may span lines, and
`$name` in a value stands for a variable known by then.  The first malformed line ends the file.
-/

namespace ScriptTrace.VariableFile

/-! ## Lines -/

/-- Where the end of a line falls. -/
inductive LineState where
  | complete | escape | strong | strongEscape | weak | weakEscape | comment | blank
  deriving DecidableEq, Repr

/-- What a character makes of a state outside quotes. -/
def LineState.outside (c : Char) : LineState :=
  match c with
  | '\\' => .escape
  | '"' => .weak
  | '\'' => .strong
  | _ => .complete

/-- What a character makes of a state. -/
def LineState.next (s : LineState) (c : Char) : LineState :=
  match s with
  | .blank => if c = '#' then .comment else outside c
  | .complete =>
    if Text.isBlank c && c != '\n' && c != '\r' then .blank else outside c
  | .escape => .complete
  | .weak => if c = '\\' then .weakEscape else if c = '"' then .complete else .weak
  | .weakEscape => .weak
  | .strong => if c = '\\' then .strongEscape else if c = '\'' then .complete else .strong
  | .strongEscape => .strong
  | .comment => .comment

/-- The characters of a line up to a comment, and the state at its end. -/
def scan (s : LineState) : List Char → List Char × LineState
  | [] => ([], s)
  | c :: cs =>
    match s.next c with
    | .comment => ([], .comment)
    | s =>
      let (kept, last) := scan s cs
      (c :: kept, last)

/-- A text cut behind each end of line; `line` is the line that was begun, backward. -/
def cutLines (line : List Char) : List Char → List (List Char)
  | [] => if line.isEmpty then [] else [line.reverse]
  | '\n' :: cs => ('\n' :: line).reverse :: cutLines [] cs
  | c :: cs => cutLines (c :: line) cs

/-- Without an end of line at the end. -/
def dropLineEnd (cs : List Char) : List Char :=
  match cs.reverse with
  | '\n' :: '\r' :: rest => rest.reverse
  | '\n' :: rest => rest.reverse
  | _ => cs

/-- Lines joined while quotes are open; `none` stands for a last one that is not closed.  `joined`
is what was joined so far, in the given state. -/
def joinLines (joined : List Char) (s : LineState) : List (List Char) → List (Option (List Char))
  | [] => if s = .complete then [] else [none]
  | line :: lines =>
    let whole := joined ++ line
    if (Text.dropBlanks whole).head? = some '#' then joinLines [] .complete lines
    else match scan s line with
    | (_, .complete) => some (dropLineEnd whole) :: joinLines [] .complete lines
    | (kept, .comment) => some (joined ++ kept) :: joinLines [] .complete lines
    | (_, s) => joinLines whole s lines

/-! ## Values -/

/-- How `$` is read on. -/
inductive Substitution where
  | off
  /-- Behind `$`. -/
  | bare
  /-- Behind `$` and an opening brace. -/
  | braced
  deriving DecidableEq, Repr

/-- A value that is being read. -/
structure Draft where
  strong : Bool
  weak : Bool
  escaped : Bool
  /-- Whether only blanks and a comment may follow. -/
  ended : Bool
  substitution : Substitution
  /-- The name behind `$`, as far as it was read, backward. -/
  name : List Char
  /-- What was read, backward. -/
  out : List Char

/-- Nothing read yet of a value. -/
def Draft.initial : Draft := ⟨false, false, false, false, .off, [], []⟩

/-- One more character of the value. -/
def Draft.push (d : Draft) (c : Char) : Draft := { d with out := c :: d.out }

/-- Puts the value of the variable that was named. -/
def Draft.substitute (d : Draft) (vars : Variables) : Draft :=
  let value := (vars.get? (String.ofList d.name.reverse)).getD ""
  { d with name := [], out := value.toList.reverse ++ d.out, substitution := .off }

/-- A character behind `$`. -/
def Draft.inName (d : Draft) (vars : Variables) (c : Char) : Draft :=
  if c.isAlphanum then { d with name := c :: d.name }
  else if d.substitution = .braced then
    if c = '\x7d' then d.substitute vars else { d with name := c :: d.name }
  else if c = '\x7b' && d.name.isEmpty then { d with substitution := .braced }
  else if c = '$' then { d.substitute vars with substitution := .bare }
  else (d.substitute vars).push c

/-- A character behind a backslash. -/
def Draft.unescape (d : Draft) (c : Char) : Option Draft :=
  let d := { d with escaped := false }
  if c ∈ ['\\', '\'', '"', '$', ' '] then some (d.push c)
  else if c = 'n' then some (d.push '\n')
  else none

/-- A character of a value where nothing special is open. -/
def Draft.plain (d : Draft) (c : Char) : Draft :=
  if c = '$' then { d with substitution := .bare }
  else if d.weak then
    if c = '"' then { d with weak := false }
    else if c = '\\' then { d with escaped := true }
    else d.push c
  else if c = '\'' then { d with strong := true }
  else if c = '"' then { d with weak := true }
  else if c = '\\' then { d with escaped := true }
  else if c = ' ' || c = '\t' then { d with ended := true }
  else d.push c

/-- One character of a value. -/
def Draft.next (d : Draft) (vars : Variables) (c : Char) : Option Draft :=
  if d.escaped then d.unescape c
  else if d.strong then some (if c = '\'' then { d with strong := false } else d.push c)
  else if d.substitution != .off then some (d.inName vars c)
  else some (d.plain c)

/-- The value that characters write. -/
def value? (vars : Variables) (d : Draft) : List Char → Option String
  | [] =>
    if d.substitution = .braced || d.strong || d.weak then none
    else some (String.ofList (d.substitute vars).out.reverse)
  | c :: cs =>
    if d.ended then
      if c = ' ' || c = '\t' then value? vars d cs
      else if c = '#' then value? vars d []
      else none
    else match d.next vars c with
    | some d => value? vars d cs
    | none => none

/-! ## Entries -/

/-- A character with which the name of a variable begins. -/
def isNameStart (c : Char) : Bool := c.isAlpha || c = '_'

/-- A character in the name of a variable. -/
def isNameChar (c : Char) : Bool := c.isAlphanum || c = '_' || c = '.'

/-- The name at the front of a line, and what stands behind it and blanks. -/
def name? (cs : List Char) : Option (String × List Char) :=
  match cs with
  | c :: _ =>
    if isNameStart c then
      some (String.ofList (cs.takeWhile isNameChar), Text.dropBlanks (cs.dropWhile isNameChar))
    else none
  | [] => none

/-- What stands behind an equals sign. -/
def behindEqual? (cs : List Char) : Option (List Char) :=
  match cs with
  | '=' :: rest => some (Text.dropBlanks rest)
  | _ => none

/-- The name of an entry, which `export` may stand before, and the text of its value. -/
def nameAndValue? (cs : List Char) : Option (String × List Char) := do
  let (name, rest) ← name? cs
  match behindEqual? rest with
  | some value => return (name, value)
  | none =>
    if name = "export" then
      let (name, rest) ← name? rest
      return (name, ← behindEqual? rest)
    else none

/-- What a line says: nothing, or an entry. -/
def entry? (vars : Variables) (line : List Char) : Option (Option (String × String)) := do
  let cs := Text.trim line
  if cs.isEmpty || cs.head? = some '#' then return none
  let (name, text) ← nameAndValue? cs
  let value ← if text.isEmpty || text.head? = some '#' then some "" else value? vars .initial text
  return some (name, value)

/-- An environment with the entries of lines, up to the first malformed one. -/
def addLines (vars : Variables) : List (Option (List Char)) → Variables
  | [] => vars
  | none :: _ => vars
  | some line :: lines =>
    match entry? vars line with
    | none => vars
    | some none => addLines vars lines
    | some (some (name, value)) =>
      addLines (if (vars.get? name).isSome then vars else vars ++ [(name, value)]) lines

/-- **An environment with the variables of a file** that it does not have. -/
def addTo (vars : Variables) (text : String) : Variables :=
  let cs := match text.toList with
    | '\ufeff' :: rest => rest
    | cs => cs
  addLines vars (joinLines [] .complete (cutLines [] cs))

end ScriptTrace.VariableFile
