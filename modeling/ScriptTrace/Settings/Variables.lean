import ScriptTrace.Settings.Tree
import ScriptTrace.Text.Search

/-!
# Settings/Variables — settings from environment variables

A variable whose name starts with `JSTRACE_`, in any case, is a setting: two underscores stand
between the names of a table and its entry, and the value is a flag, a number or a text.
-/

namespace ScriptTrace

/-- The variables of an environment. -/
abbrev Variables := List (String × String)

namespace Variables

/-- The value of a variable. -/
def get? (vars : Variables) (name : String) : Option String :=
  (vars.find? (·.1 = name)).map Prod.snd

/-- The beginning of the names of settings, in lower case. -/
def lead : List Char := "jstrace_".toList

/-- The number that a text writes, among them the words for those without digits. -/
def realOfText? (cs : List Char) : Option Float :=
  let (negative, body) := Number.splitSign cs
  let word := body.map Char.toLower
  if word = "inf".toList || word = "infinity".toList then
    some (Number.signed negative Number.infinity)
  else if word = "nan".toList then some Number.nan
  else Number.ofDecimal? cs

/-- The setting that a value stands for. -/
def settingOf (value : String) : Setting :=
  let cs := value.toList
  if Text.lower cs = "true".toList then .flag true
  else if Text.lower cs = "false".toList then .flag false
  else match Number.intOfBase? 10 cs, realOfText? cs with
  | some n, _ => .integer n
  | none, some x => .real x
  | none, none => .text value

/-- A character in a name that is written without quotes. -/
def isNameChar (c : Char) : Bool := c.isAlphanum || c = '_' || c = '-'

/-- The path that a name stands for: points or double underscores separate names that are not
empty; all else is one name. -/
def pathOf (name : List Char) : List String :=
  let pointed := ['.'].intercalate (Text.splitAt ['_', '_'] name)
  let key := Text.lower pointed
  let parts := Text.splitAt ['.'] key
  if parts.all fun p => !p.isEmpty && p.all isNameChar then parts.map String.ofList
  else [String.ofList key]

/-- The path of the setting that a variable is, if it is one. -/
def settingPath? (name : String) : Option (List String) :=
  let cs := name.toList
  if lead.isPrefixOf (Text.lower cs) then some (pathOf (cs.drop lead.length)) else none

/-- A tree with the setting that a variable is. -/
def addTo (tree : Setting) (entry : String × String) : Setting :=
  match settingPath? entry.1 with
  | some (name :: more) => tree.putAt name more (settingOf entry.2)
  | _ => tree

/-- **A tree with the settings of an environment over its own.** -/
def mergeInto (tree : Setting) (vars : Variables) : Setting := vars.foldl addTo tree

end Variables

end ScriptTrace
