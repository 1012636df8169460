import ScriptTrace.Json.Reader
import ScriptTrace.Settings.Basic
import ScriptTrace.Settings.VariableFile
import ScriptTrace.Toml.Reader

/-!
# Settings/Load — where settings come from

Defaults, a file, the environment and explicit overrides, the later ones over the earlier.  A file
`.env` completes the environment first.  What lies outside is reached through `Surroundings`, in any
monad.
-/

namespace ScriptTrace

/-- What a command can look at. -/
structure Surroundings (m : Type → Type) where
  /-- The text of a file, if there is one at the path. -/
  readFile : String → m (Option String)
  readInput : m String
  environment : Variables

/-- Settings that are given explicitly. -/
structure Overrides where
  /-- The path of the file of settings. -/
  file : Option String
  maxSteps : Option Nat
  maxTraceSteps : Option Nat
  pretty : Bool

namespace Settings

/-- The file that is read if no other one is named. -/
def defaultFile : String := "jstrace.toml"

/-- The file with variables. -/
def variableFile : String := ".env"

/-- The variable that names a file of settings. -/
def fileVariable : String := "JSTRACE_CONFIG_PATH"

/-- The file of settings, and whether it must be there. -/
def fileToRead (overrides : Overrides) (vars : Variables) : String × Bool :=
  match overrides.file, vars.get? fileVariable with
  | some path, _ => (path, true)
  | none, some path => (path, true)
  | none, none => (defaultFile, false)

/-! ## Formats -/

mutual

/-- The tree of a JSON document. -/
def ofJson : Json → Setting
  | .null => .nothing
  | .bool b => .flag b
  | .integer n => .integer n
  | .real x => .real x
  | .string s => .text s
  | .array items => .list (ofJsonItems items)
  | .object members => .table (ofJsonMembers members)

/-- The settings in the items of a list. -/
def ofJsonItems : List Json → List Setting
  | [] => []
  | j :: js => ofJson j :: ofJsonItems js

/-- The settings in the members of an object. -/
def ofJsonMembers : List (String × Json) → List (String × Setting)
  | [] => []
  | m :: ms => ofJsonMember m :: ofJsonMembers ms

/-- The setting in a member, under its key. -/
def ofJsonMember : String × Json → String × Setting
  | (name, j) => (name, ofJson j)

end

/-- The tree of a JSON text, which must be a table. -/
def readJson? (text : String) : Option Setting :=
  match Json.read text with
  | .ok (.object members) => some (ofJson (.object members))
  | _ => none

/-- The endings of files of settings, with their readers. -/
def formats : List (String × (String → Option Setting)) :=
  [("toml", Toml.read?), ("json", readJson?)]

/-- The ending of a path: what stands behind the last point of its last part, unless the point
comes first. -/
def ending? (path : String) : Option String :=
  let cs := path.toList.reverse.takeWhile (· != '/')
  let last := cs.takeWhile (· != '.')
  if cs.length ≤ last.length + 1 then none else some (String.ofList last.reverse)

/-! ## Files -/

section

variable {m : Type → Type} [Monad m] (world : Surroundings m)

/-- The first file at the path with one of the endings behind it. -/
def findWithEnding (path : String) :
    List (String × (String → Option Setting)) → m (Option (Option Setting))
  | [] => return none
  | (ending, read?) :: more => do
    match ← world.readFile (path ++ "." ++ ending) with
    | some text => return some (read? text)
    | none => findWithEnding path more

/-- The tree of the file at a path, or at the path with an ending behind it.  A file that may be
missing gives an empty tree if it is. -/
def readTree (path : String) (isRequired : Bool) : m (Except SettingsProblem Setting) := do
  let missing (reason : String) : Except SettingsProblem Setting :=
    if isRequired then .error (.unreadable path reason) else .ok .empty
  let parsed (tree : Option Setting) : Except SettingsProblem Setting :=
    match tree with
    | some tree => .ok tree
    | none => .error (.unreadable path "malformed file")
  match ← world.readFile path with
  | some text =>
    match (ending? path).bind fun e => formats.lookup e with
    | some read? => return parsed (read? text)
    | none => return missing "not of a registered file format"
  | none =>
    match ← findWithEnding world path formats with
    | some tree => return parsed tree
    | none => return missing "not found"

/-- The environment with the variables of the file for them. -/
def completeVariables : m Variables := do
  match ← world.readFile variableFile with
  | some text => return VariableFile.addTo world.environment text
  | none => return world.environment

/-- Settings with explicit ones over them. -/
def override (s : Settings) (o : Overrides) : Settings where
  limits := { s.limits with maxSteps := o.maxSteps.getD s.limits.maxSteps }
  maxTraceSteps := o.maxTraceSteps <|> s.maxTraceSteps
  pretty := o.pretty || s.pretty

/-- **The settings that count.** -/
def load (o : Overrides) : m (Except SettingsProblem Settings) := do
  let vars ← completeVariables world
  let (path, isRequired) := fileToRead o vars
  match ← readTree world path isRequired with
  | .error e => return .error e
  | .ok tree => return (ofTree (Variables.mergeInto (Setting.empty.merge tree) vars)).bind fun s =>
      (s.override o).validate

end

end Settings

end ScriptTrace
