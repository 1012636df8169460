import ScriptTrace.Machine.Basic
import ScriptTrace.Settings.Tree

/-!
# Settings/Basic — settings of a run

What a tree of settings means, which settings are refused, and how settings are written.
-/

namespace ScriptTrace

/-- What can be set for a run and for its answer. -/
structure Settings where
  limits : Limits
  /-- The most steps of a trace that are shown. -/
  maxTraceSteps : Option Nat
  /-- Whether a trace is written with an indentation. -/
  pretty : Bool

/-- What is wrong with settings. -/
inductive SettingsProblem where
  | unreadable (path reason : String)
  | invalid (name : String)
  | zero (name : String)
  | unwritable
  deriving DecidableEq, Repr

/-- The message for a problem with the settings. -/
def SettingsProblem.message : SettingsProblem → String
  | .unreadable path reason => "Failed to read configuration from " ++ path ++ ": " ++ reason
  | .invalid name => "Invalid configuration: " ++ name ++ " has a value of another kind"
  | .zero name => name ++ " must be greater than zero"
  | .unwritable => "Failed to render configuration: out-of-range value for u64 type"

namespace Settings

/-- The settings where nothing is set. -/
def default : Settings := ⟨Limits.default, none, false⟩

/-! ## From a tree -/

/-- The fields of a section by their names: the entries of a table, or the items of a list in the
order of the fields. -/
def sectionFields (name : String) (fields : List String) (s : Setting) :
    Except SettingsProblem (List (String × Setting)) :=
  match s with
  | .table es => .ok es
  | .list items => .ok (fields.zip items)
  | _ => .error (.invalid name)

/-- The value of a field of a section; a missing one is as before. -/
def field {α : Type} (name : String) (convert : Setting → Option α) (missing : α)
    (fields : List (String × Setting)) : Except SettingsProblem α :=
  match fields.find? (·.1 = name) with
  | none => .ok missing
  | some (_, s) =>
    match convert s with
    | some a => .ok a
    | none => .error (.invalid name)

/-- A section of a tree; a missing one has no fields. -/
def sectionOf (name : String) (fields : List String) (tree : Setting) :
    Except SettingsProblem (List (String × Setting)) :=
  match tree.get? name with
  | none => .ok []
  | some s => sectionFields name fields s

/-- A count that may be missing. -/
def optionalCount? (s : Setting) : Option (Option Nat) :=
  match s with
  | .nothing => some none
  | s => s.count?.map some

/-- **The settings of a tree.**  Names without meaning are ignored. -/
def ofTree (tree : Setting) : Except SettingsProblem Settings := do
  let d := default
  let interpreter ←
    sectionOf "interpreter" ["max_steps", "max_call_depth", "max_collection_length"] tree
  let output ← sectionOf "output" ["max_trace_steps", "pretty"] tree
  let maxSteps ← field "max_steps" Setting.count? d.limits.maxSteps interpreter
  let maxCallDepth ← field "max_call_depth" Setting.count? d.limits.maxCallDepth interpreter
  let maxLength ← field "max_collection_length" Setting.count? d.limits.maxLength interpreter
  let maxTraceSteps ← field "max_trace_steps" optionalCount? d.maxTraceSteps output
  let pretty ← field "pretty" Setting.flag? d.pretty output
  return ⟨⟨maxSteps, maxCallDepth, maxLength⟩, maxTraceSteps, pretty⟩

/-- **Refuses limits that allow nothing.** -/
def validate (s : Settings) : Except SettingsProblem Settings :=
  if s.limits.maxSteps = 0 then .error (.zero "interpreter.max_steps")
  else if s.limits.maxCallDepth = 0 then .error (.zero "interpreter.max_call_depth")
  else if s.limits.maxLength = 0 then .error (.zero "interpreter.max_collection_length")
  else .ok s

/-! ## Writing -/

/-- Settings that are written with a count, by section. -/
def counts (s : Settings) : List Nat :=
  [s.limits.maxSteps, s.limits.maxCallDepth, s.limits.maxLength] ++ s.maxTraceSteps.toList

/-- A line that gives a name its value. -/
def assignment (name value : String) : String := name ++ " = " ++ value ++ "\n"

/-- **The text of settings**, which can be read again.  Counts must fit the signed 64-bit range. -/
def text (s : Settings) : Except SettingsProblem String :=
  if s.counts.any (1 <<< 63 ≤ ·) then .error .unwritable
  else .ok
    ("[interpreter]\n" ++ assignment "max_steps" (toString s.limits.maxSteps) ++
      assignment "max_call_depth" (toString s.limits.maxCallDepth) ++
      assignment "max_collection_length" (toString s.limits.maxLength) ++ "\n[output]\n" ++
      s.maxTraceSteps.elim "" (assignment "max_trace_steps" <| toString ·) ++
      assignment "pretty" (if s.pretty then "true" else "false"))

end Settings

end ScriptTrace
