import ScriptTrace.Command.Arguments
import ScriptTrace.Evaluation.Run
import ScriptTrace.Settings.Load
import ScriptTrace.Trace.Document

/-!
# Command/Perform — what commands do

A command reads settings and a source and answers with an exit code and two texts.
-/

namespace ScriptTrace

/-- The answer of a command. -/
structure Answer where
  exitCode : Nat
  output : String
  complaint : String
  deriving DecidableEq, Repr

namespace Answer

/-- The answer of a command that went well. -/
def success (output : String) : Answer := ⟨0, output, ""⟩

/-- The answer of a command that could not do its work. -/
def failure (message : String) : Answer := ⟨1, "", "Error: " ++ message ++ "\n"⟩

/-- How the program is used. -/
def usage : String :=
  "Usage: jstrace [--config <CONFIG>] <COMMAND>\n\n" ++
    "Commands:\n" ++
    "  run      Run a program and print its trace as JSON\n" ++
    "  console  Run a program and print only its console output\n" ++
    "  check    Parse a program without running it\n" ++
    "  config   Print the effective configuration\n"

/-- The answer to arguments that are not understood. -/
def misunderstood : Answer := ⟨2, "", usage⟩

/-- The exit code of a run. -/
def codeOf (r : Result) : Nat := if r.error.isSome then 1 else 0

/-- The whole trace of a run. -/
def ofTrace (s : Settings) (source : String) : Answer :=
  let r := run s.limits source
  let r := s.maxTraceSteps.elim r r.truncate
  let text := if s.pretty then r.document.indented "  " else r.document.compact
  ⟨codeOf r, text ++ "\n", ""⟩

/-- A text on a line of its own. -/
def ofLine (text : String) : String := text ++ "\n"

/-- What a run prints. -/
def ofConsole (s : Settings) (source : String) : Answer :=
  let r := run s.limits source
  ⟨codeOf r, String.join (r.consoleTexts.map ofLine), r.error.elim "" ofLine⟩

/-- Whether a source is a program. -/
def ofCheck (source : String) : Answer :=
  match Syntax.readProgram source with
  | .ok body => success ("✓ " ++ toString body.length ++ " statement(s) parsed\n")
  | .error e => ⟨1, "", ofLine e.text⟩

/-- The settings that count. -/
def ofSettings (s : Settings) : Answer :=
  match s.text with
  | .ok text => success text
  | .error e => failure e.message

end Answer

section

variable {m : Type → Type} [Monad m] (world : Surroundings m)

/-- Goes on with the source of a name; `-` names the standard input. -/
def withSource (file : String) (answer : String → Answer) : m Answer := do
  if file = "-" then return answer (← world.readInput)
  match ← world.readFile file with
  | some source => return answer source
  | none =>
    return .failure ("Failed to read " ++ file ++ ": No such file or directory (os error 2)")

/-- Goes on with the settings that count. -/
def withSettings (o : Overrides) (next : Settings → m Answer) : m Answer := do
  match ← Settings.load world o with
  | .ok s => next s
  | .error e => return .failure e.message

/-- **Performs a command.**  Settings come before the source, and `check` needs none. -/
def Invocation.perform (i : Invocation) : m Answer :=
  match i.command with
  | .help => return .success Answer.usage
  | .check file => withSource world file .ofCheck
  | .config => withSettings world ⟨i.settingsFile, none, none, false⟩ fun s => return .ofSettings s
  | .console file maxSteps =>
    withSettings world ⟨i.settingsFile, maxSteps, none, false⟩ fun s =>
      withSource world file (.ofConsole s)
  | .run file pretty maxSteps maxTraceSteps =>
    withSettings world ⟨i.settingsFile, maxSteps, maxTraceSteps, pretty⟩ fun s =>
      withSource world file (.ofTrace s)

/-- **Answers arguments.** -/
def Answer.toArguments (args : List String) : m Answer :=
  match Invocation.ofArguments? args with
  | none => return .misunderstood
  | some i => i.perform world

end

end ScriptTrace
