import ScriptTrace.Command.Perform

/-!
# Main — the program

Passes files, standard input and the environment to the command and prints its answer.
-/

open ScriptTrace

/-- The text of a file, if it can be read. -/
def readTextFile (path : String) : IO (Option String) := do
  try
    return some (← IO.FS.readFile path)
  catch _ => return none

/-- The variables of the process: entries `name=value`, each with a zero character behind it. -/
def readVariables : IO Variables := do
  let text := (← readTextFile "/proc/self/environ").getD ""
  let entries := Text.splitAt ['\x00'] text.toList
  return entries.filterMap fun cs =>
    match cs.dropWhile (· != '=') with
    | _ :: value => some (String.ofList (cs.takeWhile (· != '=')), String.ofList value)
    | [] => none

/-- The whole standard input. -/
def readStandardInput : IO String := do
  (← IO.getStdin).readToEnd

/-- The command: the files and variables around it are read, its answer is printed. -/
def main (args : List String) : IO UInt32 := do
  let world : Surroundings IO := ⟨readTextFile, readStandardInput, ← readVariables⟩
  let a ← Answer.toArguments world args
  IO.print a.output
  IO.eprint a.complaint
  return a.exitCode.toUInt32
