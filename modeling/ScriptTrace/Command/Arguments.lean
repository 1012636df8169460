import ScriptTrace.Number.Reading

/-!
# Command/Arguments — what the command line asks for

Options start with `--` and may stand anywhere; a value stands behind its option or behind an equals
sign.  The option `--config` is known in front of the command and behind it, and the one behind it
counts.
-/

namespace ScriptTrace

/-- What the program is to do. -/
inductive Command where
  | run (file : String) (pretty : Bool) (maxSteps maxTraceSteps : Option Nat)
  | console (file : String) (maxSteps : Option Nat)
  | check (file : String)
  | config
  | help
  deriving DecidableEq, Repr

/-- A command with the file of settings to read. -/
structure Invocation where
  settingsFile : Option String
  command : Command
  deriving DecidableEq, Repr

namespace Arguments

/-- The options that a command knows. -/
structure Known where
  valued : List String
  flags : List String

/-- Arguments by kind, in their order. -/
structure Sorted where
  valued : List (String × String)
  flags : List String
  others : List String

/-- No arguments at all. -/
def Sorted.empty : Sorted := ⟨[], [], []⟩

/-- What an argument is by itself. -/
inductive Kind where
  /-- An option, with a value behind an equals sign or none. -/
  | option (name : String) (value : Option String)
  /-- The mark behind which there are no options. -/
  | endMark
  /-- A dash with letters behind it. -/
  | short (letters : List Char)
  | other

/-- What an argument is, by its first characters. -/
def kindOf (arg : String) : Kind :=
  match arg.toList with
  | ['-', '-'] => .endMark
  | '-' :: '-' :: rest =>
    let name := String.ofList (rest.takeWhile (· != '='))
    match rest.dropWhile (· != '=') with
    | _ :: value => .option name (some (String.ofList value))
    | [] => .option name none
  | '-' :: c :: rest => .short (c :: rest)
  | _ => .other

/-- Whether an argument may be the value of the option in front of it. -/
def isValue (arg : String) : Bool :=
  match kindOf arg with
  | .other => true
  | _ => false

/-- Adds a value of an option, which may be given once. -/
def addValued (name value : String) (s : Sorted) : Option Sorted :=
  if (s.valued.lookup name).isSome then none else some
    { s with valued := s.valued ++ [(name, value)] }

/-- Adds a flag, which may be given once. -/
def addFlag (name : String) (s : Sorted) : Option Sorted :=
  if s.flags.contains name then none else some { s with flags := s.flags ++ [name] }

/-- Sorts arguments; with `stopsAtOther` only up to the first one that is no option, which is left
with all behind it. -/
def sort (known : Known) (stopsAtOther : Bool) : Sorted → List String →
    Option (Sorted × List String)
  | s, [] => some (s, [])
  | s, arg :: args =>
    match kindOf arg with
    | .endMark => if stopsAtOther then none else some ({ s with others := s.others ++ args }, [])
    | .short letters =>
      if letters.head? = some 'h' then some ({ s with flags := "help" :: s.flags }, []) else none
    | .other =>
      if stopsAtOther then some (s, arg :: args)
      else sort known stopsAtOther { s with others := s.others ++ [arg] } args
    | .option name value =>
      match known.valued.contains name, known.flags.contains name, value, args with
      | true, _, some v, args => do sort known stopsAtOther (← addValued name v s) args
      | true, _, none, v :: args =>
        if isValue v then do sort known stopsAtOther (← addValued name v s) args else none
      | false, true, none, args => do sort known stopsAtOther (← addFlag name s) args
      | false, false, none, _ =>
        if name = "help" then some ({ s with flags := "help" :: s.flags }, []) else none
      | _, _, _, _ => none

/-- The count that an option gives; `none` if it is malformed. -/
def count? (s : Sorted) (name : String) : Option (Option Nat) :=
  match s.valued.lookup name with
  | none => some none
  | some v => (Number.countOfText? v.toList).map some

/-- The file of settings that an option names, which may not be empty. -/
def settingsFile? (s : Sorted) : Option (Option String) :=
  match s.valued.lookup "config" with
  | none => some none
  | some path => if path.isEmpty then none else some (some path)

/-- The only argument that is no option. -/
def onlyOther? (s : Sorted) : Option String :=
  match s.others with
  | [file] => some file
  | _ => none

/-- The options of a command. -/
def knownTo (command : String) : Option Known :=
  match command with
  | "run" => some ⟨["config", "max-steps", "max-trace-steps"], ["pretty"]⟩
  | "console" => some ⟨["config", "max-steps"], []⟩
  | "check" | "config" => some ⟨["config"], []⟩
  | _ => none

/-- The command that a word and sorted arguments ask for. -/
def command? (word : String) (s : Sorted) : Option Command :=
  match word with
  | "run" => do
    let maxSteps ← count? s "max-steps"
    let maxTraceSteps ← count? s "max-trace-steps"
    return .run (← onlyOther? s) (s.flags.contains "pretty") maxSteps maxTraceSteps
  | "console" => do
    let maxSteps ← count? s "max-steps"
    return .console (← onlyOther? s) maxSteps
  | "check" => return .check (← onlyOther? s)
  | "config" => if s.others.isEmpty then some .config else none
  | _ => none

/-- What a word and the arguments behind it ask for, after options in front of it. -/
def invocation? (front : Sorted) (word : String) (args : List String) : Option Invocation := do
  let outer ← settingsFile? front
  if word = "help" then return ⟨outer, .help⟩
  let (s, _) ← sort (← knownTo word) false .empty args
  if s.flags.contains "help" then return ⟨outer, .help⟩
  let inner ← settingsFile? s
  return ⟨inner <|> outer, ← command? word s⟩

end Arguments

/-- **What arguments ask for**; `none` if they are not understood. -/
def Invocation.ofArguments? (args : List String) : Option Invocation := do
  let (front, rest) ← Arguments.sort ⟨["config"], []⟩ true .empty args
  if front.flags.contains "help" then return ⟨none, .help⟩
  match rest with
  | [] => none
  | word :: args => Arguments.invocation? front word args

end ScriptTrace
