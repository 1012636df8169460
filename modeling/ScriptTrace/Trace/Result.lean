import ScriptTrace.Trace.Step

/-!
# Trace/Result — the trace of a run

The steps of a run with the message of what went wrong, and how a long trace is cut.
-/

namespace ScriptTrace

/-- The trace of a run. -/
structure Result where
  steps : Array Step
  error : Option String

namespace Result

/-- A result without steps. -/
def empty (error : Option String) : Result := ⟨#[], error⟩

/-- The message of a run that took these steps: that of the last one, if it is an error. -/
def errorOf (steps : Array Step) : Option String :=
  (steps.back?.filter fun s => s.kind = .error).map Step.description

/-- The result of a run that took these steps. -/
def ofSteps (steps : Array Step) : Result := ⟨steps, errorOf steps⟩

/-- What was printed up to the last step. -/
def consoleTexts (r : Result) : List String :=
  (r.steps.back?.map fun s => s.console.map ConsoleEntry.text).getD []

/-- The step that stands for steps left out behind it. -/
def truncationStep (last : Step) (dropped : Nat) : Step :=
  { last with
    kind := .warning
    description :=
      "Trace truncated: " ++ toString dropped ++ " further " ++
        (if dropped = 1 then "step" else "steps") ++ " not shown" }

/-- **The result with at most `n` steps**, and a warning behind them if there were more. -/
def truncate (r : Result) (n : Nat) : Result :=
  if r.steps.size ≤ n then r
  else
    let kept := r.steps.take n
    match kept.back? with
    | none => { r with steps := kept }
    | some last => { r with steps := kept.push (truncationStep last (r.steps.size - n)) }

end Result

end ScriptTrace
