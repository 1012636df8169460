import ScriptTrace.Evaluation.EventLoop
import ScriptTrace.Syntax.Reader
import ScriptTrace.Trace.Result

/-!
# Evaluation/Run — runs of programs

`Work.exec` does any piece of work with a bound on how deep the pieces lie inside one another; it is
the one recursion of the evaluator.  `runWithin` reads a source, runs it with such a bound and gives
its trace; `run` chooses the bound.
-/

namespace ScriptTrace

open Syntax (Program)

/-- Does one piece of work by means of an evaluator for the pieces inside it. -/
def Evaluator.step (ev : Evaluator) {α : Type} (w : Work α) : Exec α :=
  match w with
  | .expr scope e => ev.evalExpr scope e
  | .statement scope label s => ev.execStatement scope label s
  | .bind scope p v mode line => ev.bindPattern scope p v mode line
  | .apply f this args line => ev.applyValue f this args line
  | .whileLoop scope test body label line => ev.execWhile scope test body label line
  | .doLoop scope body test label line => ev.execDoWhile scope body test label line
  | .forLoop scope loop => ev.execCounting scope loop
  | .microtasks => ev.execMicrotasks
  | .macrotasks => ev.execMacrotasks

/-- **Does a piece of work**, with at most `fuel` pieces inside one another. -/
def Work.exec {α : Type} : Nat → Work α → Exec α
  | 0, _ => throw .exhausted
  | fuel + 1, w => Evaluator.step ⟨fun w => Work.exec fuel w⟩ w

/-- The evaluator with a bound. -/
def Evaluator.bounded (fuel : Nat) : Evaluator := ⟨fun w => w.exec fuel⟩

/-- Runs a program and what it leaves in the queues. -/
def Evaluator.runProgram (ev : Evaluator) (program : Program) : Exec Unit := do
  Exec.hoistBody Scopes.globalId program
  Exec.enterPhase .executing "Run script: synchronous code executes on the call stack"
  discard (ev.statements Scopes.globalId program)
  ev.runEventLoop

/-- The machine at the end of a run. -/
def finalMachine (limits : Limits) (fuel : Nat) (program : Program) : Machine :=
  match (Evaluator.bounded fuel).runProgram program (.initial limits) with
  | .ok _ m => m
  | .error f m => m.recorded m.scope f.line .error f.message

/-- **Runs a source with a bound** on how deep the pieces of work lie inside one another.  A blank
source has an empty trace; one that is no program has only a message.  A run that goes deeper is
given up with `Fault.exhausted`, and its result says nothing about the program. -/
def runWithin (limits : Limits) (fuel : Nat) (source : String) : Result :=
  if source.toList.all Text.isBlank then .empty none
  else match Syntax.readProgram source with
  | .error e => .empty (some e.text)
  | .ok program =>
    let m := finalMachine limits fuel program
    .ofSteps m.steps

/-- How deep the pieces of work may lie inside one another in `run`.  This is a choice and no bound
on what a run needs: most pieces of work are part of the source or count as a unit of work, but
calls of functions of the host are not counted and may lie inside one another to any depth, also
without end. -/
def fuelFor (limits : Limits) (length : Nat) : Nat := 4 * (limits.maxSteps + 4) * (length + 16)

/-- **Runs a source** with the bound that is chosen for it. -/
def run (limits : Limits) (source : String) : Result :=
  runWithin limits (fuelFor limits source.length) source

end ScriptTrace
