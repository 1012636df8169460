import ScriptTrace.Machine.Record
import ScriptTrace.Syntax.Text

/-!
# Evaluation/Work — what there is to evaluate

Evaluation is one recursion over many kinds of work.  Each kind is a constructor of `Work`, and an
`Evaluator` does work of every kind.  The modules of this folder say how one piece of work is done
by means of an evaluator for the pieces inside it; `Evaluation/Run` ties the two together.
-/

namespace ScriptTrace

open Syntax (Expr Stmt Pattern)

/-- How a statement ended. -/
inductive Completion where
  | normal
  | returned (value : Value)
  | broken (label : Option String)
  | continued (label : Option String)

/-- How a pattern writes the names in it. -/
inductive BindMode where
  /-- New bindings in the scope itself. -/
  | declare (kind : BindingKind)
  /-- Bindings and properties that are there. -/
  | assign
  deriving DecidableEq, Repr

/-- A loop that counts: what it tests, changes and repeats. -/
structure CountingLoop where
  test : Option Expr
  update : Option Expr
  body : Stmt
  label : Option String
  /-- Whether every iteration has a scope of its own. -/
  isFresh : Bool

/-- Pieces of work, by what they yield. -/
inductive Work : Type → Type where
  | expr (scope : ScopeId) (e : Expr) : Work Value
  /-- A statement behind the label `label`. -/
  | statement (scope : ScopeId) (label : Option String) (s : Stmt) : Work Completion
  | bind (scope : ScopeId) (p : Pattern) (v : Value) (mode : BindMode) (line : Nat) : Work Unit
  | apply (f this : Value) (args : List Value) (line : Nat) : Work Value
  /-- The iterations of a loop that tests first. -/
  | whileLoop (scope : ScopeId) (test : Expr) (body : Stmt) (label : Option String) (line : Nat) :
    Work Completion
  /-- The iterations of a loop that tests last. -/
  | doLoop (scope : ScopeId) (body : Stmt) (test : Expr) (label : Option String) (line : Nat) :
    Work Completion
  /-- The iterations of a counting loop, the next one in `scope`. -/
  | forLoop (scope : ScopeId) (loop : CountingLoop) : Work Completion
  /-- The microtasks in the queue and those that they add. -/
  | microtasks : Work Unit
  /-- The macrotasks that are left. -/
  | macrotasks : Work Unit

/-- Does work of every kind. -/
structure Evaluator where
  run : {α : Type} → Work α → Exec α

namespace Evaluator

variable (ev : Evaluator)

/-- Evaluates an expression. -/
def expr (scope : ScopeId) (e : Expr) : Exec Value := ev.run (.expr scope e)

/-- Executes a statement without label. -/
def statement (scope : ScopeId) (s : Stmt) : Exec Completion := ev.run (.statement scope none s)

/-- Writes a value to a pattern. -/
def bind (scope : ScopeId) (p : Pattern) (v : Value) (mode : BindMode) (line : Nat) : Exec Unit :=
  ev.run (.bind scope p v mode line)

/-- Calls a value. -/
def apply (f this : Value) (args : List Value) (line : Nat) : Exec Value :=
  ev.run (.apply f this args line)

end Evaluator

/-! ## Actions that may fail -/

namespace Exec

variable {α : Type}

/-- **The result of an action, or what it threw.**  Nothing else holds up a fault. -/
def catchThrown (x : Exec α) : Exec (Except Thrown α) := fun m =>
  match x m with
  | .ok a m => .ok (.ok a) m
  | .error (.thrown value text line) m => .ok (.error ⟨value, text, line⟩) m
  | .error f m => .error f m

/-- Goes on as a caught action ended. -/
def resume (r : Except Thrown α) : Exec α :=
  match r with
  | .ok a => pure a
  | .error t => throw t.fault

/-- Does `x` and, however it ends, `y` behind it. -/
def followedBy (x : Exec α) (y : Exec Unit) : Exec α := fun m =>
  match x m with
  | .ok a m => (do y; return a) m
  | .error f m => (do y; throw f) m

/-- Does `x`, and `y` behind it if `x` recorded no step. -/
def orElseShow (x : Exec α) (y : Exec Unit) : Exec Unit := do
  let before := (← get).steps.size
  discard x
  if (← get).steps.size = before then y

end Exec

end ScriptTrace
