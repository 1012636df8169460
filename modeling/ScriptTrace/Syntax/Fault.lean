import ScriptTrace.Syntax.Tree

/-!
# Syntax/Fault — why a text is no program

Most faults are found where the text stops matching the grammar; the others once a whole matching
text is read, in the order in which its parts are looked at.
-/

namespace ScriptTrace.Syntax

open Grammar (Position)

/-- Why a text is not accepted. -/
inductive Fault where
  | endOfInput
  | token (text : String)
  | constWithoutValue
  | parameterAfterRest
  | elementAfterRest
  | tryAlone
  | shorthandPattern
  | assignmentTarget
  | updateTarget
  | numberLiteral (text : String)
  | notOneExpression
  | nesting
  deriving DecidableEq, Repr

/-- The message of a fault, without its place. -/
def Fault.message : Fault → String
  | .endOfInput => "Unexpected end of input"
  | .token text => "Unexpected token '" ++ text ++ "'"
  | .constWithoutValue => "Missing initializer in const declaration"
  | .parameterAfterRest => "Rest parameter must be last formal parameter"
  | .elementAfterRest => "Rest element must be last element"
  | .tryAlone => "Missing catch or finally after try"
  | .shorthandPattern => "Invalid shorthand property pattern"
  | .assignmentTarget => "Invalid left-hand side in assignment"
  | .updateTarget => "Invalid left-hand side expression in update operation"
  | .numberLiteral text => "Invalid number literal '" ++ text ++ "'"
  | .notOneExpression => "Expected a single expression"
  | .nesting => "Nesting too deep"

/-- A fault and its place. -/
structure SyntaxError where
  fault : Fault
  position : Position
  deriving DecidableEq, Repr

/-- The message of a syntax error. -/
def SyntaxError.message (e : SyntaxError) : String := e.fault.message

/-- The whole text of an error. -/
def SyntaxError.text (e : SyntaxError) : String :=
  "SyntaxError: " ++ e.message ++ " (line " ++ toString e.position.line ++ ", column " ++
    toString e.position.column ++ ")"

/-- A part of a program, unless it has a fault. -/
abbrev Built (α : Type) := Except SyntaxError α

/-- The fault `f` at the place `p`. -/
def fault {α : Type} (f : Fault) (p : Position) : Built α := .error ⟨f, p⟩

/-- All the parts, or the first fault among them. -/
def allBuilt {α : Type} (parts : List (Built α)) : Built (List α) := parts.mapM id

/-- A part that may be missing. -/
def optionBuilt {α : Type} : Option (Built α) → Built (Option α)
  | none => .ok none
  | some part => part.map some

end ScriptTrace.Syntax
