import ScriptTrace.Syntax.Tree

/-!
# Syntax/Hoist — the variables of a body

A `var` belongs to the whole function body around it, however deep inside other statements it
stands, but not inside another function.
-/

namespace ScriptTrace.Syntax

/-- The names that declarators bind. -/
def declaredNames (ds : List Declarator) : List String := ds.flatMap fun d => d.target.names

/-- The names of a declaration of this kind, if it is a `var`. -/
def varNames (kind : DeclarationKind) (names : List String) : List String :=
  if kind = .var then names else []

/-- The names that the start of a counting loop declares with `var`. -/
def ForStart.varNames : ForStart → List String
  | .declare kind ds => Syntax.varNames kind (declaredNames ds)
  | .expr _ => []

mutual

/-- The names that a statement declares with `var`, as often as it does. -/
def Stmt.varNames : Stmt → List String
  | .mk node _ _ => node.varNames

/-- The names that `var` declares in a statement, wherever it stands in it. -/
def StmtNode.varNames : StmtNode → List String
  | .declare kind ds => Syntax.varNames kind (declaredNames ds)
  | .ifElse _ yes no => yes.varNames ++ optionVarNames no
  | .forLoop start _ _ body => (start.elim [] ForStart.varNames) ++ body.varNames
  | .forEach _ kind target _ body =>
    (kind.elim [] fun k => Syntax.varNames k target.names) ++ body.varNames
  | .while _ body => body.varNames
  | .doWhile body _ => body.varNames
  | .labeled _ body => body.varNames
  | .try body handler finalizer =>
    listVarNames body ++ handlerVarNames handler ++ finalizerVarNames finalizer
  | .switch _ cases => caseVarNames cases
  | .block body => listVarNames body
  | _ => []

/-- The names that `var` declares in a list of statements. -/
def listVarNames : List Stmt → List String
  | [] => []
  | s :: ss => s.varNames ++ listVarNames ss

/-- The names that `var` declares in a statement that may be missing. -/
def optionVarNames : Option Stmt → List String
  | none => []
  | some s => s.varNames

/-- The names that `var` declares in a handler that may be missing. -/
def handlerVarNames : Option Handler → List String
  | none => []
  | some h => h.varNames

/-- The names that `var` declares in a handler. -/
def Handler.varNames : Handler → List String
  | .mk _ body => listVarNames body

/-- The names that `var` declares in a finalizer that may be missing. -/
def finalizerVarNames : Option (List Stmt) → List String
  | none => []
  | some body => listVarNames body

/-- The names that `var` declares in the cases of a `switch`. -/
def caseVarNames : List Case → List String
  | [] => []
  | c :: cs => c.varNames ++ caseVarNames cs

/-- The names that `var` declares in a case. -/
def Case.varNames : Case → List String
  | .mk _ body => listVarNames body

end

/-- **The variables of a body**, each once, in the order of the text. -/
def hoistedNames (body : List Stmt) : List String := (listVarNames body).eraseDups

end ScriptTrace.Syntax
