import ScriptTrace.Evaluation.Expression

/-!
# Evaluation/Statement — statements

A statement ends in a `Completion`, which the statement around it looks at; a thrown value travels
as a fault up to the next `try`.  Every statement and every iteration of a loop is one unit of work.
-/

namespace ScriptTrace

open Syntax (Expr ExprNode Pattern Stmt Declarator DeclarationKind ForStart LoopOver Handler Case
  UpdateOperator)

/-- The text of a condition in a step. -/
def boolText (b : Bool) : String := if b then "true" else "false"

/-- How a declaration writes its names: a `var` is bound already. -/
def declarationMode (kind : DeclarationKind) : BindMode :=
  match kind with
  | .var => .assign
  | .lexical => .declare .lexical
  | .const => .declare .const

/-- **What the end of its body means for a loop** behind a label: `none` that it goes on, or how the
loop ends. -/
def loopEnd? (label : Option String) (c : Completion) : Option Completion :=
  match c with
  | .normal | .continued none => none
  | .broken none => some .normal
  | .continued (some l) => if label = some l then none else some c
  | .broken (some l) => if label = some l then some .normal else some c
  | .returned _ => some c

/-- The cases of a `switch` from its default on. -/
def defaultCases (cases : List Case) : List Case := cases.dropWhile fun c => c.test.isSome

/-- The value that a target has after `++` or `--` gave this value. -/
def valueAfter (op : UpdateOperator) (before : Bool) (v : Value) : Value :=
  match v with
  | .number x => .number (if before then x else stepped op x)
  | v => v

namespace Evaluator

variable (ev : Evaluator)

open Exec

/-! ## Declarations and expressions -/

/-- Executes one declarator of a declaration. -/
def execDeclarator (scope : ScopeId) (kind : DeclarationKind) (d : Declarator) (line : Nat) :
    Exec Unit := do
  let target := kind.keyword ++ " " ++ d.target.text
  match kind, d.value with
  | .var, none => record scope line .declaration target
  | _, none =>
    ev.bind scope d.target .undefined (declarationMode kind) line
    record scope line .declaration target
  | _, some e =>
    let v ← ev.exprFor scope d.target e
    let shown ← inspect v
    ev.bind scope d.target v (declarationMode kind) line
    record scope line .declaration (target ++ " = " ++ shown)

/-- Executes the declarators of a declaration. -/
def execDeclarators (scope : ScopeId) (kind : DeclarationKind) (line : Nat) :
    List Declarator → Exec Unit
  | [] => return ()
  | d :: ds => do
    ev.execDeclarator scope kind d line
    execDeclarators scope kind line ds

/-- Executes an expression and shows it: an assignment always, others if nothing inside them was
shown. -/
def execExpression (scope : ScopeId) (e : Expr) (excerpt : String) (line : Nat) : Exec Unit := do
  let isNow (text target : String) (v : Value) : Exec Unit := do
    record scope line .assignment (text ++ " (" ++ target ++ " is now " ++ (← inspect v) ++ ")")
  match e.node with
  | .assign .plain target _ =>
    let v ← ev.expr scope e
    record scope line .assignment (target.text ++ " = " ++ (← inspect v))
  | .assign _ target _ => isNow e.text target.text (← ev.expr scope e)
  | .update op isBefore target =>
    isNow e.text target.text (valueAfter op isBefore (← ev.expr scope e))
  | _ => orElseShow (ev.expr scope e) (record scope line .expression excerpt)

/-! ## Blocks -/

/-- Executes the statements of a block in a scope of their own. -/
def execBlock (scope : ScopeId) (body : List Stmt) : Exec Completion := do
  let inner ← innerScope scope .block
  hoistBlock inner body
  ev.statements inner body

/-! ## Loops -/

/-- Evaluates the condition of a loop and shows it. -/
def loopTest (scope : ScopeId) (test : Expr) (word : String) (line : Nat) : Exec Bool := do
  let passed := (← ev.expr scope test).isTruthy
  record scope line .loop (word ++ " is " ++ boolText passed)
  return passed

/-- One iteration of a loop that tests first, and those after it. -/
def execWhile (scope : ScopeId) (test : Expr) (body : Stmt) (label : Option String) (line : Nat) :
    Exec Completion := do
  tick
  if !(← ev.loopTest scope test ("while (" ++ test.text ++ ")") line) then return .normal
  match loopEnd? label (← ev.statement scope body) with
  | some c => return c
  | none => ev.run (.whileLoop scope test body label line)

/-- One iteration of a loop that tests last, and those after it. -/
def execDoWhile (scope : ScopeId) (body : Stmt) (test : Expr) (label : Option String)
    (line : Nat) : Exec Completion := do
  tick
  match loopEnd? label (← ev.statement scope body) with
  | some c => return c
  | none =>
    if !(← ev.loopTest scope test ("do...while (" ++ test.text ++ ")") line) then return .normal
    ev.run (.doLoop scope body test label line)

/-- Whether a counting loop goes on. -/
def countingTest (scope : ScopeId) (loop : CountingLoop) : Exec Bool :=
  match loop.test with
  | some test => ev.loopTest scope test ("for: " ++ test.text) test.line
  | none => return true

/-- Changes what a counting loop counts. -/
def countingUpdate (scope : ScopeId) (loop : CountingLoop) : Exec Unit := do
  match loop.update with
  | some update =>
    enter scope
    discard (ev.expr scope update)
  | none => return ()

/-- The scope of the next iteration. -/
def nextScope (scope : ScopeId) (isFresh : Bool) : Exec ScopeId :=
  if isFresh then copyScope scope else return scope

/-- One iteration of a counting loop, and those after it. -/
def execCounting (scope : ScopeId) (loop : CountingLoop) : Exec Completion := do
  tick
  enter scope
  if !(← ev.countingTest scope loop) then return .normal
  match loopEnd? loop.label (← ev.statement scope loop.body) with
  | some c => return c
  | none =>
    let next ← nextScope scope loop.isFresh
    ev.countingUpdate next loop
    ev.run (.forLoop next loop)

/-- Executes the start of a counting loop and tells whether it declares lexical names. -/
def execStart (scope : ScopeId) (start : Option ForStart) (line : Nat) : Exec Bool := do
  match start with
  | some (.declare kind ds) =>
    ev.execDeclarators scope kind line ds
    return kind != .var
  | some (.expr e) =>
    discard (ev.expr scope e)
    return false
  | none => return false

/-- Executes a counting loop.  A loop over lexical names has a scope for each iteration, so that
functions made in its body keep the names as they were. -/
def execFor (scope : ScopeId) (start : Option ForStart) (test update : Option Expr) (body : Stmt)
    (label : Option String) : Exec Completion := do
  let outer ← innerScope scope .loop
  let isFresh ← ev.execStart outer start body.line
  let first ← nextScope outer isFresh
  ev.run (.forLoop first ⟨test, update, body, label, isFresh⟩)

/-- The scope of one iteration over values: loops that declare nothing stay where they are. -/
def eachScope (scope : ScopeId) (mode : BindMode) : Exec ScopeId :=
  if mode = .assign then return scope else innerScope scope .loop

/-- The iterations of a loop over values. -/
def execEach (scope : ScopeId) (word : String) (kind : Option DeclarationKind) (target : Pattern)
    (body : Stmt) (label : Option String) (line : Nat) : List Value → Exec Completion
  | [] => return .normal
  | v :: vs => do
    tick
    let mode := kind.elim .assign declarationMode
    let inner ← eachScope scope mode
    enter inner
    let shown ← inspect v
    ev.bind inner target v mode line
    record inner line .loop (word ++ target.text ++ " = " ++ shown)
    match loopEnd? label (← ev.statement inner body) with
    | some c => return c
    | none => execEach scope word kind target body label line vs

/-- What a loop runs over. -/
def loopItems (loop : LoopOver) (v : Value) (line : Nat) : Exec (List Value) := do
  match loop with
  | .values => return (← iterate v line).toList
  | .keys => return ((← heap).ownEntries v).map fun e => Value.string e.1

/-- Executes a loop over the values or the keys of a source. -/
def execForEach (scope : ScopeId) (loop : LoopOver) (kind : Option DeclarationKind)
    (target : Pattern) (source : Expr) (body : Stmt) (label : Option String) :
    Exec Completion := do
  let line := source.line
  let v ← ev.expr scope source
  let items ← loopItems loop v line
  ev.execEach scope ("for..." ++ loop.keyword ++ ": ") kind target body label line items

/-! ## Try and switch -/

/-- Binds a thrown value to the parameter of a handler. -/
def bindThrown (scope : ScopeId) (h : Handler) (t : Thrown) (line : Nat) : Exec Unit :=
  match h.parameter with
  | some p => ev.bind scope p t.value (.declare .lexical) line
  | none => return ()

/-- Runs a handler for a thrown value. -/
def execHandler (scope : ScopeId) (h : Handler) (t : Thrown) (line : Nat) :
    Exec (Except Thrown Completion) := do
  let inner ← innerScope scope .catch
  ev.bindThrown inner h t line
  record inner line .tryCatch ("Caught " ++ t.text)
  hoistBlock inner h.body
  catchThrown (ev.statements inner h.body)

/-- Gives what a body threw to its handler. -/
def handle (scope : ScopeId) (handler : Option Handler) (outcome : Except Thrown Completion)
    (line : Nat) : Exec (Except Thrown Completion) :=
  match outcome, handler with
  | .error t, some h => ev.execHandler scope h t line
  | outcome, _ => return outcome

/-- **Executes a `try`.**  A handler sees thrown values only.  What stands behind `finally` runs
unless the run is over, and counts if it does not end normally. -/
def execTry (scope : ScopeId) (body : List Stmt) (handler : Option Handler)
    (finalizer : Option (List Stmt)) (line : Nat) : Exec Completion := do
  record scope line .tryCatch "Enter try block"
  let outcome ← catchThrown (ev.execBlock scope body)
  let outcome ← ev.handle scope handler outcome line
  match finalizer with
  | none => resume outcome
  | some last =>
    enter scope
    record scope line .tryCatch "Run finally block"
    match ← ev.execBlock scope last with
    | .normal => resume outcome
    | abrupt => return abrupt

/-- The cases of a `switch` from the first one on whose test is the value. -/
def matchingCases (scope : ScopeId) (v : Value) : List Case → Exec (List Case)
  | [] => return []
  | c :: cs => do
    match c.test with
    | none => matchingCases scope v cs
    | some test =>
      let candidate ← ev.expr scope test
      if v.strictEquals candidate then return c :: cs else matchingCases scope v cs

/-- Executes cases one after another until one of them breaks. -/
def execCases (scope : ScopeId) : List Case → Exec Completion
  | [] => return .normal
  | c :: cs => do
    match ← ev.statements scope c.body with
    | .normal => execCases scope cs
    | .broken none => return .normal
    | abrupt => return abrupt

/-- **Executes a `switch`** from the matching case on, or from the default. -/
def execSwitch (scope : ScopeId) (value : Expr) (cases : List Case) (line : Nat) :
    Exec Completion := do
  let v ← ev.expr scope value
  let inner ← innerScope scope .block
  hoistBlock inner (cases.flatMap fun c => c.body)
  let matching ← ev.matchingCases inner v cases
  let chosen := if matching.isEmpty then defaultCases cases else matching
  let result := match chosen.head?.map fun c => c.test with
    | some (some test) => " matched case " ++ test.text
    | some none => " fell to default"
    | none => " matched no case"
  record inner line .condition ("switch (" ++ value.text ++ ")" ++ result)
  ev.execCases inner chosen

/-! ## All statements -/

/-- Shows a jump to a label or to the statement around it. -/
def execJump (scope : ScopeId) (kind : StepKind) (label : Option String) (line : Nat) :
    Exec Unit :=
  record scope line kind (kind.word ++ label.elim "" (" " ++ ·))

/-- The value that a `return` gives. -/
def returnValue (scope : ScopeId) (e : Option Expr) : Exec Value :=
  match e with
  | some e => ev.expr scope e
  | none => return .undefined

/-- **Executes a statement** behind a label. -/
def execStatement (scope : ScopeId) (label : Option String) (s : Stmt) : Exec Completion := do
  tick
  enter scope
  let line := s.line
  match s.node with
  | .declare kind ds =>
    ev.execDeclarators scope kind line ds
    return .normal
  | .function f =>
    record scope line .declaration ("function " ++ f.name.getD "" ++ " declared (hoisted)")
    return .normal
  | .return e =>
    let v ← ev.returnValue scope e
    record scope line .return ("return " ++ (← inspect v))
    return .returned v
  | .ifElse test yes no =>
    let passed := (← ev.expr scope test).isTruthy
    record scope line .condition ("if (" ++ test.text ++ ") is " ++ boolText passed)
    if passed then ev.statement scope yes
    else match no with
    | some s => ev.statement scope s
    | none => return .normal
  | .forLoop start test update body => ev.execFor scope start test update body label
  | .forEach loop kind target source body =>
    ev.execForEach scope loop kind target source body label
  | .while test body => ev.run (.whileLoop scope test body label line)
  | .doWhile body test => ev.run (.doLoop scope body test label line)
  | .break label =>
    execJump scope .break label line
    return .broken label
  | .continue label =>
    execJump scope .continue label line
    return .continued label
  | .throw e =>
    let v ← ev.expr scope e
    record scope line .throw ("throw " ++ (← inspect v))
    throwValue v line
  | .try body handler finalizer => ev.execTry scope body handler finalizer line
  | .switch value cases => ev.execSwitch scope value cases line
  | .labeled name body =>
    match ← ev.run (.statement scope (some name) body) with
    | .broken (some l) => return if l = name then .normal else .broken (some l)
    | c => return c
  | .block body => ev.execBlock scope body
  | .expr e =>
    ev.execExpression scope e s.excerpt line
    return .normal
  | .empty => return .normal

end Evaluator

end ScriptTrace
