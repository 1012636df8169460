import ScriptTrace.Library.Host
import ScriptTrace.Evaluation.Reference
import ScriptTrace.Syntax.Hoist

/-!
# Evaluation/Call — calls

A call of a function of the program pushes a frame, binds the parameters in a scope of its own
inside that of the function, and runs the body.  The frame is popped when the call returns or
throws; a fault that ends the run leaves it.
-/

namespace ScriptTrace

open Syntax (Expr ExprNode Element Pattern PatternElement Stmt Function FunctionBody)

/-- The name under which calls are shown. -/
def Closure.title (c : Closure) : String := if c.name.isEmpty then "(anonymous)" else c.name

/-- The value of `this` in a call of a closure; an arrow function has none of its own. -/
def Closure.receiver? (c : Closure) (this : Value) : Option Value :=
  if c.definition.isArrow then none
  else some (if this.isNullish then .globalThis else this)

/-- What a call expression calls. -/
inductive CallTarget where
  /-- A method of the host on its receiver. -/
  | method (receiver : Value) (name : String)
  | value (f this : Value)

namespace Exec

/-! ## Hoisting -/

/-- Binds the functions that a block declares. -/
def hoistBlock (scope : ScopeId) : List Stmt → Exec Unit
  | [] => return ()
  | s :: ss => do
    match s.node with
    | .function f =>
      let closure ← makeClosure scope f ""
      define scope (f.name.getD "") closure .function
    | _ => pure ()
    hoistBlock scope ss

/-- Binds variables that the scope itself does not bind yet. -/
def hoistNames (scope : ScopeId) : List String → Exec Unit
  | [] => return ()
  | x :: xs => do
    if ((← scopes).bindingIn? x scope).isNone then define scope x .undefined .var
    hoistNames scope xs

/-- **Binds the variables and functions of a body** before it runs. -/
def hoistBody (scope : ScopeId) (body : List Stmt) : Exec Unit := do
  hoistNames scope (Syntax.hoistedNames body)
  hoistBlock scope body

end Exec

namespace Evaluator

variable (ev : Evaluator)

open Exec

/-- Executes statements in order up to the first one that does not end normally. -/
def statements (scope : ScopeId) : List Stmt → Exec Completion
  | [] => return .normal
  | s :: ss => do
    match ← ev.statement scope s with
    | .normal => statements scope ss
    | abrupt => return abrupt

/-! ## Calls of closures -/

/-- The value of a parameter: `undefined` gives way to the fallback. -/
def parameterValue (scope : ScopeId) (p : PatternElement) (v : Value) : Exec Value :=
  match v, p.fallback with
  | .undefined, some fallback => ev.expr scope fallback
  | v, _ => return v

/-- Binds parameters to arguments and gives the arguments that are left. -/
def bindParameters (scope : ScopeId) (line : Nat) :
    List PatternElement → List Value → Exec (List Value)
  | [], args => return args
  | p :: ps, args => do
    let v ← ev.parameterValue scope p (argument args 0)
    ev.bind scope p.target v (.declare .var) line
    bindParameters scope line ps args.tail

/-- Binds the parameters of a function, the rest of the arguments as an array. -/
def bindArguments (scope : ScopeId) (f : Function) (args : List Value) : Exec Unit := do
  let line := f.position.line
  let remaining ← ev.bindParameters scope line f.parameters args
  match f.rest with
  | none => return ()
  | some rest =>
    let remaining ← makeArray remaining.toArray
    ev.bind scope rest remaining (.declare .var) line

/-- Runs the body of a function to the value it returns. -/
def runBody (scope : ScopeId) (body : FunctionBody) : Exec Value := do
  match body with
  | .expr e => ev.expr scope e
  | .block body =>
    hoistBody scope body
    match ← ev.statements scope body with
    | .returned v => return v
    | _ => return .undefined

/-- Makes the scope of a call.  A function that its own scope does not know by its name knows itself
by it. -/
def callScope (id : ObjectId) (c : Closure) (this : Value) : Exec ScopeId := do
  let scope ← newScope ⟨some c.scope, .function c.name, [], c.receiver? this⟩
  enter scope
  if !c.definition.isArrow && !c.name.isEmpty &&
      ((← scopes).lookup? c.scope c.name).isNone then
    define scope c.name (.object id) .function
  return scope

/-- Pops the frame of a call, goes back to the scope of the caller and shows the outcome. -/
def leave (caller : ScopeId) (line : Nat) (description : String) : Exec Unit := do
  popFrame
  enter caller
  record caller line .functionReturn description

/-- Binds the parameters of a call, shows it and runs the body. -/
def runCall (scope : ScopeId) (c : Closure) (args : List Value) (shown : String) (line : Nat) :
    Exec Value := do
  followedBy (ev.bindArguments scope c.definition args)
    (record scope line .functionCall ("Call " ++ c.title ++ "(" ++ shown ++ ")"))
  ev.runBody scope c.definition.body

/-- Ends a call with the outcome of its body. -/
def endCall (c : Closure) (caller : ScopeId) (line : Nat) (outcome : Except Thrown Value) :
    Exec Value := do
  match outcome with
  | .ok v => leave caller line (c.title ++ " returned " ++ (← inspect v))
  | .error t => leave caller line (c.title ++ " threw " ++ t.text)
  resume outcome

/-- **Calls a closure.** -/
def invoke (id : ObjectId) (c : Closure) (this : Value) (args : List Value) (line : Nat) :
    Exec Value := do
  tick
  let h ← heap
  let shown := ", ".intercalate (args.map h.inspect)
  pushFrame c.title line
  let caller ← currentScope
  let scope ← callScope id c this
  let outcome ← catchThrown (ev.runCall scope c args shown line)
  endCall c caller line outcome

/-- **Calls a value.** -/
def applyValue (f this : Value) (args : List Value) (line : Nat) : Exec Value := do
  match f with
  | .function f => ev.callHost f args line
  | .host h => ev.callConstructor h args line
  | .object id =>
    match ← body? id with
    | some (.closure c) => ev.invoke id c this args line
    | some (.bound target this bound) => ev.apply target this (bound ++ args) line
    | some (.method receiver name) => ev.callMethod receiver name args line
    | some (.resolver promise rejects) => callResolver promise rejects (argument args 0) line
    | _ => misuse (.notFunction (← inspect f)) line
  | _ => misuse (.notFunction (← inspect f)) line

/-! ## Call expressions -/

/-- What a callee means; `none` if an optional member of a nullish value cuts the call short. -/
def callTarget? (scope : ScopeId) (callee : Expr) : Exec (Option CallTarget) := do
  match callee.node with
  | .member object k isOptional =>
    let receiver ← ev.expr scope object
    if isOptional && receiver.isNullish then return none
    let key ← ev.key scope k
    if (← heap).hasMethod receiver key then return some (.method receiver key)
    return some (.value (← getMember receiver key callee.line) receiver)
  | _ => return some (.value (← ev.expr scope callee) .undefined)

/-- **Evaluates a call.**  The callee comes first, then the arguments; only then it matters whether
the callee can be called. -/
def evalCall (scope : ScopeId) (callee : Expr) (args : List Element) (isOptional : Bool)
    (line : Nat) : Exec Value := do
  match ← ev.callTarget? scope callee with
  | none => return .undefined
  | some (.method receiver name) =>
    let args ← ev.elements scope args #[]
    ev.callMethod receiver name args.toList line
  | some (.value f this) =>
    if isOptional && f.isNullish then return .undefined
    let args ← ev.elements scope args #[]
    if !(← isCallable f) then misuse (.notFunction callee.text) line
    ev.apply f this args.toList line

/-- Makes an object by a closure: a fresh object of its class, unless the closure returns data. -/
def instantiate (id : ObjectId) (c : Closure) (args : List Value) (line : Nat) : Exec Value := do
  let fresh ← allocate (.plain .empty) (if c.name.isEmpty then none else some c.name)
  let v ← ev.invoke id c (.object fresh) args line
  let h ← heap
  return if (v.objectId?.bind h.body?).any Body.isData then v else .object fresh

/-- **Evaluates `new`.** -/
def evalNew (scope : ScopeId) (callee : Expr) (args : List Element) (line : Nat) : Exec Value := do
  let constructor ← ev.expr scope callee
  let args ← ev.elements scope args #[]
  match constructor with
  | .host h => ev.construct h args.toList line
  | .object id =>
    match ← body? id with
    | some (.closure c) =>
      if c.definition.isArrow then misuse (.notConstructor callee.text) line
      ev.instantiate id c args.toList line
    | _ => misuse (.notConstructor callee.text) line
  | _ => misuse (.notConstructor callee.text) line

end Evaluator

end ScriptTrace
