import ScriptTrace.Evaluation.Work

/-!
# Evaluation/Promise — promises and reactions

A promise is settled at most once.  A reaction waits at a pending promise and is queued as soon as
it meets a settled one; settling, resolving and registering are the only ways in which a reaction
moves.
-/

namespace ScriptTrace

namespace Heap

/-- The name of the function that a reaction will call for an outcome. -/
def reactionName (h : Heap) (r : Reaction) (outcome : PromiseState) : String :=
  let handler := match outcome with
    | .fulfilled _ => r.onFulfilled
    | .rejected _ => r.onRejected
    | .pending => none
  match handler with
  | some f => h.functionName f
  | none => "passthrough"

/-- The task that runs a reaction for an outcome. -/
def reactionTask (h : Heap) (r : Reaction) (outcome : PromiseState) : Task :=
  ⟨r.kind.name ++ "(" ++ h.reactionName r outcome ++ ")", r.line, .reaction r outcome⟩

end Heap

namespace Exec

/-- Makes a pending promise. -/
def makePromise : Exec ObjectId := allocate (.promise ⟨.pending, []⟩) none

/-- The record of a promise. -/
def promise? (id : ObjectId) : Exec (Option PromiseRecord) := do
  match ← body? id with
  | some (.promise record) => return some record
  | _ => return none

/-- Queues a reaction for an outcome. -/
def queueReaction (r : Reaction) (outcome : PromiseState) : Exec Unit := do
  addMicrotask ((← heap).reactionTask r outcome)

/-- Lets a reaction wait, or queues it if the promise is settled; tells whether it was queued. -/
def addReaction (id : ObjectId) (r : Reaction) : Exec Bool := do
  match ← promise? id with
  | none => return false
  | some record =>
    match record.state with
    | .pending =>
      change id (.record { record with reactions := record.reactions ++ [r] })
      return false
    | settled =>
      queueReaction r settled
      return true

/-- Settles a pending promise and queues what waits for it. -/
def settle (id : ObjectId) (outcome : PromiseState) (line : Nat) : Exec Unit := do
  match ← promise? id with
  | none => return ()
  | some record =>
    if record.state.isPending then
      change id (.record ⟨outcome, []⟩)
      record.reactions.forM fun r => queueReaction r outcome
      match outcome with
      | .fulfilled v => recordHere line .promise ("Promise fulfilled with " ++ (← inspect v))
      | .rejected v => recordHere line .promise ("Promise rejected with " ++ (← inspect v))
      | .pending => return ()

/-- Rejects a promise. -/
def rejectPromise (id : ObjectId) (reason : Value) (line : Nat) : Exec Unit :=
  settle id (.rejected reason) line

/-- **Resolves a promise**: another promise is followed, every other value fulfils it. -/
def resolvePromise (id : ObjectId) (v : Value) (line : Nat) : Exec Unit := do
  let h ← heap
  match v.objectId?.filter fun other => other ≠ id && h.isPromise other with
  | some other =>
    discard (addReaction other ⟨.adopt, none, none, id, line⟩)
    recordHere line .promise "Promise follows the returned promise"
  | none => settle id (.fulfilled v) line

/-- Gives the outcome of one promise to another. -/
def passOn (derived : ObjectId) (outcome : PromiseState) (line : Nat) : Exec Unit :=
  match outcome with
  | .fulfilled v => resolvePromise derived v line
  | .rejected v => rejectPromise derived v line
  | .pending => return ()

/-- Calls a function that settles a promise; once it is settled that does nothing. -/
def callResolver (id : ObjectId) (rejects : Bool) (v : Value) (line : Nat) : Exec Value := do
  if (← promise? id).any (·.state.isPending) then
    if rejects then rejectPromise id v line else resolvePromise id v line
  return .undefined

/-- `Promise.resolve`: a promise stands for itself. -/
def promiseResolve (v : Value) (line : Nat) : Exec Value := do
  let h ← heap
  if v.objectId?.any h.isPromise then return v
  else
    let id ← makePromise
    settle id (.fulfilled v) line
    return .object id

/-- `Promise.reject`. -/
def promiseReject (reason : Value) (line : Nat) : Exec Value := do
  let id ← makePromise
  settle id (.rejected reason) line
  return .object id

/-- **Registers the reaction of a method call** at a promise and gives the promise it settles. -/
def register (id : ObjectId) (method : String) (args : List Value) (line : Nat) : Exec Value := do
  let h ← heap
  let callable (n : Nat) : Option Value := args[n]?.filter h.isCallable
  let parts : Option (ReactionKind × Option Value × Option Value) := match method with
    | "then" => some (.then, callable 0, callable 1)
    | "catch" => some (.catch, none, callable 0)
    | "finally" => some (.finally, callable 0, callable 0)
    | _ => none
  match parts with
  | none => misuse (.notFunction ("promise." ++ method)) line
  | some (kind, onFulfilled, onRejected) =>
    let derived ← makePromise
    let queued ← addReaction id ⟨kind, onFulfilled, onRejected, derived, line⟩
    recordHere line .promise
      (if queued then
        "." ++ method ++ "() callback queued as a microtask (promise already settled)"
      else "." ++ method ++ "() callback registered on pending promise")
    return .object derived

end Exec

namespace Evaluator

variable (ev : Evaluator)

open Exec

/-- `new Promise(executor)`: the executor runs at once, and what it throws rejects the promise. -/
def newPromise (executor : Value) (line : Nat) : Exec Value := do
  if !(← isCallable executor) then misuse (.promiseExecutor (← inspect executor)) line
  let id ← makePromise
  recordHere line .promise "new Promise created (pending)"
  let resolve ← make (.resolver id false)
  let reject ← make (.resolver id true)
  match ← catchThrown (ev.apply executor .undefined [resolve, reject] line) with
  | .ok _ => return .object id
  | .error t =>
    rejectPromise id t.value line
    return .object id

/-- The function that a reaction calls for an outcome. -/
def handlerOf (r : Reaction) (outcome : PromiseState) : Option Value :=
  match r.kind, outcome with
  | .adopt, _ => none
  | .finally, _ => r.onFulfilled
  | _, .fulfilled _ => r.onFulfilled
  | _, .rejected _ => r.onRejected
  | _, .pending => none

/-- The arguments of that function. -/
def handlerArguments (r : Reaction) (outcome : PromiseState) : List Value :=
  match r.kind, outcome with
  | .finally, _ => []
  | _, .fulfilled v => [v]
  | _, .rejected v => [v]
  | _, .pending => []

/-- **Runs a reaction** and settles its promise. -/
def react (r : Reaction) (outcome : PromiseState) : Exec Unit := do
  match handlerOf r outcome with
  | none => passOn r.derived outcome r.line
  | some handler =>
    match ← catchThrown (ev.apply handler .undefined (handlerArguments r outcome) r.line) with
    | .ok v =>
      if r.kind = .finally then passOn r.derived outcome r.line
      else resolvePromise r.derived v r.line
    | .error t => rejectPromise r.derived t.value r.line

end Evaluator

end ScriptTrace
