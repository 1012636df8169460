import ScriptTrace.Evaluation.Operator

/-!
# Evaluation/Reference — what can be written to

A reference is a name or a property whose receiver and key are known.  Patterns take a value apart
and write its parts to names and references.
-/

namespace ScriptTrace

open Syntax (Expr ExprNode Key Pattern PatternElement PropertyPattern Slot Element)

/-- Something that can be read and written. -/
inductive Reference where
  | binding (name : String)
  | property (receiver : Value) (key : String)

/-- Makes a closure over a scope; a function without a name takes the one it is bound to. -/
def Exec.makeClosure (scope : ScopeId) (f : Syntax.Function) (boundTo : String) : Exec Value :=
  make (.closure ⟨f.name.getD boundTo, f, scope⟩)

/-- The function of an expression that is one without a name. -/
def anonymousFunction? (e : Expr) : Option Syntax.Function :=
  match e.node with
  | .function f => if f.name.isNone then some f else none
  | _ => none

namespace Evaluator

variable (ev : Evaluator)

open Exec

/-- Evaluates an expression whose value is bound to a name. -/
def exprNamed (scope : ScopeId) (e : Expr) (name : String) : Exec Value :=
  match anonymousFunction? e with
  | some f => makeClosure scope f name
  | none => ev.expr scope e

/-- Evaluates an expression whose value goes to a target; a name that it goes to counts. -/
def exprFor (scope : ScopeId) (target : Pattern) (e : Expr) : Exec Value :=
  match target with
  | .name x => ev.exprNamed scope e x
  | _ => ev.expr scope e

/-- The key of a property. -/
def key (scope : ScopeId) (k : Key) : Exec String :=
  match k with
  | .static name => return name
  | .computed e => do text (← ev.expr scope e)

/-- The reference that an expression stands for. -/
def reference (scope : ScopeId) (target : Expr) : Exec Reference :=
  match target.node with
  | .name x => return .binding x
  | .member object k _ => do
    let receiver ← ev.expr scope object
    return .property receiver (← ev.key scope k)
  | _ => misuse (.assignmentTarget target.text) target.line

/-- The reference that a pattern stands for, which must be a single one. -/
def patternReference (scope : ScopeId) (target : Pattern) (line : Nat) : Exec Reference :=
  match target with
  | .name x => return .binding x
  | .member e => ev.reference scope e
  | _ => misuse .compoundTarget line

end Evaluator

namespace Exec

/-- Reads a reference. -/
def readReference (scope : ScopeId) (r : Reference) (line : Nat) : Exec Value :=
  match r with
  | .binding name => valueOf scope name line
  | .property receiver key => getMember receiver key line

/-- Writes to a reference. -/
def writeReference (scope : ScopeId) (r : Reference) (v : Value) (line : Nat) : Exec Unit :=
  match r with
  | .binding name => assign scope name v line
  | .property receiver key => setMember receiver key v line

end Exec

/-! ## Patterns -/

namespace Evaluator

variable (ev : Evaluator)

open Exec

/-- Writes a value to a part of a pattern; `undefined` gives way to the fallback. -/
def bindElement (scope : ScopeId) (element : PatternElement) (v : Value) (mode : BindMode)
    (line : Nat) : Exec Unit := do
  let v ←
    match v, element.fallback with
    | .undefined, some fallback => ev.exprFor scope element.target fallback
    | v, _ => pure v
  ev.bind scope element.target v mode line

/-- Writes elements to the slots of an array pattern, the next one from place `n`. -/
def bindSlots (scope : ScopeId) (items : Array Value) (mode : BindMode) (line : Nat) :
    Nat → List Slot → Exec Unit
  | _, [] => return ()
  | n, .hole :: slots => bindSlots scope items mode line (n + 1) slots
  | n, .filled element :: slots => do
    ev.bindElement scope element (items.getD n .undefined) mode line
    bindSlots scope items mode line (n + 1) slots

/-- Writes properties to the parts of an object pattern, and gives the keys it read. -/
def bindProperties (scope : ScopeId) (v : Value) (mode : BindMode) (line : Nat) :
    List PropertyPattern → Exec (List String)
  | [] => return []
  | property :: more => do
    let k ← ev.key scope property.key
    let item ← getMember v k line
    ev.bindElement scope property.element item mode line
    return k :: (← bindProperties scope v mode line more)

/-- **Writes a value to a pattern.** -/
def bindPattern (scope : ScopeId) (p : Pattern) (v : Value) (mode : BindMode) (line : Nat) :
    Exec Unit :=
  match p with
  | .name x =>
    match mode with
    | .declare kind => define scope x v kind
    | .assign => assign scope x v line
  | .member target => do
    let r ← ev.reference scope target
    writeReference scope r v line
  | .array slots rest => do
    let items ← iterate v line
    ev.bindSlots scope items mode line 0 slots
    match rest with
    | none => return ()
    | some rest =>
      let remaining ← makeArray (items.drop slots.length)
      ev.bind scope rest remaining mode line
  | .object properties rest => do
    if v.isNullish then misuse (.destructuring (← inspect v)) line
    let used ← ev.bindProperties scope v mode line properties
    match rest with
    | none => return ()
    | some rest =>
      let entries := ((← heap).ownEntries v).filter fun e => !used.contains e.1
      let remaining ← makePlain (.ofList entries)
      ev.bind scope rest remaining mode line

/-! ## Elements -/

/-- Evaluates the elements of an array or the arguments of a call, behind those in `done`. -/
def elements (scope : ScopeId) : List Element → Array Value → Exec (Array Value)
  | [], done => return done
  | .single e :: more, done => do
    let v ← ev.expr scope e
    elements scope more (done.push v)
  | .spread e :: more, done => do
    let source ← ev.expr scope e
    let items ← iterate source e.line
    checkArrayLength (done.size + items.size) e.line
    elements scope more (done ++ items)

end Evaluator

end ScriptTrace
