import ScriptTrace.Evaluation.Call

/-!
# Evaluation/Expression — expressions

Operands are evaluated from left to right, and those that an operator does not need are left alone.
Expressions record no step of their own; the calls inside them do.
-/

namespace ScriptTrace

open Syntax (Expr ExprNode Property Pattern UnaryOperator UpdateOperator BinaryOperator
  LogicalOperator AssignOperator)

/-- The name that an expression is, if it is one. -/
def Syntax.Expr.name? (e : Expr) : Option String :=
  match e.node with
  | .name x => some x
  | _ => none

/-- What `delete` does with an operand. -/
inductive Deletion where
  /-- A name stays. -/
  | refused
  /-- A property is removed. -/
  | property
  /-- Any other operand is evaluated and nothing else. -/
  | idle

/-- What `delete` does with this operand. -/
def Syntax.Expr.deletion (e : Expr) : Deletion :=
  match e.node with
  | .name _ => .refused
  | .member .. => .property
  | _ => .idle

namespace Exec

/-- An operator on one value; `typeof` and `delete` look at their operand first. -/
def unary (op : UnaryOperator) (v : Value) (line : Nat) : Exec Value := do
  match op with
  | .not => return .bool (!v.isTruthy)
  | .negate => return .number (-(← number v))
  | .plus => return .number (← number v)
  | .bitNot => return .number (bitNot (← number v))
  | .void => return .undefined
  | .typeof => return .string ((← heap).typeName v)
  | .delete => misuse .unaryOperator line

end Exec

namespace Evaluator

variable (ev : Evaluator)

open Exec

/-- Adds the texts of expressions to a text, with the pieces between them; each sum of a text and a
value stays below the ceiling. -/
def templateText (scope : ScopeId) (line : Nat) : String → List Expr → List String → Exec String
  | out, [], _ => return out
  | out, e :: es, pieces => do
    let v ← ev.expr scope e
    let out := out ++ (← text v)
    checkStringLength out.utf8ByteSize line
    templateText scope line (out ++ pieces.headD "") es pieces.tail

/-- The properties of an object literal, added to those in `done`. -/
def properties (scope : ScopeId) : List Property → Props → Exec Props
  | [], done => return done
  | .keyed k e :: more, done => do
    let key ← ev.key scope k
    let v ← ev.exprNamed scope e key
    properties scope more (done.set key v)
  | .spread e :: more, done => do
    let source ← ev.expr scope e
    let entries := (← heap).ownEntries source
    properties scope more (entries.foldl (fun p e => p.set e.1 e.2) done)

/-- The value of the last of some expressions. -/
def sequence (scope : ScopeId) : Value → List Expr → Exec Value
  | last, [] => return last
  | _, e :: es => do
    let v ← ev.expr scope e
    sequence scope v es

/-- Evaluates an operator with one operand. -/
def evalUnary (scope : ScopeId) (op : UnaryOperator) (operand : Expr) (line : Nat) :
    Exec Value := do
  match op with
  | .delete =>
    match operand.deletion with
    | .refused => return .bool false
    | .idle =>
      discard (ev.expr scope operand)
      return .bool true
    | .property =>
      match ← ev.reference scope operand with
      | .property receiver key => deleteMember receiver key
      | .binding _ => pure ()
      return .bool true
  | .typeof =>
    let bound ← match operand.name? with
      | some x => pure (← valueOf? scope x).isSome
      | none => pure true
    if bound then unary op (← ev.expr scope operand) line else return .string "undefined"
  | op => unary op (← ev.expr scope operand) line

/-- Counts a target up or down; the value is the number behind or before the change. -/
def evalUpdate (scope : ScopeId) (op : UpdateOperator) (before : Bool) (target : Expr)
    (line : Nat) : Exec Value := do
  let r ← ev.reference scope target
  let old ← number (← readReference scope r line)
  let new := stepped op old
  writeReference scope r (.number new) line
  return .number (if before then new else old)

/-- **Evaluates an assignment.** -/
def evalAssign (scope : ScopeId) (op : AssignOperator) (target : Pattern) (value : Expr)
    (line : Nat) : Exec Value := do
  match op with
  | .plain =>
    let v ← ev.exprFor scope target value
    ev.bind scope target v .assign line
    return v
  | .compound op =>
    let r ← ev.patternReference scope target line
    let current ← readReference scope r line
    let operand ← ev.expr scope value
    let v ← binary op current operand line
    writeReference scope r v line
    return v
  | .logical op =>
    let r ← ev.patternReference scope target line
    let current ← readReference scope r line
    if isDecidedBy op current then return current
    let v ← ev.expr scope value
    writeReference scope r v line
    return v

/-- **Evaluates an expression.** -/
def evalExpr (scope : ScopeId) (e : Expr) : Exec Value := do
  let line := e.line
  match e.node with
  | .number x => return .number x
  | .string s => return .string s
  | .bool b => return .bool b
  | .null => return .null
  | .template pieces values =>
    return .string (← ev.templateText scope line (pieces.headD "") values pieces.tail)
  | .name x => valueOf scope x line
  | .this => return (← scopes).receiver scope
  | .array elements => makeArray (← ev.elements scope elements #[])
  | .object properties => makePlain (← ev.properties scope properties .empty)
  | .function f => makeClosure scope f ""
  | .unary op operand => ev.evalUnary scope op operand line
  | .update op before target => ev.evalUpdate scope op before target line
  | .binary op left right =>
    let l ← ev.expr scope left
    let r ← ev.expr scope right
    binary op l r line
  | .logical op left right =>
    let l ← ev.expr scope left
    if isDecidedBy op l then return l else ev.expr scope right
  | .assign op target value => ev.evalAssign scope op target value line
  | .conditional test yes no =>
    if (← ev.expr scope test).isTruthy then ev.expr scope yes else ev.expr scope no
  | .call callee args isOptional => ev.evalCall scope callee args isOptional line
  | .new callee args => ev.evalNew scope callee args line
  | .member object k isOptional =>
    let receiver ← ev.expr scope object
    if isOptional && receiver.isNullish then return .undefined
    let key ← ev.key scope k
    getMember receiver key line
  | .sequence items => ev.sequence scope .undefined items

end Evaluator

end ScriptTrace
