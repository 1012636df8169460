import ScriptTrace.Proofs.Defence.Proper
import ScriptTrace.Proofs.Syntax.Program

/-!
# Proofs/Defence/Evaluation — proper syntax is evaluated properly

Every function of the evaluator hands work on proper syntax on to the parts of that syntax, and
makes closures of functions in it only.  By induction on the fuel every piece of work upholds what
is proper (`Evaluator.isProper_bounded`), so no run of a program that was read ends in a defensive
fault.
-/

namespace ScriptTrace

open Syntax (Expr ExprNode Element Property Key Pattern PatternElement PropertyPattern Slot Stmt
  StmtNode Declarator DeclarationKind ForStart LoopOver Handler Case Node Program Proper)

/-- A name or a member: all that a value can be written to. -/
def Syntax.Expr.IsPlace (e : Expr) : Prop :=
  match e.node with
  | .name _ | .member .. => True
  | _ => False

namespace Syntax

theorem Expr.isPlace_of_isReference {e : Expr} (h : e.isReference = true) : e.IsPlace := by
  obtain ⟨node, p⟩ := e
  cases node <;> trivial

theorem Expr.IsMember.isPlace {e : Expr} (h : e.IsMember) : e.IsPlace := by
  obtain ⟨object, key, p, rfl⟩ := h
  trivial

theorem Expr.isPlace_of_deletion {e : Expr} (h : e.deletion = .property) : e.IsPlace := by
  obtain ⟨node, p⟩ := e
  cases node <;> trivial

theorem proper_expr {e : Expr} :
    Proper e.nodes ↔ (Node.expr e.node).WellFormed ∧ Proper e.node.inside := by
  cases e
  exact proper_cons

theorem proper_function {f : Function} : Proper f.nodes ↔
    Proper (parametersNodes f.parameters) ∧ Proper (bindingNodes f.rest) ∧ Proper f.body.nodes := by
  cases f
  simp [Function.parameters, Function.rest, Function.body, Node.WellFormed]

end Syntax

open Syntax (proper_expr proper_function)

namespace Upholds

variable {ev : Evaluator} {α β : Type} {scope : ScopeId} {line : Nat} (hev : ev.IsProper)

/-! ## References and patterns -/

theorem makeClosure {f : Syntax.Function} {name : String} (h : Proper f.nodes) :
    Upholds ev (fun _ => Exec.makeClosure scope f name) Any where
  yields _ _ := trivial
  keeps hm := hm.add (by rintro _ ⟨⟩; exact h) rfl
  fault := nofun

include hev

theorem expr {e : Expr} (h : Proper e.nodes) : Upholds ev (fun ev => ev.expr scope e) Any :=
  hev (w := .expr scope e) h

theorem bindTo {p : Pattern} {v : Value} {mode : BindMode} (h : Proper p.nodes) :
    Upholds ev (fun ev => ev.bind scope p v mode line) Any :=
  hev (w := .bind scope p v mode line) h

/-- A function that takes a name keeps its well-formed tree. -/
theorem exprNamed {e : Expr} {name : String} (h : Proper e.nodes) :
    Upholds ev (fun ev => ev.exprNamed scope e name) Any := by
  unfold Evaluator.exprNamed
  split
  · rename_i f hf
    refine makeClosure ?_
    obtain ⟨node, p⟩ := e
    cases node <;> simp_all [anonymousFunction?, Expr.node]
  · exact expr hev h

theorem exprFor {target : Pattern} {e : Expr} (h : Proper e.nodes) :
    Upholds ev (fun ev => ev.exprFor scope target e) Any := by
  unfold Evaluator.exprFor
  split
  · exact exprNamed hev h
  · exact expr hev h

theorem key {k : Key} (h : Proper k.nodes) : Upholds ev (fun ev => ev.key scope k) Any := by
  cases k with
  | static name => exact .pure trivial
  | computed e => exact andThen (expr hev h) fun _ => plain hev .text

/-- A name or a member is a reference. -/
theorem reference {target : Expr} (h : Proper target.nodes) (hplace : target.IsPlace) :
    Upholds ev (fun ev => ev.reference scope target) Any := by
  obtain ⟨node, p⟩ := target
  cases node with
  | name x => exact .pure trivial
  | member object k isOptional =>
    obtain ⟨hobject, hk⟩ : Proper object.nodes ∧ Proper k.nodes := by
      simpa [Node.WellFormed] using h
    exact andThen (expr hev hobject) fun _ => andThen (key hev hk) fun _ => .pure trivial
  | _ => exact hplace.elim

/-- A name or a member is all that operators assign to. -/
theorem patternReference {target : Pattern} (h : Proper target.nodes)
    (hreference : target.IsReference) :
    Upholds ev (fun ev => ev.patternReference scope target line) Any := by
  cases target with
  | name x => exact .pure trivial
  | member e =>
    rw [Pattern.nodes, Syntax.proper_cons] at h
    exact reference hev h.2 (Expr.IsMember.isPlace hreference)
  | _ => exact hreference.elim

theorem readReference {r : Reference} :
    Upholds ev (fun _ => Exec.readReference scope r line) Any :=
  host hev (.readReference (within_univ _))

theorem writeReference {r : Reference} {v : Value} :
    Upholds ev (fun _ => Exec.writeReference scope r v line) Any :=
  host hev (.writeReference (within_univ _) (within_univ _))

/-- A default value is a part of the pattern, and so well formed. -/
theorem bindElement {element : PatternElement} {v : Value} {mode : BindMode}
    (h : Proper element.nodes) :
    Upholds ev (fun ev => ev.bindElement scope element v mode line) Any := by
  obtain ⟨target, fallback⟩ := element
  obtain ⟨htarget, hfallback⟩ := Syntax.proper_append.mp h
  unfold Evaluator.bindElement
  split
  · rename_i e heq
    cases heq
    exact andThen (exprFor hev hfallback) fun _ => bindTo hev htarget
  · exact andThen (.pure trivial) fun _ => bindTo hev htarget

theorem bindSlots {items : Array Value} {mode : BindMode} {place : Nat} {slots : List Slot}
    (h : ∀ slot ∈ slots, Proper slot.nodes) :
    Upholds ev (fun ev => ev.bindSlots scope items mode line place slots) Any := by
  induction slots generalizing place with
  | nil => exact .pure trivial
  | cons slot slots ih =>
    obtain ⟨hslot, hslots⟩ := List.forall_mem_cons.mp h
    cases slot with
    | hole => exact ih hslots
    | filled element => exact andThen (bindElement hev hslot) fun _ => ih hslots

theorem bindProperties {v : Value} {mode : BindMode} : ∀ {properties : List PropertyPattern},
    (∀ property ∈ properties, Proper property.nodes) →
      Upholds ev (fun ev => ev.bindProperties scope v mode line properties) Any
  | [], _ => .pure trivial
  | .mk k element :: properties, h => by
    obtain ⟨hproperty, hproperties⟩ := List.forall_mem_cons.mp h
    obtain ⟨hk, helement⟩ := Syntax.proper_append.mp hproperty
    refine andThen (key hev hk) fun _ => andThen (host hev (.getMember (within_univ _))) fun _ => ?_
    refine andThen (bindElement hev helement) fun _ => ?_
    exact andThen (bindProperties hproperties) fun _ => .pure trivial

/-- **A value is written to a proper pattern.** -/
theorem bindPattern {p : Pattern} {v : Value} {mode : BindMode} (h : Proper p.nodes) :
    Upholds ev (fun ev => ev.bindPattern scope p v mode line) Any := by
  cases p with
  | name x =>
    cases mode with
    | declare kind => exact plain hev (.define (sees_univ _) (within_univ _))
    | assign => exact plain hev (.assign (within_univ _))
  | member target =>
    obtain ⟨hmember, htarget⟩ := Syntax.proper_cons.mp h
    have hplace := Expr.IsMember.isPlace hmember
    exact andThen (reference hev htarget hplace) fun _ => writeReference hev
  | array slots rest =>
    obtain ⟨hslots, hrest⟩ : (∀ slot ∈ slots, Proper slot.nodes) ∧
        Proper (Syntax.restNodes rest) := by simpa [Node.WellFormed] using h
    refine andThen (plain hev .iterate) fun items => andThen (bindSlots hev hslots) fun _ => ?_
    cases rest with
    | none => exact .pure trivial
    | some rest => exact andThen (host hev (.makeArray (within_univ _))) fun _ => bindTo hev hrest
  | object properties rest =>
    obtain ⟨hproperties, hrest⟩ : (∀ property ∈ properties, Proper property.nodes) ∧
        Proper (Syntax.restNodes rest) := by simpa [Node.WellFormed] using h
    refine ite (andThen (plain hev .inspect) fun _ => plain hev (.misuse rfl)) ?_
    refine andThen (bindProperties hev hproperties) fun used => ?_
    cases rest with
    | none => exact .pure trivial
    | some rest =>
      refine andThen (plain hev (.elementary .heap)) fun _ => ?_
      exact andThen (host hev (.makePlain (within_univ _))) fun _ => bindTo hev hrest

theorem elements : ∀ {es : List Element} {done : Array Value}, (∀ e ∈ es, Proper e.nodes) →
    Upholds ev (fun ev => ev.elements scope es done) Any
  | [], _, _ => .pure trivial
  | .single e :: _, _, h => by
    obtain ⟨he, hes⟩ := List.forall_mem_cons.mp h
    exact andThen (expr hev he) fun _ => elements hes
  | .spread e :: _, _, h => by
    obtain ⟨he, hes⟩ := List.forall_mem_cons.mp h
    refine andThen (expr hev he) fun _ => andThen (plain hev .iterate) fun _ => ?_
    exact andThen (plain hev .checkArrayLength) fun _ => elements hes

/-! ## Calls -/

/-- Of a well-formed block only well-formed functions are made. -/
theorem hoistBlock {ss : List Stmt} (h : ∀ s ∈ ss, Proper s.nodes) :
    Upholds ev (fun _ => Exec.hoistBlock scope ss) Any := by
  induction ss with
  | nil => exact .pure trivial
  | cons s ss ih =>
    obtain ⟨hs, hss⟩ := List.forall_mem_cons.mp h
    unfold Exec.hoistBlock
    split
    · rename_i f hf
      obtain ⟨node, p, excerpt⟩ := s
      cases hf
      refine andThen (makeClosure ?_) fun _ => andThen ?_ fun _ => ih hss
      · simpa [Node.WellFormed] using hs
      · exact plain hev (.define (sees_univ _) (within_univ _))
    · exact ih hss

theorem hoistBody {body : List Stmt} (h : ∀ s ∈ body, Proper s.nodes) :
    Upholds ev (fun _ => Exec.hoistBody scope body) Any :=
  andThen (plain hev (Action.hoistNames (sees_univ _))) fun _ => hoistBlock hev h

theorem statement {s : Stmt} (h : Proper s.nodes) :
    Upholds ev (fun ev => ev.statement scope s) Any := hev (w := .statement scope none s) h

theorem statements {ss : List Stmt} (h : ∀ s ∈ ss, Proper s.nodes) :
    Upholds ev (fun ev => ev.statements scope ss) Any := by
  induction ss with
  | nil => exact .pure trivial
  | cons s ss ih =>
    obtain ⟨hs, hss⟩ := List.forall_mem_cons.mp h
    refine andThen (statement hev hs) fun c => ?_
    split
    · exact ih hss
    · exact .pure trivial

theorem parameterValue {p : PatternElement} {v : Value}
    (h : Proper (Syntax.optionExprNodes p.fallback)) :
    Upholds ev (fun ev => ev.parameterValue scope p v) Any := by
  unfold Evaluator.parameterValue
  split
  · rename_i heq
    rw [heq] at h
    exact expr hev h
  · exact .pure trivial

/-- Each parameter and its default value is well formed. -/
theorem bindParameters {ps : List PatternElement} {args : List Value}
    (h : ∀ p ∈ ps, Proper p.nodes) :
    Upholds ev (fun ev => ev.bindParameters scope line ps args) Any := by
  induction ps generalizing args with
  | nil => exact .pure trivial
  | cons p ps ih =>
    obtain ⟨target, fallback⟩ := p
    obtain ⟨hp, hps⟩ := List.forall_mem_cons.mp h
    obtain ⟨htarget, hfallback⟩ := Syntax.proper_append.mp hp
    refine andThen (parameterValue hev hfallback) fun v => ?_
    exact andThen (bindTo hev htarget) fun _ => ih hps

theorem bindArguments {f : Syntax.Function} {args : List Value} (h : Proper f.nodes) :
    Upholds ev (fun ev => ev.bindArguments scope f args) Any := by
  obtain ⟨hparameters, hrest, -⟩ := proper_function.mp h
  refine andThen (bindParameters hev fun p hp => ?_) fun remaining => ?_
  · simp only [Syntax.parametersNodes_eq, Syntax.proper_flatMap, Syntax.proper_cons] at hparameters
    exact (hparameters p hp).2
  · split
    · exact .pure trivial
    · rename_i heq
      rw [heq] at hrest
      refine andThen (host hev (.makeArray (within_univ _))) fun _ => ?_
      exact bindTo hev (Syntax.proper_cons.mp hrest).2

theorem runBody {body : Syntax.FunctionBody} (h : Proper body.nodes) :
    Upholds ev (fun ev => ev.runBody scope body) Any := by
  cases body with
  | expr e => exact expr hev h
  | block body =>
    have hbody : ∀ s ∈ body, Proper s.nodes := by simpa using h
    refine andThen (hoistBody hev hbody) fun _ => andThen (statements hev hbody) fun c => ?_
    split
    · exact .pure trivial
    · exact .pure trivial

/-- **A call of a function of proper syntax.** -/
theorem invoke {id : ObjectId} {c : Closure} {this : Value} {args : List Value}
    (h : Proper c.definition.nodes) :
    Upholds ev (fun ev => ev.invoke id c this args line) Any := by
  have hcall : Routine .host (fun W _ x Q => W = Set.univ → Upholds ev x (Q Set.univ)) Set.univ
      (fun ev => ev.invoke id c this args line) Within := by
    refine .invoke (Set.mem_univ _) (within_univ _) (within_univ _) ?_ ?_
    · exact fun _ _ scope _ _ => bindArguments hev h
    · refine fun _ _ scope _ _ => (runBody hev ?_).weaken fun _ _ => within_univ _
      exact (proper_function.mp h).2.2
  exact ((upholds_composable hev).routine upholds_calls hcall rfl).any

omit hev in
/-- The functions on the heap of a proper machine are of proper syntax. -/
theorem body? {id : ObjectId} : Upholds ev (fun _ => Exec.body? id)
    fun b => ∀ c, b = some (.closure c) → Proper c.definition.nodes where
  yields hm h c hc := by
    cases h
    exact hm hc
  keeps hm := hm
  fault := nofun

/-- **A value is called.** -/
theorem applyValue {f this : Value} {args : List Value} :
    Upholds ev (fun ev => ev.applyValue f this args line) Any := by
  cases f
  case function f => exact host hev (.callHost (within_univ _))
  case host h => exact host hev (.callConstructor (within_univ _))
  case object id =>
    refine .bind body? fun b hb => ?_
    split
    · exact invoke hev (hb _ rfl)
    · exact host hev (.apply (within_univ _) (within_univ _) (within_univ _))
    · exact host hev (.callMethod (within_univ _) (within_univ _))
    · exact plain hev (.callResolver ⟨Set.mem_univ _, Set.mem_univ _⟩ (within_univ _))
    · exact plain hev (.bind .inspect fun _ _ => .misuse rfl)
  case undefined | null | bool | number | string | globalThis =>
    exact plain hev (.bind .inspect fun _ _ => .misuse rfl)

/-- Callee and receiver are parts of the call. -/
theorem callTarget? {callee : Expr} (h : Proper callee.nodes) :
    Upholds ev (fun ev => ev.callTarget? scope callee) Any := by
  unfold Evaluator.callTarget?
  split
  · rename_i object k _ heq
    obtain ⟨-, hinside⟩ := proper_expr.mp h
    rw [heq] at hinside
    obtain ⟨hobject, hk⟩ := Syntax.proper_append.mp hinside
    refine andThen (expr hev hobject) fun _ => ite (.pure trivial) ?_
    refine andThen (key hev hk) fun _ => andThen (plain hev (.elementary .heap)) fun _ => ?_
    refine ite (.pure trivial) (andThen (host hev (.getMember (within_univ _))) fun _ => ?_)
    exact .pure trivial
  · exact andThen (expr hev h) fun _ => .pure trivial

/-- A call evaluates its parts, and the closure that it calls is well formed already. -/
theorem evalCall {callee : Expr} {args : List Element} {isOptional : Bool}
    (hc : Proper callee.nodes) (ha : ∀ e ∈ args, Proper e.nodes) :
    Upholds ev (fun ev => ev.evalCall scope callee args isOptional line) Any := by
  refine andThen (callTarget? hev hc) fun target => ?_
  split
  · exact .pure trivial
  · refine andThen (elements hev ha) fun _ => ?_
    exact host hev (.callMethod (within_univ _) (within_univ _))
  · refine ite (.pure trivial) (andThen (elements hev ha) fun _ => ?_)
    refine andThen (plain hev .isCallable) fun _ => ite (plain hev (.misuse rfl)) ?_
    exact host hev (.apply (within_univ _) (within_univ _) (within_univ _))

theorem instantiate {id : ObjectId} {c : Closure} {args : List Value}
    (h : Proper c.definition.nodes) :
    Upholds ev (fun ev => ev.instantiate id c args line) Any :=
  andThen (host hev (.allocate (within_univ _) rfl nofun)) fun _ => andThen (invoke hev h) fun _ =>
    andThen (plain hev (.elementary .heap)) fun _ => .pure trivial

theorem evalNew {callee : Expr} {args : List Element} (hc : Proper callee.nodes)
    (ha : ∀ e ∈ args, Proper e.nodes) :
    Upholds ev (fun ev => ev.evalNew scope callee args line) Any := by
  refine andThen (expr hev hc) fun constructor => andThen (elements hev ha) fun _ => ?_
  split
  · exact host hev (.construct (within_univ _))
  · refine .bind body? fun b hb => ?_
    split
    · exact ite (plain hev (.misuse rfl)) (instantiate hev (hb _ rfl))
    · exact plain hev (.misuse rfl)
  · exact plain hev (.misuse rfl)

/-! ## Expressions -/

theorem templateText : ∀ {es : List Expr} {out : String} {pieces : List String},
    (∀ e ∈ es, Proper e.nodes) → Upholds ev (fun ev => ev.templateText scope line out es pieces) Any
  | [], _, _, _ => .pure trivial
  | _ :: _, _, _, h => by
    obtain ⟨he, hes⟩ := List.forall_mem_cons.mp h
    refine andThen (expr hev he) fun _ => andThen (plain hev .text) fun _ => ?_
    exact andThen (plain hev .checkStringLength) fun _ => templateText hes

theorem properties : ∀ {ps : List Property} {done : Props}, (∀ p ∈ ps, Proper p.nodes) →
    Upholds ev (fun ev => ev.properties scope ps done) Any
  | [], _, _ => .pure trivial
  | .keyed _ _ :: _, _, h => by
    obtain ⟨hp, hps⟩ := List.forall_mem_cons.mp h
    obtain ⟨hk, hvalue⟩ := Syntax.proper_append.mp hp
    exact andThen (key hev hk) fun _ => andThen (exprNamed hev hvalue) fun _ => properties hps
  | .spread _ :: _, _, h => by
    obtain ⟨hp, hps⟩ := List.forall_mem_cons.mp h
    refine andThen (expr hev hp) fun _ => andThen (plain hev (.elementary .heap)) fun _ => ?_
    exact properties hps

theorem sequence : ∀ {es : List Expr} {last : Value}, (∀ e ∈ es, Proper e.nodes) →
    Upholds ev (fun ev => ev.sequence scope last es) Any
  | [], _, _ => .pure trivial
  | _ :: _, _, h => by
    obtain ⟨he, hes⟩ := List.forall_mem_cons.mp h
    exact andThen (expr hev he) fun _ => sequence hes

theorem evalOperand {op : Syntax.UnaryOperator} {operand : Expr} (h : Proper operand.nodes)
    (hop : op ≠ .delete) :
    Upholds ev (fun ev => ev.expr scope operand >>= fun v => Exec.unary op v line) Any :=
  andThen (expr hev h) fun _ => plain hev (Action.unary hop)

/-- Only what is a property is deleted. -/
theorem evalUnary {op : Syntax.UnaryOperator} {operand : Expr} (h : Proper operand.nodes) :
    Upholds ev (fun ev => ev.evalUnary scope op operand line) Any := by
  cases op
  case delete =>
    unfold Evaluator.evalUnary
    dsimp only
    split
    · exact .pure trivial
    · exact andThen (andThen (expr hev h) fun _ => .pure trivial) fun _ => .pure trivial
    · rename_i hproperty
      refine andThen (reference hev h (Syntax.Expr.isPlace_of_deletion hproperty)) fun r => ?_
      split
      · exact andThen (plain hev (.deleteMember (within_univ _))) fun _ => .pure trivial
      · exact .pure trivial
  case typeof =>
    unfold Evaluator.evalUnary
    dsimp only
    split
    · refine andThen (plain hev .valueOf?) fun _ => andThen (.pure trivial) fun _ => ?_
      exact ite (evalOperand hev h nofun) (.pure trivial)
    · exact andThen (.pure trivial) fun _ => ite (evalOperand hev h nofun) (.pure trivial)
  case not | negate | plus | bitNot | void => exact evalOperand hev h nofun

theorem evalUpdate {op : Syntax.UpdateOperator} {before : Bool} {target : Expr}
    (h : Proper target.nodes) (hplace : target.IsPlace) :
    Upholds ev (fun ev => ev.evalUpdate scope op before target line) Any :=
  andThen (reference hev h hplace) fun _ => andThen (readReference hev) fun _ =>
    andThen (plain hev .number) fun _ => andThen (writeReference hev) fun _ => .pure trivial

/-- **An assignment**: operators assign to names and members only. -/
theorem evalAssign {op : Syntax.AssignOperator} {target : Pattern} {value : Expr}
    (ht : Proper target.nodes) (hv : Proper value.nodes)
    (hreference : op = .plain ∨ target.IsReference) :
    Upholds ev (fun ev => ev.evalAssign scope op target value line) Any := by
  cases op with
  | plain => exact andThen (exprFor hev hv) fun _ => andThen (bindTo hev ht) fun _ => .pure trivial
  | compound op =>
    have hreference := hreference.resolve_left nofun
    refine andThen (patternReference hev ht hreference) fun _ => ?_
    refine andThen (readReference hev) fun _ => andThen (expr hev hv) fun _ => ?_
    exact andThen (plain hev .binary) fun _ => andThen (writeReference hev) fun _ => .pure trivial
  | logical op =>
    have hreference := hreference.resolve_left nofun
    refine andThen (patternReference hev ht hreference) fun _ => ?_
    refine andThen (readReference hev) fun _ => ite (.pure trivial) ?_
    refine andThen (expr hev hv) fun _ => ?_
    exact andThen (writeReference hev) fun _ => .pure trivial

/-- **A proper expression is evaluated.** -/
theorem evalExpr {e : Expr} (h : Proper e.nodes) :
    Upholds ev (fun ev => ev.evalExpr scope e) Any := by
  obtain ⟨node, p⟩ := e
  obtain ⟨hnode, hinside⟩ := proper_expr.mp h
  change Proper node.inside at hinside
  unfold Evaluator.evalExpr
  cases node with
  | number | string | bool | null => exact .pure trivial
  | template pieces values =>
    have hvalues : ∀ e ∈ values, Proper e.nodes := by simpa using hinside
    exact andThen (templateText hev hvalues) fun _ => .pure trivial
  | name x => exact plain hev .valueOf
  | this => exact andThen (plain hev (.elementary .scopes)) fun _ => .pure trivial
  | array es =>
    have hes : ∀ e ∈ es, Proper e.nodes := by simpa using hinside
    exact andThen (elements hev hes) fun _ => host hev (.makeArray (within_univ _))
  | object ps =>
    have hps : ∀ p ∈ ps, Proper p.nodes := by simpa using hinside
    exact andThen (properties hev hps) fun _ => host hev (.makePlain (within_univ _))
  | function f => exact makeClosure hinside
  | unary op operand => exact evalUnary hev hinside
  | update op before target =>
    exact evalUpdate hev hinside (Syntax.Expr.isPlace_of_isReference hnode)
  | binary op left right =>
    obtain ⟨hleft, hright⟩ := Syntax.proper_append.mp hinside
    refine andThen (expr hev hleft) fun _ => andThen (expr hev hright) fun _ => ?_
    exact plain hev .binary
  | logical op left right =>
    obtain ⟨hleft, hright⟩ := Syntax.proper_append.mp hinside
    exact andThen (expr hev hleft) fun _ => ite (.pure trivial) (expr hev hright)
  | assign op target value =>
    obtain ⟨htarget, hvalue⟩ := Syntax.proper_append.mp hinside
    exact evalAssign hev htarget hvalue hnode
  | conditional test yes no =>
    simp only [ExprNode.inside, Syntax.proper_append] at hinside
    obtain ⟨htest, hyes, hno⟩ := hinside
    exact andThen (expr hev htest) fun _ => ite (expr hev hyes) (expr hev hno)
  | call callee args isOptional =>
    obtain ⟨hcallee, hargs⟩ := Syntax.proper_append.mp hinside
    exact evalCall hev hcallee (by simpa using hargs)
  | new callee args =>
    obtain ⟨hcallee, hargs⟩ := Syntax.proper_append.mp hinside
    exact evalNew hev hcallee (by simpa using hargs)
  | member object k isOptional =>
    obtain ⟨hobject, hk⟩ := Syntax.proper_append.mp hinside
    refine andThen (expr hev hobject) fun _ => ite (.pure trivial) ?_
    exact andThen (key hev hk) fun _ => host hev (.getMember (within_univ _))
  | sequence items => exact sequence hev (by simpa using hinside)

/-! ## Statements -/

theorem execDeclarator {kind : DeclarationKind} {d : Declarator} (h : Proper d.nodes) :
    Upholds ev (fun ev => ev.execDeclarator scope kind d line) Any := by
  obtain ⟨target, value⟩ := d
  simp only [Declarator.nodes, Syntax.proper_cons, Syntax.proper_append] at h
  obtain ⟨-, htarget, hvalue⟩ := h
  unfold Evaluator.execDeclarator
  dsimp only
  split
  · exact record
  · exact andThen (bindTo hev htarget) fun _ => record
  · rename_i e heq
    cases heq
    refine andThen (exprFor hev hvalue) fun _ => andThen (plain hev .inspect) fun _ => ?_
    exact andThen (bindTo hev htarget) fun _ => record

theorem execDeclarators {kind : DeclarationKind} : ∀ {ds : List Declarator},
    (∀ d ∈ ds, Proper d.nodes) → Upholds ev (fun ev => ev.execDeclarators scope kind line ds) Any
  | [], _ => .pure trivial
  | _ :: _, h => by
    obtain ⟨hd, hds⟩ := List.forall_mem_cons.mp h
    exact andThen (execDeclarator hev hd) fun _ => execDeclarators hds

theorem execExpression {e : Expr} {excerpt : String} (h : Proper e.nodes) :
    Upholds ev (fun ev => ev.execExpression scope e excerpt line) Any := by
  unfold Evaluator.execExpression
  dsimp only
  split
  iterate 3 exact andThen (expr hev h) fun _ => andThen (plain hev .inspect) fun _ => record
  · exact orElseShow (expr hev h)

theorem innerScope {kind : ScopeKind} (hkind : kind ≠ .global) :
    Upholds ev (fun _ => Exec.innerScope scope kind) Any :=
  host hev (.innerScope (sees_univ _) hkind)

theorem enter : Upholds ev (fun _ => Exec.enter scope) Any := plain hev (.enter (sees_univ _))

theorem tick : Upholds ev (fun _ => Exec.tick) Any := plain hev (.elementary .tick)

theorem execBlock {body : List Stmt} (h : ∀ s ∈ body, Proper s.nodes) :
    Upholds ev (fun ev => ev.execBlock scope body) Any :=
  andThen (innerScope hev nofun) fun _ => andThen (hoistBlock hev h) fun _ => statements hev h

/-! ### Loops -/

theorem loopTest {test : Expr} {word : String} (h : Proper test.nodes) :
    Upholds ev (fun ev => ev.loopTest scope test word line) Any :=
  andThen (expr hev h) fun _ => andThen record fun _ => .pure trivial

theorem execWhile {test : Expr} {body : Stmt} {label : Option String} (ht : Proper test.nodes)
    (hb : Proper body.nodes) :
    Upholds ev (fun ev => ev.execWhile scope test body label line) Any := by
  refine andThen (tick hev) fun _ => andThen (loopTest hev ht) fun passed => ite (.pure trivial) ?_
  refine andThen (statement hev hb) fun c => ?_
  split
  · exact .pure trivial
  · exact hev (w := .whileLoop scope test body label line) ⟨ht, hb⟩

theorem execDoWhile {test : Expr} {body : Stmt} {label : Option String} (ht : Proper test.nodes)
    (hb : Proper body.nodes) :
    Upholds ev (fun ev => ev.execDoWhile scope body test label line) Any := by
  refine andThen (tick hev) fun _ => andThen (statement hev hb) fun c => ?_
  split
  · exact .pure trivial
  · refine andThen (loopTest hev ht) fun passed => ite (.pure trivial) ?_
    exact hev (w := .doLoop scope body test label line) ⟨ht, hb⟩

theorem countingTest {loop : CountingLoop} (h : Proper (Syntax.optionExprNodes loop.test)) :
    Upholds ev (fun ev => ev.countingTest scope loop) Any := by
  unfold Evaluator.countingTest
  split
  · rename_i heq
    rw [heq] at h
    exact loopTest hev h
  · exact .pure trivial

theorem countingUpdate {loop : CountingLoop} (h : Proper (Syntax.optionExprNodes loop.update)) :
    Upholds ev (fun ev => ev.countingUpdate scope loop) Any := by
  unfold Evaluator.countingUpdate
  split
  · rename_i heq
    rw [heq] at h
    exact andThen (enter hev) fun _ => andThen (expr hev h) fun _ => .pure trivial
  · exact .pure trivial

theorem nextScope {isFresh : Bool} :
    Upholds ev (fun _ => Evaluator.nextScope scope isFresh) Any :=
  host hev (.nextScope (Set.mem_univ _))

theorem execCounting {loop : CountingLoop} (h : (Work.forLoop scope loop).IsProper) :
    Upholds ev (fun ev => ev.execCounting scope loop) Any := by
  obtain ⟨htest, hupdate, hbody⟩ := h
  refine andThen (tick hev) fun _ => andThen (enter hev) fun _ => ?_
  refine andThen (countingTest hev htest) fun goesOn => ite (.pure trivial) ?_
  refine andThen (statement hev hbody) fun c => ?_
  split
  · exact .pure trivial
  · refine andThen (nextScope hev) fun next => andThen (countingUpdate hev hupdate) fun _ => ?_
    exact hev (w := .forLoop next loop) ⟨htest, hupdate, hbody⟩

theorem execStart {start : Option ForStart} (h : Proper (Syntax.optionStartNodes start)) :
    Upholds ev (fun ev => ev.execStart scope start line) Any := by
  unfold Evaluator.execStart
  split
  · have hds := (Syntax.proper_cons.mp h).2
    rw [Syntax.declaratorsNodes_eq, Syntax.proper_flatMap] at hds
    exact andThen (execDeclarators hev hds) fun _ => .pure trivial
  · exact andThen (andThen (expr hev h) fun _ => .pure trivial) fun _ => .pure trivial
  · exact .pure trivial

theorem execFor {start : Option ForStart} {test update : Option Expr} {body : Stmt}
    {label : Option String} (hs : Proper (Syntax.optionStartNodes start))
    (ht : Proper (Syntax.optionExprNodes test)) (hu : Proper (Syntax.optionExprNodes update))
    (hb : Proper body.nodes) :
    Upholds ev (fun ev => ev.execFor scope start test update body label) Any :=
  andThen (innerScope hev nofun) fun _ => andThen (execStart hev hs) fun isFresh =>
    andThen (nextScope hev) fun first =>
      hev (w := .forLoop first ⟨test, update, body, label, isFresh⟩) ⟨ht, hu, hb⟩

/-- A target that is declared binds names, so no round comes to a defence. -/
theorem execEach {word : String} {kind : Option DeclarationKind} {target : Pattern} {body : Stmt}
    {label : Option String} {vs : List Value} (ht : Proper target.nodes) (hb : Proper body.nodes) :
    Upholds ev (fun ev => ev.execEach scope word kind target body label line vs) Any := by
  induction vs with
  | nil => exact .pure trivial
  | cons v vs ih =>
    refine andThen (tick hev) fun _ => andThen (host hev (.eachScope (sees_univ _))) fun inner => ?_
    refine andThen (enter hev) fun _ => andThen (plain hev .inspect) fun _ => ?_
    refine andThen (bindTo hev ht) fun _ => andThen record fun _ => ?_
    refine andThen (statement hev hb) fun c => ?_
    split
    · exact .pure trivial
    · exact ih

theorem execForEach {loop : LoopOver} {kind : Option DeclarationKind} {target : Pattern}
    {source : Expr} {body : Stmt} {label : Option String} (ht : Proper target.nodes)
    (hs : Proper source.nodes) (hb : Proper body.nodes) :
    Upholds ev (fun ev => ev.execForEach scope loop kind target source body label) Any :=
  andThen (expr hev hs) fun _ => andThen (plain hev Action.loopItems) fun _ => execEach hev ht hb

/-! ### Try and switch -/

omit hev in
theorem resume {r : Except Thrown α} : Upholds ev (fun _ => Exec.resume r) Any := by
  cases r with
  | ok a => exact .pure trivial
  | error t => exact ⟨fun _ _ => trivial, fun hm => hm, by rintro _ _ _ ⟨⟩; rfl⟩

theorem execHandler {h : Handler} {t : Thrown} (hh : Proper h.nodes) :
    Upholds ev (fun ev => ev.execHandler scope h t line) Any := by
  obtain ⟨parameter, body⟩ := h
  obtain ⟨hparameter, hbody⟩ : Proper (Syntax.bindingNodes parameter) ∧
      ∀ s ∈ body, Proper s.nodes := by simpa using hh
  refine andThen (innerScope hev nofun) fun inner => andThen ?_ fun _ => andThen record fun _ => ?_
  · cases parameter with
    | none => exact .pure trivial
    | some p => exact bindTo hev (Syntax.proper_cons.mp hparameter).2
  · refine andThen (hoistBlock hev hbody) fun _ => ?_
    exact (statements hev hbody).catchThrown (fun _ _ => trivial) fun _ => trivial

theorem handle {handler : Option Handler} {outcome : Except Thrown Completion}
    (h : Proper (Syntax.optionHandlerNodes handler)) :
    Upholds ev (fun ev => ev.handle scope handler outcome line) Any := by
  unfold Evaluator.handle
  split
  · exact execHandler hev h
  · exact .pure trivial

/-- Body, handler and finalizer are parts of the statement. -/
theorem execTry {body : List Stmt} {handler : Option Handler} {finalizer : Option (List Stmt)}
    (hb : ∀ s ∈ body, Proper s.nodes) (hh : Proper (Syntax.optionHandlerNodes handler))
    (hf : Proper (Syntax.optionStmtsNodes finalizer)) :
    Upholds ev (fun ev => ev.execTry scope body handler finalizer line) Any := by
  have htried : Upholds ev (fun ev => Exec.catchThrown (ev.execBlock scope body)) Any :=
    (execBlock hev hb).catchThrown (fun _ _ => trivial) fun _ => trivial
  refine andThen record fun _ => andThen htried fun o => andThen (handle hev hh) fun outcome => ?_
  cases finalizer with
  | none => exact resume
  | some last =>
    have hlast : ∀ s ∈ last, Proper s.nodes := by simpa using hf
    refine andThen (enter hev) fun _ => andThen record fun _ => ?_
    refine andThen (execBlock hev hlast) fun c => ?_
    split
    · exact resume
    · exact .pure trivial

/-- The cases that are run are cases of the statement. -/
theorem matchingCases {v : Value} : ∀ {cs : List Case}, (∀ c ∈ cs, Proper c.nodes) →
    Upholds ev (fun ev => ev.matchingCases scope v cs) (· ⊆ cs)
  | [], _ => .pure (List.Subset.refl _)
  | .mk test body :: cs, h => by
    obtain ⟨hc, hcs⟩ := List.forall_mem_cons.mp h
    have hlater : Upholds ev (fun ev => ev.matchingCases scope v cs) (· ⊆ .mk test body :: cs) :=
      (matchingCases hcs).weaken fun _ => List.subset_cons_of_subset _
    unfold Evaluator.matchingCases
    split
    · exact hlater
    · rename_i heq
      cases heq
      refine andThen (expr hev (Syntax.proper_append.mp hc).1) fun candidate => ?_
      exact ite (.pure (List.Subset.refl _)) hlater

theorem execCases {cs : List Case} (h : ∀ c ∈ cs, Proper c.nodes) :
    Upholds ev (fun ev => ev.execCases scope cs) Any := by
  induction cs with
  | nil => exact .pure trivial
  | cons c cs ih =>
    obtain ⟨test, body⟩ := c
    obtain ⟨hc, hcs⟩ := List.forall_mem_cons.mp h
    have hbody : ∀ s ∈ body, Proper s.nodes := by simpa using (Syntax.proper_append.mp hc).2
    refine andThen (statements hev hbody) fun completion => ?_
    split
    · exact ih hcs
    · exact .pure trivial
    · exact .pure trivial

/-- The value and the cases are parts of the statement. -/
theorem execSwitch {value : Expr} {cases : List Case} (hv : Proper value.nodes)
    (hc : ∀ c ∈ cases, Proper c.nodes) :
    Upholds ev (fun ev => ev.execSwitch scope value cases line) Any := by
  have hbodies : ∀ s ∈ cases.flatMap fun c => c.body, Proper s.nodes := by
    intro s hs node hnode
    obtain ⟨c, hmem, hs⟩ := List.mem_flatMap.mp hs
    exact hc c hmem node (c.nodes_subset hs hnode)
  refine andThen (expr hev hv) fun v => andThen (innerScope hev nofun) fun inner => ?_
  refine andThen (hoistBlock hev hbodies) fun _ => ?_
  refine .bind (matchingCases hev hc) fun matching hm => ?_
  refine andThen record fun _ => execCases hev fun c hmem => hc c ?_
  split at hmem
  · exact (List.dropWhile_sublist _).subset hmem
  · exact hm hmem

/-! ### All statements -/

theorem returnValue {e : Option Expr} (h : Proper (Syntax.optionExprNodes e)) :
    Upholds ev (fun ev => ev.returnValue scope e) Any := by
  cases e with
  | none => exact .pure trivial
  | some e => exact expr hev h

/-- **A proper statement is executed.** -/
theorem execStatement {label : Option String} {s : Stmt} (h : Proper s.nodes) :
    Upholds ev (fun ev => ev.execStatement scope label s) Any := by
  obtain ⟨node, p, excerpt⟩ := s
  have hinside : Proper node.inside := by
    rw [Stmt.nodes, Syntax.proper_cons, Syntax.proper_cons] at h
    exact h.2.2
  refine andThen (tick hev) fun _ => andThen (enter hev) fun _ => ?_
  cases node with
  | declare kind ds =>
    have hds := (Syntax.proper_cons.mp hinside).2
    rw [Syntax.declaratorsNodes_eq, Syntax.proper_flatMap] at hds
    exact andThen (execDeclarators hev hds) fun _ => .pure trivial
  | function f => exact andThen record fun _ => .pure trivial
  | «return» e =>
    refine andThen (returnValue hev hinside) fun _ => andThen (plain hev .inspect) fun _ => ?_
    exact andThen record fun _ => .pure trivial
  | ifElse test yes no =>
    simp only [StmtNode.inside, Syntax.proper_append] at hinside
    obtain ⟨htest, hyes, hno⟩ := hinside
    refine andThen (expr hev htest) fun _ => andThen record fun _ => ite (statement hev hyes) ?_
    cases no with
    | none => exact .pure trivial
    | some no => exact statement hev hno
  | forLoop start test update body =>
    simp only [StmtNode.inside, Syntax.proper_append] at hinside
    obtain ⟨hstart, htest, hupdate, hbody⟩ := hinside
    exact execFor hev hstart htest hupdate hbody
  | forEach loop kind target source body =>
    simp only [StmtNode.inside, Syntax.proper_append] at hinside
    obtain ⟨-, htarget, hsource, hbody⟩ := hinside
    exact execForEach hev htarget hsource hbody
  | «while» test body =>
    exact hev (w := .whileLoop scope test body label _) (Syntax.proper_append.mp hinside)
  | doWhile body test =>
    exact hev (w := .doLoop scope body test label _) (Syntax.proper_append.mp hinside).symm
  | «break» label => exact andThen record fun _ => .pure trivial
  | «continue» label => exact andThen record fun _ => .pure trivial
  | throw e =>
    refine andThen (expr hev hinside) fun _ => andThen (plain hev .inspect) fun _ => ?_
    exact andThen record fun _ => plain hev (.throwValue (within_univ _))
  | «try» body handler finalizer =>
    simp only [StmtNode.inside, Syntax.proper_append, Syntax.stmtsNodes_eq,
      Syntax.proper_flatMap] at hinside
    obtain ⟨hbody, hhandler, hfinalizer⟩ := hinside
    exact execTry hev hbody hhandler hfinalizer
  | switch value cases =>
    obtain ⟨hvalue, hcases⟩ := Syntax.proper_append.mp hinside
    rw [Syntax.casesNodes_eq, Syntax.proper_flatMap] at hcases
    exact execSwitch hev hvalue hcases
  | labeled name body =>
    refine andThen (hev (w := .statement scope (some name) body) hinside) fun c => ?_
    split
    · exact .pure trivial
    · exact .pure trivial
  | block body => exact execBlock hev (by simpa using hinside)
  | expr e => exact andThen (execExpression hev hinside) fun _ => .pure trivial
  | empty => exact .pure trivial

/-! ## The event loop -/

omit hev in
theorem nextMicrotask? : Upholds ev (fun _ => Exec.nextMicrotask?) Any := by
  refine .of_heap (fun m => ?_) (fun m => ?_) fun _ => trivial
  all_goals cases hm : m.microtasks with
  | nil => simp only [Exec.after, Exec.faultOf, Exec.nextMicrotask_of_nil hm]
  | cons task rest => simp only [Exec.after, Exec.faultOf, Exec.nextMicrotask_of_cons hm]

omit hev in
theorem nextCallback? : Upholds ev (fun _ => Exec.nextCallback?) Any := by
  refine .of_heap (fun m => ?_) (fun m => ?_) fun _ => trivial
  all_goals cases hm : m.callbacks with
  | nil => simp only [Exec.after, Exec.faultOf, Exec.nextCallback_of_nil hm]
  | cons task rest => simp only [Exec.after, Exec.faultOf, Exec.nextCallback_of_cons hm]

omit hev in
theorem enterPhase {phase : Phase} {description : String} :
    Upholds ev (fun _ => Exec.enterPhase phase description) Any :=
  .of_heap (fun _ => rfl) (fun _ => rfl) fun _ => trivial

omit hev in
theorem recordHere {kind : StepKind} {description : String} :
    Upholds ev (fun _ => Exec.recordHere line kind description) Any :=
  .of_heap (fun _ => rfl) (fun _ => rfl) fun _ => trivial

theorem runTask {task : Task} : Upholds ev (fun ev => ev.runTask task) Any :=
  host hev (.runTask (within_univ _))

theorem microtasks : Upholds ev (fun ev => ev.run .microtasks) Any := hev trivial

/-- The tasks that wait hold values alone, whatever program set them. -/
theorem execMicrotasks : Upholds ev (fun ev => ev.execMicrotasks) Any := by
  refine andThen nextMicrotask? fun task => ?_
  cases task with
  | none => exact .pure trivial
  | some task =>
    refine andThen (tick hev) fun _ => andThen (enter hev) fun _ => andThen recordHere fun _ => ?_
    exact andThen (runTask hev) fun _ => microtasks hev

theorem drainMicrotasks : Upholds ev (fun ev => ev.drainMicrotasks) Any := by
  have hasMicrotask : Upholds ev (fun _ => Exec.hasMicrotask) Any :=
    .of_heap (fun _ => rfl) (fun _ => rfl) fun _ => trivial
  refine andThen hasMicrotask fun _ => ite ?_ (.pure trivial)
  exact andThen enterPhase fun _ => microtasks hev

omit hev in
theorem refillCallbacks : Upholds ev (fun _ => Exec.refillCallbacks) Any := by
  have awaitsTimers : Upholds ev (fun _ => Exec.awaitsTimers) Any :=
    .of_heap (fun _ => rfl) (fun _ => rfl) fun _ => trivial
  have moveTimers : Upholds ev (fun _ => Exec.moveTimers) Any :=
    .of_heap (fun _ => rfl) (fun _ => rfl) fun _ => trivial
  exact andThen awaitsTimers fun _ => ite (andThen moveTimers fun _ => record) (.pure trivial)

/-- The callbacks that wait hold values alone, whatever program set them. -/
theorem execMacrotasks : Upholds ev (fun ev => ev.execMacrotasks) Any := by
  refine andThen refillCallbacks fun _ => andThen nextCallback? fun task => ?_
  cases task with
  | none => exact .pure trivial
  | some task =>
    refine andThen (tick hev) fun _ => andThen enterPhase fun _ => andThen (enter hev) fun _ => ?_
    refine andThen recordHere fun _ => andThen (runTask hev) fun _ => ?_
    exact andThen (drainMicrotasks hev) fun _ => hev (w := .macrotasks) trivial

theorem runEventLoop : Upholds ev (fun ev => ev.runEventLoop) Any :=
  andThen (enter hev) fun _ => andThen (drainMicrotasks hev) fun _ =>
    andThen (hev (w := .macrotasks) trivial) fun _ => enterPhase

/-! ## Runs -/

/-- **Every piece of work on proper syntax upholds what is proper** if the work inside it does. -/
theorem step {w : Work α} (h : w.IsProper) : Upholds ev (fun ev => ev.step w) Any := by
  cases w with
  | expr scope e => exact evalExpr hev h
  | statement scope label s => exact execStatement hev h
  | bind scope p v mode line => exact bindPattern hev h
  | apply f this args line => exact applyValue hev
  | whileLoop scope test body label line => exact execWhile hev h.1 h.2
  | doLoop scope body test label line => exact execDoWhile hev h.1 h.2
  | forLoop scope loop => exact execCounting hev h
  | microtasks => exact execMicrotasks hev
  | macrotasks => exact execMacrotasks hev

theorem runProgram {program : Program} (h : ∀ s ∈ program, Proper s.nodes) :
    Upholds ev (fun ev => ev.runProgram program) Any := by
  refine andThen (hoistBody hev h) fun _ => andThen enterPhase fun _ => ?_
  refine andThen (andThen (statements hev h) fun _ => .pure trivial) fun _ => runEventLoop hev

end Upholds

/-- **Evaluation upholds what is proper**, by induction on the fuel. -/
theorem Evaluator.isProper_bounded : ∀ fuel, (bounded fuel).IsProper
  | 0, _, _, _ => ⟨fun _ _ => trivial, fun hm => hm, by rintro _ _ _ ⟨⟩; rfl⟩
  | fuel + 1, _, _, hw =>
    have hstep := Upholds.step (isProper_bounded fuel) hw
    ⟨hstep.yields, hstep.keeps, hstep.fault⟩

/-- No object is a closure before a program runs. -/
theorem Machine.isProper_initial (limits : Limits) : (Machine.initial limits).IsProper := nofun

/-- **Every program that is read is well formed, and no run of it ends in a defensive fault**:
whatever is counted up or down or assigned to by an operator is a name or a member, so that the
evaluator finds a reference wherever it asks for one. -/
theorem programs_need_no_defence (source : String) (program : Program)
    (h : Syntax.readProgram source = .ok program) :
    (∀ node ∈ Syntax.stmtsNodes program, node.WellFormed) ∧
    ∀ (limits : Limits) (fuel : Nat) (f : Fault) (m : Machine),
      (Evaluator.bounded fuel).runProgram program (.initial limits) = .error f m →
        f.isDefensive = false := by
  have hproper := Syntax.readProgram_wellFormed h
  refine ⟨hproper, fun limits fuel f m hrun => ?_⟩
  have hprogram : ∀ s ∈ program, Proper s.nodes :=
    Syntax.proper_flatMap.mp (Syntax.stmtsNodes_eq program ▸ hproper)
  have hupholds := Upholds.runProgram (Evaluator.isProper_bounded fuel) hprogram
  exact hupholds.fault (Machine.isProper_initial limits) (Exec.faultOf_of_error hrun)

/-- An operator that assigns to a member. -/
def augmentedUse : String := "o.n += x"

/-- A program with a compound assignment to a member: `o.n += x`. -/
def augmentedProgram : Program :=
  [.mk (.expr (.mk (.assign (.compound .add)
    (.member (.mk (.member (.mk (.name "o") ⟨1, 1⟩) (.static "n") false) ⟨1, 1⟩))
    (.mk (.name "x") ⟨1, 8⟩)) ⟨1, 1⟩)) ⟨1, 1⟩ "o.n += x"]

set_option maxRecDepth 100000 in
theorem readProgram_augmentedUse : Syntax.readProgram augmentedUse = .ok augmentedProgram := by
  rfl

/-- Its compound assignment to a member is well formed, and no run of it ends in a defensive fault.
-/
theorem augmentedUse_needs_no_defence : Syntax.readProgram augmentedUse = .ok augmentedProgram ∧
    (∀ node ∈ Syntax.stmtsNodes augmentedProgram, node.WellFormed) ∧
    ∀ (limits : Limits) (fuel : Nat) (f : Fault) (m : Machine),
      (Evaluator.bounded fuel).runProgram augmentedProgram (.initial limits) = .error f m →
        f.isDefensive = false :=
  ⟨readProgram_augmentedUse,
    programs_need_no_defence augmentedUse augmentedProgram readProgram_augmentedUse⟩

end ScriptTrace
