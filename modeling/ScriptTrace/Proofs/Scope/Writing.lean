import ScriptTrace.Proofs.Scope.Watch

/-!
# Proofs/Scope/Writing — every function of the evaluator passes a watch

A binding is changed by assignments from scopes inside its own and by declarations in that scope:
those that the function makes itself (`Work.Assigns`, `Work.Declares`), and those in work that it
begins.
-/

namespace ScriptTrace

open Syntax (Expr ExprNode Element Property Key Pattern PatternElement PropertyPattern Slot Stmt
  StmtNode Declarator DeclarationKind ForStart LoopOver Handler Case Node)

/-- The name that a pattern assigns itself. -/
def Syntax.Pattern.assigned? (mode : BindMode) : Pattern → Option String
  | .name x => if mode = .assign then some x else none
  | .member target => target.name?
  | _ => none

/-- The name that an operator assigns itself; a plain assignment leaves that to its pattern. -/
def Syntax.Expr.assigned? (e : Expr) : Option String :=
  match e.node with
  | .update _ _ target => target.name?
  | .assign .plain .. => none
  | .assign _ target _ => target.assigned? .assign
  | _ => none

/-- **A piece of work assigns to a name** itself, from a scope outward. -/
def Work.Assigns {α : Type} (w : Work α) (scope : ScopeId) (name : String) : Prop :=
  match w with
  | .expr σ e => σ = scope ∧ e.assigned? = some name
  | .bind σ p _ mode _ => σ = scope ∧ p.assigned? mode = some name
  | _ => False

/-- The name that a pattern declares itself. -/
def Syntax.Pattern.declared? (mode : BindMode) : Pattern → Option String
  | .name x => if mode = .assign then none else some x
  | _ => none

/-- **A piece of work declares a name** itself, in a scope. -/
def Work.Declares {α : Type} (w : Work α) (scope : ScopeId) (name : String) : Prop :=
  match w with
  | .bind σ p _ mode _ => σ = scope ∧ p.declared? mode = some name
  | _ => False

/-- A closure on the heap stays there. -/
theorem Machine.Grows.closure {m m' : Machine} (h : m.Grows m') {id : ObjectId} {c : Closure}
    (hc : m.heap.body? id = some (.closure c)) : m'.heap.body? id = some (.closure c) := by
  obtain ⟨o, ho, hbody⟩ := Option.map_eq_some_iff.mp hc
  have hget : m.heap.objects.toList[id]? = some o := by rwa [Array.getElem?_toList]
  obtain ⟨o', ho', hlater⟩ := h.objects.getElem?_later hget
  rw [Array.getElem?_toList] at ho'
  have hlater' : (Body.closure c).GivesWay o'.body := hbody ▸ hlater.body
  rw [Heap.body?, Heap.get?, ho', Option.map_some]
  generalize o'.body = body at hlater' ⊢
  cases hlater' with
  | function => rfl

open Ward

namespace Watch

variable {q : Watch} {m₀ m m' : Machine} {α β : Type}

/-- The watch knows of the assignments that are made from a scope and reach the binding. -/
def Knows (q : Watch) (m₀ : Machine) (scope : ScopeId) : Prop :=
  ∀ {m}, q.From m₀ m → m.scopes.binder? scope q.name = some q.scope → q.Writes m

namespace Clears

variable {scope : ScopeId} {line : Nat}

theorem plain {x : Exec α} {P : α → Prop} (hx : Plain .library Set.univ x P) :
    q.Clears m₀ (fun _ => x) Whatever := .made (.done hx)

/-! ## References and patterns -/

theorem makeClosure {f : Syntax.Function} {name : String} :
    q.Clears m₀ (fun _ => Exec.makeClosure scope f name) Whatever := allocate.before fun _ => .done

section

variable (hs : q.Region m₀ scope)

include hs

theorem expr {e : Expr} (h : q.Permits e.nodes) :
    q.Clears m₀ (fun ev => ev.expr scope e) Whatever :=
  .run (w := .expr scope e) fun hm => ⟨q.later hm.grows hs, h⟩

theorem bindTo {p : Pattern} {v : Value} {mode : BindMode} (h : q.Permits p.nodes) :
    q.Clears m₀ (fun ev => ev.bind scope p v mode line) Whatever :=
  .run (w := .bind scope p v mode line) fun hm => ⟨q.later hm.grows hs, h⟩

theorem exprNamed {e : Expr} {name : String} (h : q.Permits e.nodes) :
    q.Clears m₀ (fun ev => ev.exprNamed scope e name) Whatever := by
  unfold Evaluator.exprNamed
  split
  · exact makeClosure
  · exact expr hs h

theorem exprFor {target : Pattern} {e : Expr} (h : q.Permits e.nodes) :
    q.Clears m₀ (fun ev => ev.exprFor scope target e) Whatever := by
  unfold Evaluator.exprFor
  split
  · exact exprNamed hs h
  · exact expr hs h

theorem key {k : Key} (h : q.Permits k.nodes) :
    q.Clears m₀ (fun ev => ev.key scope k) Whatever := by
  cases k with
  | static name => exact .done
  | computed e => exact (expr hs h).before fun _ => plain .text

/-- A reference to a name comes from a name. -/
theorem reference {target : Expr} (h : q.Permits target.nodes) :
    q.Clears m₀ (fun ev => ev.reference scope target) fun _ r =>
      ∀ x, r = .binding x → target.name? = some x := by
  obtain ⟨node, p⟩ := target
  cases node with
  | name x => exact .pure fun _ y hy => congrArg some (Reference.binding.inj hy)
  | member object k isOptional =>
    obtain ⟨-, hobject, hk⟩ : _ ∧ q.Permits object.nodes ∧ q.Permits k.nodes := by simpa using h
    exact (expr hs hobject).before fun _ => (key hs hk).before fun _ => .pure nofun
  | _ => exact throwing

/-- A target that is a name refers to the binding of that name. -/
theorem patternReference {target : Pattern} (h : q.Permits target.nodes) :
    q.Clears m₀ (fun ev => ev.patternReference scope target line) fun _ r =>
      ∀ x, r = .binding x → target.assigned? .assign = some x := by
  cases target with
  | name x => exact .pure fun _ y hy => congrArg some (Reference.binding.inj hy)
  | member e =>
    rw [Pattern.nodes, permits_cons] at h
    exact reference hs h.2
  | _ => exact throwing

omit hs in
theorem readReference {r : Reference} :
    q.Clears m₀ (fun _ => Exec.readReference scope r line) Whatever := by
  cases r with
  | binding name => exact plain .valueOf
  | property receiver key => exact .made (.getMember (within_univ _))

omit hs in
theorem writeReference {r : Reference} {v : Value}
    (h : ∀ x, r = .binding x → x = q.name → q.Knows m₀ scope) :
    q.Clears m₀ (fun _ => Exec.writeReference scope r v line) Whatever := by
  cases r with
  | binding name => exact assign fun heq => h name rfl heq
  | property receiver key => exact plain (.setMember (within_univ _) (within_univ _))

/-- The default value of an element may write, and then its target does. -/
theorem bindElement {element : PatternElement} {v : Value} {mode : BindMode}
    (h : q.Permits element.nodes) :
    q.Clears m₀ (fun ev => ev.bindElement scope element v mode line) Whatever := by
  obtain ⟨target, fallback⟩ := element
  obtain ⟨htarget, hfallback⟩ := permits_append.mp h
  unfold Evaluator.bindElement
  split
  · rename_i e heq
    cases heq
    exact (exprFor hs hfallback).before fun _ => bindTo hs htarget
  · exact Clears.done.before fun _ => bindTo hs htarget

theorem bindSlots {items : Array Value} {mode : BindMode} {place : Nat} {slots : List Slot}
    (h : ∀ slot ∈ slots, q.Permits slot.nodes) :
    q.Clears m₀ (fun ev => ev.bindSlots scope items mode line place slots) Whatever := by
  induction slots generalizing place with
  | nil => exact .done
  | cons slot slots ih =>
    obtain ⟨hslot, hslots⟩ := List.forall_mem_cons.mp h
    cases slot with
    | hole => exact ih hslots
    | filled element => exact (bindElement hs hslot).before fun _ => ih hslots

theorem bindProperties {v : Value} {mode : BindMode} : ∀ {properties : List PropertyPattern},
    (∀ property ∈ properties, q.Permits property.nodes) →
      q.Clears m₀ (fun ev => ev.bindProperties scope v mode line properties) Whatever
  | [], _ => .done
  | .mk k element :: properties, h => by
    obtain ⟨hproperty, hproperties⟩ := List.forall_mem_cons.mp h
    obtain ⟨hk, helement⟩ := permits_append.mp hproperty
    refine (key hs hk).before fun _ => ?_
    refine Clears.before (.made (.getMember (within_univ _))) fun _ => ?_
    refine (bindElement hs helement).before fun _ => ?_
    exact (bindProperties hproperties).before fun _ => .done

/-- **A value is written to a pattern.** -/
theorem bindPattern {p : Pattern} {v : Value} {mode : BindMode} (h : q.Permits p.nodes)
    (hw : p.assigned? mode = some q.name → q.Knows m₀ scope)
    (hd : scope = q.scope → p.declared? mode = some q.name → ∀ {m}, q.From m₀ m → q.Writes m) :
    q.Clears m₀ (fun ev => ev.bindPattern scope p v mode line) Whatever := by
  cases p with
  | name x =>
    cases mode with
    | declare kind => exact define fun hself heq => hd hself (heq ▸ rfl)
    | assign => exact assign fun heq => hw (heq ▸ rfl)
  | member target =>
    obtain ⟨-, htarget⟩ := permits_cons.mp h
    refine (reference hs htarget).bind fun r m hm hr => (writeReference fun x hx heq => ?_).later hm
    exact hw (heq ▸ hr x hx)
  | array slots rest =>
    obtain ⟨-, hslots, hrest⟩ : _ ∧ (∀ slot ∈ slots, q.Permits slot.nodes) ∧
        q.Permits (Syntax.restNodes rest) := by simpa using h
    refine (plain .iterate).before fun items => (bindSlots hs hslots).before fun _ => ?_
    cases rest with
    | none => exact .done
    | some rest =>
      exact Clears.before (.made (.makeArray (within_univ _))) fun _ => bindTo hs hrest
  | object properties rest =>
    obtain ⟨-, hproperties, hrest⟩ : _ ∧ (∀ property ∈ properties, q.Permits property.nodes) ∧
        q.Permits (Syntax.restNodes rest) := by simpa using h
    refine .ite (fun _ => (plain .inspect).before fun _ => throwing) fun _ => ?_
    refine (bindProperties hs hproperties).before fun used => ?_
    cases rest with
    | none => exact .done
    | some rest =>
      refine (plain (.elementary .heap)).before fun _ => ?_
      exact Clears.before (.made (.makePlain (within_univ _))) fun _ => bindTo hs hrest

theorem elements : ∀ {es : List Element} {done : Array Value}, (∀ e ∈ es, q.Permits e.nodes) →
    q.Clears m₀ (fun ev => ev.elements scope es done) Whatever
  | [], _, _ => .done
  | .single e :: _, _, h => by
    obtain ⟨he, hes⟩ := List.forall_mem_cons.mp h
    exact (expr hs he).before fun _ => elements hes
  | .spread e :: _, _, h => by
    obtain ⟨he, hes⟩ := List.forall_mem_cons.mp h
    refine (expr hs he).before fun _ => (plain .iterate).before fun _ => ?_
    exact (plain .checkArrayLength).before fun _ => elements hes

/-! ## Expressions without calls -/

theorem templateText : ∀ {es : List Expr} {out : String} {pieces : List String},
    (∀ e ∈ es, q.Permits e.nodes) →
      q.Clears m₀ (fun ev => ev.templateText scope line out es pieces) Whatever
  | [], _, _, _ => .done
  | _ :: _, _, _, h => by
    obtain ⟨he, hes⟩ := List.forall_mem_cons.mp h
    refine (expr hs he).before fun _ => (plain .text).before fun _ => ?_
    exact (plain .checkStringLength).before fun _ => templateText hes

theorem properties : ∀ {ps : List Property} {done : Props}, (∀ p ∈ ps, q.Permits p.nodes) →
    q.Clears m₀ (fun ev => ev.properties scope ps done) Whatever
  | [], _, _ => .done
  | .keyed _ _ :: _, _, h => by
    obtain ⟨hp, hps⟩ := List.forall_mem_cons.mp h
    obtain ⟨hk, hvalue⟩ := permits_append.mp hp
    exact (key hs hk).before fun _ => (exprNamed hs hvalue).before fun _ => properties hps
  | .spread _ :: _, _, h => by
    obtain ⟨hp, hps⟩ := List.forall_mem_cons.mp h
    refine (expr hs hp).before fun _ => (plain (.elementary .heap)).before fun _ => ?_
    exact properties hps

theorem sequence : ∀ {es : List Expr} {last : Value}, (∀ e ∈ es, q.Permits e.nodes) →
    q.Clears m₀ (fun ev => ev.sequence scope last es) Whatever
  | [], _, _ => .done
  | _ :: _, _, h => by
    obtain ⟨he, hes⟩ := List.forall_mem_cons.mp h
    exact (expr hs he).before fun _ => sequence hes

omit hs in
theorem unary {op : Syntax.UnaryOperator} {v : Value} :
    q.Clears m₀ (fun _ => Exec.unary op v line) Whatever := by
  cases op with
  | not | void => exact .done
  | negate | plus | bitNot => exact (plain .number).before fun _ => .done
  | typeof => exact (plain (.elementary .heap)).before fun _ => .done
  | delete => exact throwing

/-- `delete` and `typeof` write to no binding. -/
theorem evalUnary {op : Syntax.UnaryOperator} {operand : Expr} (h : q.Permits operand.nodes) :
    q.Clears m₀ (fun ev => ev.evalUnary scope op operand line) Whatever := by
  have hoperand : q.Clears m₀
      (fun ev => ev.expr scope operand >>= fun v => Exec.unary op v line) Whatever :=
    (expr hs h).before fun _ => unary
  cases op
  case delete =>
    unfold Evaluator.evalUnary
    dsimp only
    split
    · exact .done
    · exact (expr hs h).discard.before fun _ => .done
    · refine (reference hs h).before fun r => ?_
      split
      · exact (plain (.deleteMember (within_univ _))).before fun _ => .done
      · exact Clears.done.before fun _ => .done
  case typeof =>
    unfold Evaluator.evalUnary
    dsimp only
    split
    · refine (plain .valueOf?).before fun _ => Clears.done.before fun _ => ?_
      exact .ite (fun _ => hoperand) fun _ => .done
    · exact Clears.done.before fun _ => .ite (fun _ => hoperand) fun _ => .done
  case not | negate | plus | bitNot | void => exact hoperand

theorem evalUpdate {op : Syntax.UpdateOperator} {before : Bool} {target : Expr}
    (h : q.Permits target.nodes) (hw : target.name? = some q.name → q.Knows m₀ scope) :
    q.Clears m₀ (fun ev => ev.evalUpdate scope op before target line) Whatever := by
  refine (reference hs h).bind fun r m hm hr => Clears.later ?_ hm
  refine readReference.before fun _ => (plain .number).before fun _ => ?_
  exact (writeReference fun x hx heq => hw (heq ▸ hr x hx)).before fun _ => .done

/-- **An assignment**: a plain one leaves the writing to its pattern. -/
theorem evalAssign {op : Syntax.AssignOperator} {target : Pattern} {value : Expr}
    (ht : q.Permits target.nodes) (hv : q.Permits value.nodes)
    (hw : op ≠ .plain → target.assigned? .assign = some q.name → q.Knows m₀ scope) :
    q.Clears m₀ (fun ev => ev.evalAssign scope op target value line) Whatever := by
  cases op with
  | plain => exact (exprFor hs hv).before fun _ => (bindTo hs ht).before fun _ => .done
  | compound op =>
    refine (patternReference hs ht).bind fun r m hm hr => Clears.later ?_ hm
    refine readReference.before fun _ => (expr hs hv).before fun _ => ?_
    refine (plain .binary).before fun _ => ?_
    exact (writeReference fun x hx heq => hw nofun (heq ▸ hr x hx)).before fun _ => .done
  | logical op =>
    refine (patternReference hs ht).bind fun r m hm hr => Clears.later ?_ hm
    refine readReference.before fun _ => .ite (fun _ => .done) fun _ => ?_
    refine (expr hs hv).before fun _ => ?_
    exact (writeReference fun x hx heq => hw nofun (heq ▸ hr x hx)).before fun _ => .done

end

end Clears

end Watch

end ScriptTrace
