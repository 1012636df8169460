import ScriptTrace.Proofs.Composition.Library

/-!
# Proofs/Composition/Expression — patterns, calls and expressions

A call of a closure is an action of its own kind (`Action.invoke`); here its parts are put together.
-/

namespace ScriptTrace

open Syntax (Expr Pattern PatternElement PropertyPattern Slot Element Property Key Stmt)

namespace Action

variable {l : Layer} [l.Evaluates] {W : World}

/-! ## References and patterns -/

theorem expr {scope : ScopeId} {e : Expr} (h : Sees W scope) :
    Action l W (fun ev => ev.expr scope e) Within := .eval ⟨‹_›, h⟩

theorem bindTo {scope : ScopeId} {p : Pattern} {v : Value} {mode : BindMode} {line : Nat}
    (h : Sees W scope) (hv : Within W v) :
    Action l W (fun ev => ev.bind scope p v mode line) Free :=
  .eval (w := .bind scope p v mode line) ⟨‹_›, h, hv⟩

theorem makeClosure {scope : ScopeId} {f : Syntax.Function} {name : String} (h : Sees W scope) :
    Action l W (fun _ => Exec.makeClosure scope f name) Within := make h rfl fun _ _ => ‹_›

theorem exprNamed {scope : ScopeId} {e : Expr} {name : String} (h : Sees W scope) :
    Action l W (fun ev => ev.exprNamed scope e name) Within := by
  unfold Evaluator.exprNamed
  split
  · exact makeClosure h
  · exact expr h

theorem exprFor {scope : ScopeId} {target : Pattern} {e : Expr} (h : Sees W scope) :
    Action l W (fun ev => ev.exprFor scope target e) Within := by
  unfold Evaluator.exprFor
  split
  · exact exprNamed h
  · exact expr h

theorem key {scope : ScopeId} {k : Key} (h : Sees W scope) :
    Action l W (fun ev => ev.key scope k) Free := by
  cases k with
  | static name => exact .pure trivial
  | computed e => exact .bind (expr h) fun _ _ _ _ => .done .text

theorem reference {scope : ScopeId} {target : Expr} (h : Sees W scope) :
    Action l W (fun ev => ev.reference scope target) Within := by
  unfold Evaluator.reference
  split
  · exact .pure within_bindingReference
  · refine .bind (expr h) fun W₁ h₁ receiver hr => .map (key (h.mono h₁)) fun _ h₂ _ _ => ?_
    exact within_property.mpr (hr.mono h₂)
  · exact .never .defend

/-- The member that a pattern writes to is evaluated before anything is written. -/
theorem patternReference {scope : ScopeId} {target : Pattern} {line : Nat} (h : Sees W scope) :
    Action l W (fun ev => ev.patternReference scope target line) Within := by
  unfold Evaluator.patternReference
  split
  · exact .pure within_bindingReference
  · exact reference h
  · exact .never .defend

omit [l.Evaluates] in
theorem readReference {scope : ScopeId} {r : Reference} {line : Nat} (hr : Within W r) :
    Action l W (fun _ => Exec.readReference scope r line) Within := by
  cases r with
  | binding name => exact .plain .valueOf fun _ h => h
  | property receiver key => exact getMember hr

omit [l.Evaluates] in
theorem writeReference [l.Binds] {scope : ScopeId} {r : Reference} {v : Value} {line : Nat}
    (hr : Within W r) (hv : Within W v) :
    Action l W (fun _ => Exec.writeReference scope r v line) Free := by
  cases r with
  | binding name => exact .done (.assign hv)
  | property receiver key => exact .done (.setMember hr hv)

/-- A default value is evaluated only for `undefined`. -/
theorem bindElement {scope : ScopeId} {element : PatternElement} {v : Value} {mode : BindMode}
    {line : Nat} (h : Sees W scope) (hv : Within W v) :
    Action l W (fun ev => ev.bindElement scope element v mode line) Free := by
  unfold Evaluator.bindElement
  split
  · exact .bind (exprFor h) fun _ h₁ _ hv => bindTo (h.mono h₁) hv
  · exact .seq (P := Within W) (.pure hv) fun _ hv => bindTo h hv

/-- The items are handed out to the places of the pattern from left to right. -/
theorem bindSlots {scope : ScopeId} {items : Array Value} {mode : BindMode} {line n : Nat}
    {slots : List Slot} (h : Sees W scope) (hi : Within W items) :
    Action l W (fun ev => ev.bindSlots scope items mode line n slots) Free := by
  induction slots generalizing W n with
  | nil => exact .pure trivial
  | cons slot slots ih =>
    cases slot with
    | hole => exact ih h hi
    | filled element =>
      exact .bind (bindElement h (hi.getD n)) fun _ h₁ _ _ => ih (h.mono h₁) (hi.mono h₁)

/-- Each property is read right before it is bound. -/
theorem bindProperties {scope : ScopeId} {v : Value} {mode : BindMode} {line : Nat} :
    ∀ {W : World} {properties : List PropertyPattern}, Sees W scope → Within W v →
      Action l W (fun ev => ev.bindProperties scope v mode line properties) Free
  | _, [], _, _ => .pure trivial
  | _, _ :: _, h, hv =>
    .bind (key h) fun _ h₁ _ _ => .bind (getMember (hv.mono h₁)) fun _ h₂ _ hitem =>
      .bind (bindElement (h.mono (h₁.trans h₂)) hitem) fun _ h₃ _ _ =>
        have h' := h₁.trans (h₂.trans h₃)
        .map (bindProperties (h.mono h') (hv.mono h')) fun _ _ _ _ => trivial

/-- **Writing a value to a pattern.** -/
theorem bindPattern {scope : ScopeId} {p : Pattern} {v : Value} {mode : BindMode} {line : Nat}
    (h : Sees W scope) (hv : Within W v) :
    Action l W (fun ev => ev.bindPattern scope p v mode line) Free := by
  cases p with
  | name x =>
    cases mode with
    | declare kind => exact .done (.define h hv)
    | assign => exact .done (.assign hv)
  | member target =>
    exact .bind (reference h) fun _ h₁ _ hr => writeReference hr (hv.mono h₁)
  | array slots rest =>
    refine .seq .iterate fun items hi => .bind (bindSlots h hi) fun W₁ h₁ _ _ => ?_
    cases rest with
    | none => exact .pure trivial
    | some rest =>
      refine .bind (makeArray ((hi.mono h₁).extract _ _)) fun W₂ h₂ _ hr => ?_
      exact bindTo (h.mono (h₁.trans h₂)) hr
  | object properties rest =>
    refine .ite (fun _ => .seq .inspect fun _ _ => .never (.misuse rfl)) fun _ => ?_
    refine .bind (bindProperties h hv) fun W₁ h₁ used _ => ?_
    cases rest with
    | none => exact .pure trivial
    | some rest =>
      refine .seq (.elementary .heap) fun hp hhp => ?_
      refine .bind (makePlain (Within.propsOfList ?_)) fun W₂ h₂ _ hr => ?_
      · exact hhp.ownEntries.of_subset List.filter_sublist.subset
      · exact bindTo (h.mono (h₁.trans h₂)) hr

/-- The elements of a list are evaluated from left to right; a spread brings in items of the heap.
-/
theorem elements {scope : ScopeId} : ∀ {W : World} {es : List Element} {done : Array Value},
    Sees W scope → Within W done → Action l W (fun ev => ev.elements scope es done) Within
  | _, [], _, _, hd => .pure hd
  | _, .single _ :: _, _, h, hd => .bind (expr h) fun _ h₁ _ hv =>
    elements (h.mono h₁) ((hd.mono h₁).push hv)
  | _, .spread _ :: _, _, h, hd => .bind (expr h) fun _ h₁ _ _ => .seq .iterate fun _ hi =>
    .seq .checkArrayLength fun _ _ =>
      elements (h.mono h₁) (within_arrayAppend.mpr ⟨hd.mono h₁, hi⟩)

/-! ## Calls -/

/-- The functions of a block are made when it is entered. -/
theorem hoistBlock {scope : ScopeId} {ss : List Stmt} (h : Sees W scope) :
    Action l W (fun _ => Exec.hoistBlock scope ss) Free := by
  induction ss generalizing W with
  | nil => exact .pure trivial
  | cons s ss ih =>
    unfold Exec.hoistBlock
    split
    · refine .bind (makeClosure h) fun W₁ h₁ closure hc => ?_
      exact .seq (.define (h.mono h₁) hc) fun _ _ => ih (h.mono h₁)
    · exact ih h

omit [l.Evaluates] in
theorem hoistNames [l.Binds] {scope : ScopeId} (h : Sees W scope) :
    ∀ {names : List String}, Plain l W (Exec.hoistNames scope names) Any
  | [] => .pure trivial
  | _ :: _ => .bind (.elementary .scopes) fun _ _ =>
    .ite (fun _ => .bind (.define h within_undefined) fun _ _ => hoistNames h) fun _ => hoistNames h

theorem hoistBody {scope : ScopeId} {body : List Stmt} (h : Sees W scope) :
    Action l W (fun _ => Exec.hoistBody scope body) Free :=
  .seq (hoistNames h) fun _ _ => hoistBlock h

/-- The statements run one behind the other until one of them jumps. -/
theorem statements [l.Roams] {scope : ScopeId} {ss : List Stmt} (h : Sees W scope) :
    Action l W (fun ev => ev.statements scope ss) Within := by
  induction ss generalizing W with
  | nil => exact .pure within_normal
  | cons s ss ih =>
    refine .bind (.eval (w := .statement scope none s) ⟨‹_›, ‹_›, h⟩) fun W₁ h₁ c hc => ?_
    split
    · exact ih (h.mono h₁)
    · exact .pure hc

theorem parameterValue {scope : ScopeId} {p : PatternElement} {v : Value} (h : Sees W scope)
    (hv : Within W v) : Action l W (fun ev => ev.parameterValue scope p v) Within := by
  unfold Evaluator.parameterValue
  split
  · exact expr h
  · exact .pure hv

/-- Each parameter takes its argument, or its default value if there is none. -/
theorem bindParameters {scope : ScopeId} {line : Nat} {ps : List PatternElement}
    {args : List Value} (h : Sees W scope) (ha : Within W args) :
    Action l W (fun ev => ev.bindParameters scope line ps args) Within := by
  induction ps generalizing W args with
  | nil => exact .pure ha
  | cons p ps ih =>
    refine .bind (parameterValue h (ha.argument 0)) fun W₁ h₁ v hv => ?_
    refine .bind (bindTo (h.mono h₁) hv) fun W₂ h₂ _ _ => ?_
    exact ih (h.mono (h₁.trans h₂)) (ha.tail.mono (h₁.trans h₂))

/-- What is left of the arguments becomes an array for the last parameter. -/
theorem bindArguments {scope : ScopeId} {f : Syntax.Function} {args : List Value}
    (h : Sees W scope) (ha : Within W args) :
    Action l W (fun ev => ev.bindArguments scope f args) Free := by
  refine .bind (bindParameters h ha) fun W₁ h₁ remaining hr => ?_
  split
  · exact .pure trivial
  · refine .bind (makeArray (within_toArray.mpr hr)) fun W₂ h₂ _ hr => ?_
    exact bindTo (h.mono (h₁.trans h₂)) hr

/-- A block gives what it returns, an expression its value. -/
theorem runBody [l.Roams] {scope : ScopeId} {body : Syntax.FunctionBody} (h : Sees W scope) :
    Action l W (fun ev => ev.runBody scope body) Within := by
  cases body with
  | expr e => exact expr h
  | block body =>
    refine .bind (hoistBody h) fun W₁ h₁ _ _ => .bind (statements (h.mono h₁)) fun W₂ h₂ c hc => ?_
    split
    · exact .pure hc
    · exact .pure within_undefined

/-- A call of a closure from its parts. -/
theorem call {id : ObjectId} {c : Closure} {this : Value} {args : List Value} {line : Nat}
    (hid : .object id ∈ W) (hc : Within W c) (ht : Within W this) (ha : Within W args) :
    Action l W (fun ev => ev.invoke id c this args line) Within :=
  .invoke hid hc ht (fun _ hW _ hs => bindArguments (sees_of_mem hs) (ha.mono hW))
    (fun _ _ _ _ hs => runBody (sees_of_mem hs)) inferInstance

/-- **A call of a value.** -/
theorem applyValue {f this : Value} {args : List Value} {line : Nat} (hf : Within W f)
    (ht : Within W this) (ha : Within W args) :
    Action l W (fun ev => ev.applyValue f this args line) Within := by
  cases f
  case function f => exact callHost ha
  case host h => exact callConstructor ha
  case object id =>
    refine .seq .body? fun b hb => ?_
    split
    · exact call (within_object.mp hf) hb ht ha
    · obtain ⟨htarget, hthis, hbound⟩ := within_boundBody.mp hb
      exact apply htarget hthis (within_append.mpr ⟨hbound, ha⟩)
    · exact callMethod hb ha
    · have hpromise := within_resolverBody.mp (within_some.mp hb)
      exact .plain (.callResolver hpromise (ha.argument 0)) fun _ h => h
    · exact .seq .inspect fun _ _ => .never (.misuse rfl)
  case undefined | null | bool | number | string | globalThis =>
    exact .seq .inspect fun _ _ => .never (.misuse rfl)

/-- The receiver of a method call is evaluated once. -/
theorem callTarget? {scope : ScopeId} {callee : Expr} (h : Sees W scope) :
    Action l W (fun ev => ev.callTarget? scope callee) Within := by
  unfold Evaluator.callTarget?
  split
  · refine .bind (expr h) fun W₁ h₁ receiver hr => .ite (fun _ => .pure within_none) fun _ => ?_
    refine .bind (key (h.mono h₁)) fun W₂ h₂ k _ => .seq (.elementary .heap) fun _ _ => ?_
    refine .ite (fun _ => .pure (hr.mono h₂)) fun _ => ?_
    refine .map (getMember (hr.mono h₂)) fun W₃ h₃ f hf => ?_
    exact within_valueTarget.mpr ⟨hf, hr.mono (h₂.trans h₃)⟩
  · exact .map (expr h) fun _ _ _ hf => within_valueTarget.mpr ⟨hf, within_undefined⟩

/-- **A call expression.** -/
theorem evalCall {scope : ScopeId} {callee : Expr} {args : List Element} {isOptional : Bool}
    {line : Nat} (h : Sees W scope) :
    Action l W (fun ev => ev.evalCall scope callee args isOptional line) Within := by
  refine .bind (callTarget? h) fun W₁ h₁ target ht => ?_
  split
  · exact .pure within_undefined
  · have hr := within_methodTarget.mp (within_some.mp ht)
    refine .bind (elements (h.mono h₁) (within_toArray.mpr within_nil)) fun W₂ h₂ args ha => ?_
    exact callMethod (hr.mono h₂) ha
  · obtain ⟨hf, hthis⟩ := within_valueTarget.mp (within_some.mp ht)
    refine .ite (fun _ => .pure within_undefined) fun _ => ?_
    refine .bind (elements (h.mono h₁) (within_toArray.mpr within_nil)) fun W₂ h₂ args ha => ?_
    refine .seq .isCallable fun _ _ => .ite (fun _ => ?_) fun _ => ?_
    · exact .seq (.misuse rfl) nofun
    · exact apply (hf.mono h₂) (hthis.mono h₂) ha

/-- `new` makes an object of its class, and keeps it unless another object is returned. -/
theorem instantiate {id : ObjectId} {c : Closure} {args : List Value} {line : Nat}
    (hid : .object id ∈ W) (hc : Within W c) (ha : Within W args) :
    Action l W (fun ev => ev.instantiate id c args line) Within := by
  have hempty : Within W (Body.plain .empty) := within_nil
  refine .bind (.allocate hempty rfl nofun) fun W₁ h₁ fresh hfresh => ?_
  have hthis : Within W₁ (Value.object fresh) := within_object.mpr hfresh.1
  refine .bind (call (h₁ hid) (hc.mono h₁) hthis (ha.mono h₁)) fun W₂ h₂ v hv => ?_
  refine .seq (.elementary .heap) fun _ _ => .pure ?_
  split
  · exact hv
  · exact hthis.mono h₂

/-- **A `new` expression.** -/
theorem evalNew {scope : ScopeId} {callee : Expr} {args : List Element} {line : Nat}
    (h : Sees W scope) : Action l W (fun ev => ev.evalNew scope callee args line) Within := by
  refine .bind (expr h) fun W₁ h₁ constructor hctor => ?_
  refine .bind (elements (h.mono h₁) (within_toArray.mpr within_nil)) fun W₂ h₂ args ha => ?_
  split
  · exact construct ha
  · have hid := within_object.mp (hctor.mono h₂)
    refine .seq .body? fun b hb => ?_
    split
    · refine .ite (fun _ => .seq (.misuse rfl) nofun) fun _ => ?_
      exact instantiate hid hb ha
    · exact .never (.misuse rfl)
  · exact .never (.misuse rfl)

/-! ## Expressions -/

theorem templateText {scope : ScopeId} {line : Nat} :
    ∀ {W : World} {out : String} {es : List Expr} {pieces : List String}, Sees W scope →
      Action l W (fun ev => ev.templateText scope line out es pieces) Free
  | _, _, [], _, _ => .pure trivial
  | _, _, _ :: _, _, h => .bind (expr h) fun _ h₁ _ _ => .seq .text fun _ _ =>
    .seq .checkStringLength fun _ _ => templateText (h.mono h₁)

/-- The properties of a literal are put in from left to right. -/
theorem properties {scope : ScopeId} : ∀ {W : World} {ps : List Property} {done : Props},
    Sees W scope → Within W done → Action l W (fun ev => ev.properties scope ps done) Within
  | _, [], _, _, hd => .pure hd
  | _, .keyed _ _ :: _, _, h, hd => .bind (key h) fun _ h₁ _ _ =>
    .bind (exprNamed (h.mono h₁)) fun _ h₂ _ hv =>
      properties (h.mono (h₁.trans h₂)) ((hd.mono (h₁.trans h₂)).propsSet hv)
  | _, .spread _ :: _, _, h, hd => .bind (expr h) fun _ h₁ _ _ =>
    .seq (.elementary .heap) fun _ hh =>
      properties (h.mono h₁) ((hd.mono h₁).foldSet hh.ownEntries)

theorem sequence {scope : ScopeId} : ∀ {W : World} {last : Value} {es : List Expr},
    Sees W scope → Within W last → Action l W (fun ev => ev.sequence scope last es) Within
  | _, _, [], _, hv => .pure hv
  | _, _, _ :: _, h, _ => .bind (expr h) fun _ h₁ _ hv => sequence (h.mono h₁) hv

omit [l.Evaluates] in
/-- Apart from `delete` the operators on one value change nothing. -/
theorem unary {op : Syntax.UnaryOperator} {v : Value} {line : Nat} (hop : op ≠ .delete) :
    Plain l W (Exec.unary op v line) (Within W) := by
  cases op
  case not => exact .pure within_bool
  case negate | plus | bitNot => exact .map .number fun _ _ => within_number
  case typeof => exact .withHeap fun _ _ => .pure within_string
  case void => exact .pure within_undefined
  case delete => exact absurd rfl hop

/-- An operator on the value of its operand. -/
theorem evalOperand {scope : ScopeId} {op : Syntax.UnaryOperator} {operand : Expr} {line : Nat}
    (h : Sees W scope) (hop : op ≠ .delete) :
    Action l W (fun ev => do Exec.unary op (← ev.expr scope operand) line) Within :=
  .bind (expr h) fun _ _ _ _ => .plain (unary hop) fun _ h => h

/-- `typeof` spares an unknown name, and `delete` takes a property away. -/
theorem evalUnary {scope : ScopeId} {op : Syntax.UnaryOperator} {operand : Expr} {line : Nat}
    (h : Sees W scope) : Action l W (fun ev => ev.evalUnary scope op operand line) Within := by
  cases op
  case delete =>
    unfold Evaluator.evalUnary
    dsimp only
    split
    · exact .pure within_bool
    · exact .bind (.discard (expr h)) fun _ _ _ _ => .pure within_bool
    · refine .bind (reference h) fun W₁ h₁ r hr => ?_
      split
      · exact .seq (.deleteMember (within_property.mp hr)) fun _ _ => .pure within_bool
      · exact .pure within_bool
  case typeof =>
    unfold Evaluator.evalUnary
    dsimp only
    split
    · refine .seq .valueOf? fun v _ => .seq (P := Any) (.pure trivial) fun bound _ => ?_
      exact .ite (fun _ => evalOperand h nofun) fun _ => .pure within_string
    · refine .seq (P := Any) (.pure trivial) fun bound _ => ?_
      exact .ite (fun _ => evalOperand h nofun) fun _ => .pure within_string
  case not | negate | plus | bitNot | void => exact evalOperand h nofun

theorem evalUpdate {scope : ScopeId} {op : Syntax.UpdateOperator} {before : Bool} {target : Expr}
    {line : Nat} (h : Sees W scope) :
    Action l W (fun ev => ev.evalUpdate scope op before target line) Within := by
  refine .bind (reference h) fun W₁ h₁ r hr => .bind (readReference hr) fun W₂ h₂ v _ => ?_
  refine .seq .number fun old _ => .bind (writeReference (hr.mono h₂) within_number) ?_
  exact fun _ _ _ _ => .pure within_number

/-- **An assignment.** -/
theorem evalAssign {scope : ScopeId} {op : Syntax.AssignOperator} {target : Pattern}
    {value : Expr} {line : Nat} (h : Sees W scope) :
    Action l W (fun ev => ev.evalAssign scope op target value line) Within := by
  cases op with
  | plain =>
    refine .bind (exprFor h) fun W₁ h₁ v hv => .bind (bindTo (h.mono h₁) hv) fun W₂ h₂ _ _ => ?_
    exact .pure (hv.mono h₂)
  | compound op =>
    refine .bind (patternReference h) fun W₁ h₁ r hr => ?_
    refine .bind (readReference hr) fun W₂ h₂ current _ => ?_
    refine .bind (expr (h.mono (h₁.trans h₂))) fun W₃ h₃ operand _ => .seq .binary fun v hv => ?_
    refine .bind (writeReference (hr.mono (h₂.trans h₃)) hv) fun W₄ h₄ _ _ => ?_
    exact .pure (hv.mono h₄)
  | logical op =>
    refine .bind (patternReference h) fun W₁ h₁ r hr => ?_
    refine .bind (readReference hr) fun W₂ h₂ current hc => .ite (fun _ => .pure hc) fun _ => ?_
    refine .bind (expr (h.mono (h₁.trans h₂))) fun W₃ h₃ v hv => ?_
    refine .bind (writeReference (hr.mono (h₂.trans h₃)) hv) fun W₄ h₄ _ _ => ?_
    exact .pure (hv.mono h₄)

/-- **An expression.** -/
theorem evalExpr {scope : ScopeId} {e : Expr} (h : Sees W scope) :
    Action l W (fun ev => ev.evalExpr scope e) Within := by
  unfold Evaluator.evalExpr
  dsimp only
  split
  · exact .pure within_number
  · exact .pure within_string
  · exact .pure within_bool
  · exact .pure within_null
  · exact .map (templateText h) fun _ _ _ _ => within_string
  · exact .plain .valueOf fun _ h => h
  · exact .seq (.elementary .scopes) fun _ hs => .pure hs.1.receiver
  · exact .bind (elements h (within_toArray.mpr within_nil)) fun _ _ _ hi => makeArray hi
  · exact .bind (properties h within_nil) fun _ _ _ hp => makePlain hp
  · exact makeClosure h
  · exact evalUnary h
  · exact evalUpdate h
  · exact .bind (expr h) fun _ h₁ _ _ => .bind (expr (h.mono h₁)) fun _ _ _ _ =>
      .plain .binary fun _ h => h
  · refine .bind (expr h) fun W₁ h₁ v hv => .ite (fun _ => .pure hv) fun _ => expr (h.mono h₁)
  · exact evalAssign h
  · refine .bind (expr h) fun W₁ h₁ v hv => ?_
    exact .ite (fun _ => expr (h.mono h₁)) fun _ => expr (h.mono h₁)
  · exact evalCall h
  · exact evalNew h
  · refine .bind (expr h) fun W₁ h₁ v hv => .ite (fun _ => .pure within_undefined) fun _ => ?_
    exact .bind (key (h.mono h₁)) fun _ h₂ _ _ => getMember (hv.mono h₂)
  · exact sequence h within_undefined

end Action

end ScriptTrace
