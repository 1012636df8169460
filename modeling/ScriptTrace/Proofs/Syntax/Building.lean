import ScriptTrace.Proofs.Syntax.Relocated

/-!
# Proofs/Syntax/Building — trees are built from their parts alone

Every function that puts a tree together commutes with a relocation.
-/

namespace ScriptTrace.Syntax

open Grammar (Position)
open Located

/-! ## Building trees -/

section

variable {α β : Type} [Located α] [Located β] {m : Relocation}

theorem relocated_seq {x : Built α} {f g : α → Built β}
    (h : ∀ v, relocated m (f v) = g (relocated m v)) :
    relocated m (x >>= f) = relocated m x >>= g := by
  cases x with
  | error e => rfl
  | ok v => exact h v

theorem relocated_map {x : Built α} {f g : α → β} (h : ∀ v, relocated m (f v) = g (relocated m v)) :
    relocated m (x.map f) = (relocated m x).map g := by
  cases x with
  | error e => rfl
  | ok v => exact congrArg Except.ok (h v)

theorem relocated_optionBuilt (v : Option (Built α)) :
    relocated m (optionBuilt v) = optionBuilt (relocated m v) := by
  rcases v with _ | _ | v <;> rfl

omit [Located α] in
theorem allBuilt_cons (v : Built α) (vs : List (Built α)) :
    allBuilt (v :: vs) = v >>= fun w => allBuilt vs >>= fun ws => .ok (w :: ws) := by
  simp [allBuilt, pure, Except.pure]

/-- A list is moved part by part. -/
theorem relocated_allBuilt (vs : List (Built α)) :
    relocated m (allBuilt vs) = allBuilt (relocated m vs) := by
  induction vs with
  | nil => rfl
  | cons v vs ih =>
    change _ = allBuilt (relocated m v :: relocated m vs)
    rw [allBuilt_cons, allBuilt_cons, ← ih]
    exact relocated_seq fun _ => relocated_seq fun _ => rfl

theorem relocated_numberValue (text : List Char) (p : Position) :
    relocated m (numberValue text p) = numberValue text (relocated m p) := by
  unfold numberValue
  split <;> rfl

/-- The pieces of a template stay, and its values are moved. -/
theorem relocated_templateParts (parts : List (List Char ⊕ Expr)) :
    relocated m (templateParts parts) = templateParts (relocated m parts) := by
  induction parts with
  | nil => rfl
  | cons part parts ih =>
    change relocated m (templateParts (part :: parts)) =
      templateParts (relocated m part :: relocated m parts)
    cases part with
    | inl chars =>
      rw [show relocated m (Sum.inl chars : List Char ⊕ Expr) = .inl chars from
          congrArg Sum.inl (relocated_chars chars),
        templateParts, templateParts, ← ih]
      rcases templateParts parts with ⟨_ | ⟨piece, pieces⟩, values⟩ <;> simp
    | inr value =>
      rw [show relocated m (Sum.inr value : List Char ⊕ Expr) = .inr (value.relocated m) from rfl,
        templateParts, templateParts, ← ih]
      rfl

/-! ### Targets -/

@[simp] theorem Expr.position_relocated (e : Expr) :
    (e.relocated m).position = m.position e.position := by cases e; rfl

@[simp] theorem Expr.isReference_relocated (e : Expr) :
    (e.relocated m).isReference = e.isReference := by
  rcases e with ⟨node, p⟩
  cases node <;> rfl

theorem relocated_requireReference (e : Expr) :
    relocated m (requireReference e) = requireReference (relocated m e) := by
  change _ = requireReference (e.relocated m)
  unfold requireReference
  rw [Expr.isReference_relocated, Expr.position_relocated]
  cases e.isReference <;> rfl

theorem relocated_plainAssignment? (e : Expr) :
    relocated m e.plainAssignment? = (e.relocated m).plainAssignment? := by
  rcases e with ⟨node, p⟩
  cases node with
  | assign op target value => cases op <;> rfl
  | _ => rfl

/-- An element is moved with its default value. -/
theorem relocated_asElement (e : Expr) (target : Built Pattern) :
    relocated m (asElement e target) = asElement (e.relocated m) (relocated m target) := by
  unfold asElement
  rw [← relocated_plainAssignment?]
  cases e.plainAssignment? with
  | none => exact relocated_map fun _ => rfl
  | some v => rfl

mutual

/-- **An expression that is read as a pattern is moved before or behind that.** -/
theorem Expr.relocated_toPattern : ∀ e : Expr,
    relocated m e.toPattern = (e.relocated m).toPattern
  | .mk (.name x) _ => rfl
  | .mk (.member _ _ false) _ => rfl
  | .mk (.member _ _ true) _ => rfl
  | .mk (.array elements) p => by
    rw [Expr.relocated, ExprNode.relocated, Expr.toPattern, Expr.toPattern,
      ← relocated_elementTargets p elements]
    exact relocated_seq fun _ => by simp [pure, Except.pure]
  | .mk (.object properties) _ => by
    rw [Expr.relocated, ExprNode.relocated, Expr.toPattern, Expr.toPattern,
      ← relocated_propertyTargets properties]
    exact relocated_seq fun _ => by simp [pure, Except.pure]
  | .mk (.number _) _ => rfl
  | .mk (.string _) _ => rfl
  | .mk (.bool _) _ => rfl
  | .mk .null _ => rfl
  | .mk (.template ..) _ => rfl
  | .mk .this _ => rfl
  | .mk (.function _) _ => rfl
  | .mk (.unary ..) _ => rfl
  | .mk (.update ..) _ => rfl
  | .mk (.binary ..) _ => rfl
  | .mk (.logical ..) _ => rfl
  | .mk (.assign ..) _ => rfl
  | .mk (.conditional ..) _ => rfl
  | .mk (.call ..) _ => rfl
  | .mk (.new ..) _ => rfl
  | .mk (.sequence _) _ => rfl

/-- The targets of elements are moved one by one. -/
theorem relocated_elementTargets (p : Position) : ∀ elements : List Element,
    relocated m (elementTargets p elements) =
      elementTargets (m.position p) (elementsRelocated m elements)
  | [] => rfl
  | [.spread source] => by
    rw [elementsRelocated, Element.relocated, elementsRelocated, elementTargets, elementTargets,
      ← source.relocated_toPattern]
    exact relocated_seq fun _ => rfl
  | .spread _ :: _ :: _ => rfl
  | .single value :: more => by
    rw [elementsRelocated, Element.relocated, elementTargets, elementTargets,
      ← value.relocated_toPattern, ← relocated_elementTargets p more, ← relocated_asElement]
    exact relocated_seq fun _ => relocated_seq fun _ => rfl

/-- The targets of properties are moved one by one. -/
theorem relocated_propertyTargets : ∀ properties : List Property,
    relocated m (propertyTargets properties) = propertyTargets (propertiesRelocated m properties)
  | [] => rfl
  | .keyed key value :: more => by
    rw [propertiesRelocated, Property.relocated, propertyTargets, propertyTargets,
      ← value.relocated_toPattern, ← relocated_propertyTargets more, ← relocated_asElement]
    exact relocated_seq fun _ => relocated_seq fun _ => rfl
  | .spread source :: more => by
    rw [propertiesRelocated, Property.relocated, propertyTargets, propertyTargets,
      ← source.relocated_toPattern, ← relocated_propertyTargets more]
    refine relocated_seq fun _ => relocated_seq fun v => ?_
    rcases v with ⟨properties, _ | rest⟩ <;> rfl

end

/-- An assignment is moved with both of its sides. -/
theorem relocated_assignment (p : Position) (left : Expr) (op : AssignOperator)
    (value : Built Expr) :
    relocated m (assignment p left op value) =
      assignment (m.position p) (left.relocated m) op (relocated m value) := by
  unfold assignment
  rw [Expr.isReference_relocated, ← left.relocated_toPattern]
  split
  · exact relocated_seq fun _ => relocated_seq fun _ => rfl
  · rfl

/-! ### Patterns -/

/-- The places of an array pattern are moved one by one. -/
theorem relocated_arraySlots (parts : List (Position × SlotPart)) (rest : Option Pattern) :
    relocated m (arraySlots parts rest) = arraySlots (relocated m parts) (relocated m rest) := by
  induction parts generalizing rest with
  | nil => rfl
  | cons part parts ih =>
    rcases part with ⟨p, _ | target | value⟩
    · change _ = arraySlots ((m.position p, .empty) :: relocated m parts) (relocated m rest)
      rw [arraySlots, arraySlots, ← ih]
      exact relocated_seq fun _ => rfl
    · change _ = arraySlots ((m.position p, .rest (relocated m target)) :: relocated m parts)
        (relocated m rest)
      rw [arraySlots, arraySlots]
      cases rest with
      | none => exact relocated_seq fun _ => ih _
      | some _ => rfl
    · change _ = arraySlots ((m.position p, .element (relocated m value)) :: relocated m parts)
        (relocated m rest)
      rw [arraySlots, arraySlots, ← ih]
      cases rest with
      | none => exact relocated_seq fun _ => relocated_seq fun _ => rfl
      | some _ => rfl

/-- An array pattern is moved with its places. -/
theorem relocated_arrayPattern (parts : List (Position × SlotPart)) :
    relocated m (arrayPattern parts) = arrayPattern (relocated m parts) := by
  have hslots (parts : List (Position × SlotPart)) :
      relocated m (arraySlots parts none >>= fun v => (pure (.array v.1 v.2) : Built Pattern)) =
        arraySlots (relocated m parts) none >>= fun v => pure (.array v.1 v.2) := by
    rw [show arraySlots (relocated m parts) none = _ from (relocated_arraySlots parts none).symm]
    exact relocated_seq fun v => by simp [pure, Except.pure]
  have hlast : (relocated m parts).getLast? = relocated m parts.getLast? := List.getLast?_map
  have hinit : (relocated m parts).dropLast = relocated m parts.dropLast := List.map_dropLast.symm
  unfold arrayPattern
  rw [hlast, hinit]
  rcases parts.getLast? with _ | ⟨p, _ | target | value⟩
  all_goals exact hslots _

/-- The properties of an object pattern are moved one by one. -/
theorem relocated_objectProperties (parts : List (Position × PropertyPart)) :
    relocated m (objectProperties parts) = objectProperties (relocated m parts) := by
  induction parts with
  | nil => rfl
  | cons part parts ih =>
    rcases part with ⟨p, target | ⟨key, element⟩ | element⟩
    · change _ = objectProperties ((m.position p, .rest (relocated m target)) :: relocated m parts)
      rw [objectProperties, objectProperties, ← ih]
      refine relocated_seq fun _ => relocated_seq fun v => ?_
      rcases v with ⟨properties, _ | rest⟩ <;> rfl
    · change _ = objectProperties
        ((m.position p, .keyed (relocated m key) (relocated m element)) :: relocated m parts)
      rw [objectProperties, objectProperties, ← ih]
      exact relocated_seq fun _ => relocated_seq fun _ => relocated_seq fun _ => rfl
    · change _ =
        objectProperties ((m.position p, .shorthand (relocated m element)) :: relocated m parts)
      rw [objectProperties, objectProperties, ← ih]
      refine relocated_seq fun element => ?_
      rcases element with ⟨_ | _ | _ | _, fallback⟩
      · exact relocated_seq fun _ => rfl
      all_goals rfl

theorem relocated_objectPattern (parts : List (Position × PropertyPart)) :
    relocated m (objectPattern parts) = objectPattern (relocated m parts) := by
  rw [objectPattern, objectPattern, ← relocated_objectProperties]
  exact relocated_seq fun v => by simp [pure, Except.pure]

/-- Parameters are moved one by one. -/
theorem relocated_parameterList (parts : List (Position × ParameterPart)) (rest : Option Pattern) :
    relocated m (parameterList parts rest) =
      parameterList (relocated m parts) (relocated m rest) := by
  induction parts generalizing rest with
  | nil => rfl
  | cons part parts ih =>
    rcases part with ⟨p, target | value⟩
    · change _ = parameterList ((m.position p, .rest (relocated m target)) :: relocated m parts)
        (relocated m rest)
      rw [parameterList, parameterList]
      cases rest with
      | none => exact relocated_seq fun _ => ih _
      | some _ => rfl
    · change _ = parameterList ((m.position p, .element (relocated m value)) :: relocated m parts)
        (relocated m rest)
      rw [parameterList, parameterList, ← ih]
      cases rest with
      | none => exact relocated_seq fun _ => relocated_seq fun _ => rfl
      | some _ => rfl

/-! ### Functions -/

theorem relocated_function (tail : FunctionTail) (x : Option String) (p : Position) :
    (tail.function x p).relocated m = (relocated m tail : FunctionTail).function x
    (m.position p) := by
  simp [FunctionTail.function]

/-! ### Operators -/

theorem Infix.relocated_node (op : Infix) (left right : Expr) :
    (op.node left right).relocated m = op.node (left.relocated m) (right.relocated m) := by
  cases op <;> simp [Infix.node]

/-- Operands that are grouped by their operators are moved one by one. -/
theorem relocated_climb (fuel power : Nat) (left : Expr) (rest : List (Infix × Expr)) :
    relocated m (climb fuel power left rest) =
      climb fuel power (left.relocated m) (relocated m rest) := by
  induction fuel generalizing power left rest with
  | zero => rfl
  | succ fuel ih =>
    rcases rest with _ | ⟨⟨op, operand⟩, rest⟩
    · rfl
    · change _ = climb (fuel + 1) power (left.relocated m)
        ((op, (operand.relocated m)) :: relocated m rest)
      rw [climb, climb, ← ih]
      split
      · rw [ih, Infix.relocated_node]
        rfl
      · rfl

theorem relocated_chain (first : Expr) (rest : List (Infix × Expr)) :
    (chain first rest).relocated m = chain (first.relocated m) (relocated m rest) := by
  have hlength : (relocated m rest).length = rest.length := List.length_map _
  rw [chain, chain, hlength, ← relocated_climb]
  rfl

/-- An operand is moved with the operators before it. -/
theorem relocated_applyFront (operand : Expr) (front : List (Position × PrefixOperator)) :
    relocated m (applyFront operand front) = applyFront (operand.relocated m)
      (relocated m front) := by
  induction front with
  | nil => rfl
  | cons op front ih =>
    rcases op with ⟨p, op | op⟩
    · change _ = applyFront (operand.relocated m) ((m.position p, .update op) :: relocated m front)
      rw [applyFront, applyFront, ← ih]
      refine relocated_seq fun inner => ?_
      dsimp only [relocated]
      rw [← show _ = requireReference (inner.relocated m) from relocated_requireReference inner]
      exact relocated_seq fun _ => rfl
    · change _ = applyFront (operand.relocated m) ((m.position p, .unary op) :: relocated m front)
      rw [applyFront, applyFront, ← ih]
      exact relocated_seq fun _ => rfl

/-- An operand is moved with the suffixes behind it. -/
theorem relocated_applySuffixes (object : Expr) (suffixes : List Suffix) :
    relocated m (applySuffixes object suffixes) =
      applySuffixes (object.relocated m) (relocated m suffixes) := by
  induction suffixes generalizing object with
  | nil => rfl
  | cons suffix suffixes ih =>
    cases suffix with
    | call arguments isOptional =>
      change _ = applySuffixes (object.relocated m)
        (.call (relocated m arguments) isOptional :: relocated m suffixes)
      rw [applySuffixes, applySuffixes, Expr.position_relocated]
      refine relocated_seq fun v => ?_
      rw [ih, Expr.relocated, ExprNode.relocated, elementsRelocated_eq]
      rfl
    | member key isOptional =>
      change _ = applySuffixes (object.relocated m)
        (.member (relocated m key) isOptional :: relocated m suffixes)
      rw [applySuffixes, applySuffixes, Expr.position_relocated]
      refine relocated_seq fun v => ?_
      rw [ih, Expr.relocated, ExprNode.relocated]
      rfl

theorem relocated_sequence (p : Position) (es : List Expr) :
    (sequence p es).relocated m = sequence (m.position p) (relocated m es) := by
  rcases es with _ | ⟨e, _ | ⟨e', es⟩⟩ <;> simp [sequence]

/-! ### Statements -/

/-- Declared variables are moved one by one. -/
theorem relocated_declarators (kind : DeclarationKind)
    (parts : List (Position × Built Pattern × Option (Built Expr))) :
    relocated m (declarators kind parts) = declarators kind (relocated m parts) := by
  induction parts with
  | nil => rfl
  | cons part parts ih =>
    obtain ⟨p, target, value⟩ := part
    change _ = declarators kind ((m.position p, relocated m target, relocated m value) ::
      relocated m parts)
    rw [declarators, declarators, ← ih, ← relocated_optionBuilt]
    refine relocated_seq fun target => relocated_seq fun value => ?_
    have hsome : (relocated m value : Option Expr).isNone = value.isNone := Option.isNone_map
    rw [hsome]
    split
    · rfl
    · exact relocated_seq fun ds => by cases value <;> simp [pure, Except.pure]

theorem LoopHead.relocated_node (head : LoopHead) (body : Stmt) :
    (head.node body).relocated m = (relocated m head : LoopHead).node (body.relocated m) := by
  cases head <;> simp [LoopHead.node]

end

end ScriptTrace.Syntax
