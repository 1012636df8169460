import ScriptTrace.Syntax.Rules

/-!
# Proofs/Syntax/Part — the parts of a program

`nodes` lists everything that stands in a piece of syntax, at any depth: expressions, patterns,
functions, declarations and statements.  A pattern that binds new names is listed once more as such,
so that a condition on all nodes can tell it from the target of an assignment.

`Parts` extends the list to the values that are read on the way to a tree, with the statements and
the binding patterns that stand in them directly.
-/

namespace ScriptTrace.Syntax

open Grammar (Position)

/-- A part of a program. -/
inductive Node where
  | expr (node : ExprNode)
  | pattern (p : Pattern)
  /-- A pattern that binds new names. -/
  | binding (p : Pattern)
  | function (f : Function)
  | declaration (kind : DeclarationKind) (declarators : List Declarator)
  | statement (s : Stmt)
  /-- What a statement does. -/
  | deed (node : StmtNode)

/-! ## Everything that stands in a tree -/

mutual

/-- The parts of an expression, itself the first of them. -/
@[simp] def Expr.nodes : Expr → List Node
  | .mk node _ => .expr node :: node.inside

/-- What stands in an expression, itself apart. -/
@[simp] def ExprNode.inside : ExprNode → List Node
  | .number _ | .string _ | .bool _ | .null | .name _ | .this => []
  | .template _ values => exprsNodes values
  | .array elements => elementsNodes elements
  | .object properties => propertiesNodes properties
  | .function f => f.nodes
  | .unary _ operand => operand.nodes
  | .update _ _ target => target.nodes
  | .binary _ left right => left.nodes ++ right.nodes
  | .logical _ left right => left.nodes ++ right.nodes
  | .assign _ target value => target.nodes ++ value.nodes
  | .conditional test yes no => test.nodes ++ (yes.nodes ++ no.nodes)
  | .call callee arguments _ => callee.nodes ++ elementsNodes arguments
  | .new callee arguments => callee.nodes ++ elementsNodes arguments
  | .member object key _ => object.nodes ++ key.nodes
  | .sequence items => exprsNodes items

/-- The nodes of expressions. -/
@[simp] def exprsNodes : List Expr → List Node
  | [] => []
  | e :: es => e.nodes ++ exprsNodes es

/-- The nodes of an element. -/
@[simp] def Element.nodes : Element → List Node
  | .single value => value.nodes
  | .spread source => source.nodes

/-- The nodes of elements. -/
@[simp] def elementsNodes : List Element → List Node
  | [] => []
  | e :: es => e.nodes ++ elementsNodes es

/-- The nodes of a property. -/
@[simp] def Property.nodes : Property → List Node
  | .keyed key value => key.nodes ++ value.nodes
  | .spread source => source.nodes

/-- The nodes of properties. -/
@[simp] def propertiesNodes : List Property → List Node
  | [] => []
  | e :: es => e.nodes ++ propertiesNodes es

/-- The nodes of a key. -/
@[simp] def Key.nodes : Key → List Node
  | .static _ => []
  | .computed value => value.nodes

/-- The parts of a pattern, itself the first of them. -/
@[simp] def Pattern.nodes : Pattern → List Node
  | .name x => [.pattern (.name x)]
  | .member target => .pattern (.member target) :: target.nodes
  | .array slots rest => .pattern (.array slots rest) :: (slotsNodes slots ++ restNodes rest)
  | .object properties rest =>
    .pattern (.object properties rest) :: (propertyPatternsNodes properties ++ restNodes rest)

/-- The nodes of the pattern behind the dots, if there is one. -/
@[simp] def restNodes : Option Pattern → List Node
  | none => []
  | some p => p.nodes

/-- The nodes of a place of an array pattern. -/
@[simp] def Slot.nodes : Slot → List Node
  | .hole => []
  | .filled element => element.nodes

/-- The nodes of the places of an array pattern. -/
@[simp] def slotsNodes : List Slot → List Node
  | [] => []
  | e :: es => e.nodes ++ slotsNodes es

/-- The nodes of a property of an object pattern. -/
@[simp] def PropertyPattern.nodes : PropertyPattern → List Node
  | .mk key element => key.nodes ++ element.nodes

/-- The nodes of the properties of an object pattern. -/
@[simp] def propertyPatternsNodes : List PropertyPattern → List Node
  | [] => []
  | e :: es => e.nodes ++ propertyPatternsNodes es

/-- The nodes of a pattern with its default value. -/
@[simp] def PatternElement.nodes : PatternElement → List Node
  | .mk target fallback => target.nodes ++ optionExprNodes fallback

/-- The nodes of an expression, if there is one. -/
@[simp] def optionExprNodes : Option Expr → List Node
  | none => []
  | some e => e.nodes

/-- Parameters bind their targets. -/
@[simp] def parametersNodes : List PatternElement → List Node
  | [] => []
  | .mk target fallback :: more =>
    .binding target :: (target.nodes ++ optionExprNodes fallback) ++ parametersNodes more

/-- The parts of a pattern that binds names, if there is one. -/
@[simp] def bindingNodes : Option Pattern → List Node
  | none => []
  | some p => .binding p :: p.nodes

/-- The parts of a function, itself the first of them. -/
@[simp] def Function.nodes : Function → List Node
  | .mk name parameters rest body isArrow p =>
    .function (.mk name parameters rest body isArrow p) ::
      (parametersNodes parameters ++ (bindingNodes rest ++ body.nodes))

/-- The nodes of the body of a function. -/
@[simp] def FunctionBody.nodes : FunctionBody → List Node
  | .block body => stmtsNodes body
  | .expr value => value.nodes

/-- The parts of a statement, itself the first of them. -/
@[simp] def Stmt.nodes : Stmt → List Node
  | .mk node p t => .statement (.mk node p t) :: .deed node :: node.inside

/-- What stands in a statement, itself apart. -/
@[simp] def StmtNode.inside : StmtNode → List Node
  | .declare kind ds => .declaration kind ds :: declaratorsNodes ds
  | .function f => f.nodes
  | .return value => optionExprNodes value
  | .ifElse test yes no => test.nodes ++ (yes.nodes ++ optionStmtNodes no)
  | .forLoop start test update body =>
    optionStartNodes start ++ (optionExprNodes test ++ (optionExprNodes update ++ body.nodes))
  | .forEach _ kind target source body =>
    (if kind.isSome then [.binding target] else []) ++
      (target.nodes ++ (source.nodes ++ body.nodes))
  | .while test body => test.nodes ++ body.nodes
  | .doWhile body test => body.nodes ++ test.nodes
  | .break _ | .continue _ | .empty => []
  | .throw value => value.nodes
  | .try body handler finalizer =>
    stmtsNodes body ++ (optionHandlerNodes handler ++ optionStmtsNodes finalizer)
  | .switch value cases => value.nodes ++ casesNodes cases
  | .labeled _ body => body.nodes
  | .block body => stmtsNodes body
  | .expr value => value.nodes

/-- The nodes of statements. -/
@[simp] def stmtsNodes : List Stmt → List Node
  | [] => []
  | s :: ss => s.nodes ++ stmtsNodes ss

/-- The nodes of a statement, if there is one. -/
@[simp] def optionStmtNodes : Option Stmt → List Node
  | none => []
  | some s => s.nodes

/-- The nodes of a block, if there is one. -/
@[simp] def optionStmtsNodes : Option (List Stmt) → List Node
  | none => []
  | some ss => stmtsNodes ss

/-- The nodes of a declared pattern with its value. -/
@[simp] def Declarator.nodes : Declarator → List Node
  | .mk target value => .binding target :: (target.nodes ++ optionExprNodes value)

/-- The nodes of declared patterns with their values. -/
@[simp] def declaratorsNodes : List Declarator → List Node
  | [] => []
  | d :: ds => d.nodes ++ declaratorsNodes ds

/-- The parts of the start of a counting loop, which may declare variables. -/
@[simp] def ForStart.nodes : ForStart → List Node
  | .declare kind ds => .declaration kind ds :: declaratorsNodes ds
  | .expr value => value.nodes

/-- The nodes of the start of a counting loop, if there is one. -/
@[simp] def optionStartNodes : Option ForStart → List Node
  | none => []
  | some start => start.nodes

/-- The nodes of the handler of a `try`. -/
@[simp] def Handler.nodes : Handler → List Node
  | .mk parameter body => bindingNodes parameter ++ stmtsNodes body

/-- The nodes of the handler of a `try`, if there is one. -/
@[simp] def optionHandlerNodes : Option Handler → List Node
  | none => []
  | some h => h.nodes

/-- The nodes of a case of a `switch`. -/
@[simp] def Case.nodes : Case → List Node
  | .mk test body => optionExprNodes test ++ stmtsNodes body

/-- The nodes of the cases of a `switch`. -/
@[simp] def casesNodes : List Case → List Node
  | [] => []
  | c :: cs => c.nodes ++ casesNodes cs

end

/-! ## The statements of a statement -/

/-- The statements that stand in a statement directly, not inside an expression or another
statement, in the order of the text. -/
@[simp] def StmtNode.row : StmtNode → List Stmt
  | .ifElse _ yes no => yes :: no.toList
  | .forLoop _ _ _ body | .forEach _ _ _ _ body | .while _ body | .doWhile body _
  | .labeled _ body => [body]
  | .try body handler finalizer =>
    body ++ (handler.elim [] Handler.body ++ finalizer.getD [])
  | .switch _ cases => cases.flatMap Case.body
  | .block body => body
  | _ => []

/-- The statements of a function body. -/
@[simp] def FunctionBody.row : FunctionBody → List Stmt
  | .block body => body
  | .expr _ => []

/-! ## Lists of parts -/

/-- A function that lists the parts of one element after the other. -/
theorem eq_flatMap {α : Type} {list : List α → List Node} {one : α → List Node}
    (nil : list [] = []) (cons : ∀ v vs, list (v :: vs) = one v ++ list vs) (vs : List α) :
    list vs = vs.flatMap one := by
  induction vs with
  | nil => exact nil
  | cons v vs ih => rw [cons, ih, List.flatMap_cons]

@[simp] theorem exprsNodes_eq : ∀ es, exprsNodes es = es.flatMap Expr.nodes :=
  eq_flatMap rfl fun _ _ => rfl

@[simp] theorem elementsNodes_eq : ∀ es, elementsNodes es = es.flatMap Element.nodes :=
  eq_flatMap rfl fun _ _ => rfl

@[simp] theorem propertiesNodes_eq : ∀ es, propertiesNodes es = es.flatMap Property.nodes :=
  eq_flatMap rfl fun _ _ => rfl

@[simp] theorem slotsNodes_eq : ∀ es, slotsNodes es = es.flatMap Slot.nodes :=
  eq_flatMap rfl fun _ _ => rfl

@[simp] theorem propertyPatternsNodes_eq :
    ∀ es, propertyPatternsNodes es = es.flatMap PropertyPattern.nodes :=
  eq_flatMap rfl fun _ _ => rfl

@[simp] theorem parametersNodes_eq :
    ∀ es, parametersNodes es = es.flatMap fun e => .binding e.target :: e.nodes :=
  eq_flatMap rfl fun ⟨_, _⟩ _ => rfl

@[simp] theorem stmtsNodes_eq : ∀ ss, stmtsNodes ss = ss.flatMap Stmt.nodes :=
  eq_flatMap rfl fun _ _ => rfl

@[simp] theorem declaratorsNodes_eq : ∀ ds, declaratorsNodes ds = ds.flatMap Declarator.nodes :=
  eq_flatMap rfl fun _ _ => rfl

@[simp] theorem casesNodes_eq : ∀ cs, casesNodes cs = cs.flatMap Case.nodes :=
  eq_flatMap rfl fun _ _ => rfl

section

variable {s : Stmt}

theorem nodes_subset_flatMap {ss : List Stmt} (h : s ∈ ss) : s.nodes ⊆ ss.flatMap Stmt.nodes :=
  fun _ hpart => List.mem_flatMap.mpr ⟨s, h, hpart⟩

theorem Handler.nodes_subset {h : Handler} (hs : s ∈ h.body) : s.nodes ⊆ h.nodes := by
  obtain ⟨parameter, body⟩ := h
  rw [Handler.nodes, stmtsNodes_eq]
  exact List.subset_append_of_subset_right _ (nodes_subset_flatMap hs)

theorem Case.nodes_subset {c : Case} (hs : s ∈ c.body) : s.nodes ⊆ c.nodes := by
  obtain ⟨test, body⟩ := c
  rw [Case.nodes, stmtsNodes_eq]
  exact List.subset_append_of_subset_right _ (nodes_subset_flatMap hs)

theorem FunctionBody.nodes_subset {b : FunctionBody} (hs : s ∈ b.row) : s.nodes ⊆ b.nodes := by
  cases b with
  | block body =>
    rw [FunctionBody.nodes, stmtsNodes_eq]
    exact nodes_subset_flatMap hs
  | expr value => cases hs

/-- **What stands in a statement directly stands in it.** -/
theorem StmtNode.nodes_subset {node : StmtNode} (hs : s ∈ node.row) : s.nodes ⊆ node.inside := by
  intro part hpart
  cases node with
  | ifElse test yes no =>
    rcases List.mem_cons.mp hs with rfl | hs
    · simp [inside, hpart]
    · cases no with
      | none => cases hs
      | some no =>
        obtain rfl := List.mem_singleton.mp hs
        simp [inside, optionStmtNodes, hpart]
  | forLoop | forEach | «while» | doWhile | labeled =>
    obtain rfl := List.mem_singleton.mp hs
    simp [inside, hpart]
  | «try» body handler finalizer =>
    simp only [row, List.mem_append] at hs
    simp only [inside, stmtsNodes_eq, List.mem_append]
    rcases hs with hs | hs | hs
    · exact .inl (nodes_subset_flatMap hs hpart)
    · cases handler with
      | none => cases hs
      | some h => exact .inr (.inl (h.nodes_subset hs hpart))
    · cases finalizer with
      | none => cases hs
      | some ss =>
        rw [optionStmtsNodes, stmtsNodes_eq]
        exact .inr (.inr (nodes_subset_flatMap hs hpart))
  | switch value cases =>
    obtain ⟨c, hc, hs⟩ := List.mem_flatMap.mp hs
    simp only [inside, casesNodes_eq, List.mem_append, List.mem_flatMap]
    exact .inr ⟨c, hc, c.nodes_subset hs hpart⟩
  | block body => simpa [inside] using ⟨s, hs, hpart⟩
  | _ => cases hs

end

/-! ## Values on the way to a tree -/

/-- What stands in a value, at any depth and directly. -/
class Parts (α : Type) where
  nodes : α → List Node
  /-- The statements that stand in it directly, in the order of the text. -/
  row : α → List Stmt := fun _ => []
  /-- The binding patterns that stand in it directly. -/
  binders : α → List Pattern := fun _ => []
  nodes_subset : ∀ v, ∀ s ∈ row v, s.nodes ⊆ nodes v := by simp

attribute [simp] Parts.nodes Parts.row Parts.binders

namespace Parts

variable {α β : Type}

/-- A value without parts. -/
@[reducible] def plain (α : Type) : Parts α where
  nodes _ := []

instance : Parts Unit := plain _
instance : Parts Char := plain _
instance : Parts String := plain _
instance : Parts Position := plain _
instance : Parts LoopOver := plain _
instance : Parts Infix := plain _
instance : Parts DeclarationKind := plain _
instance : Parts UpdateOperator := plain _
instance : Parts PrefixOperator := plain _
instance : Parts AssignOperator := plain _

@[simp] theorem flatMap_empty (vs : List α) : vs.flatMap (fun _ => ([] : List β)) = [] := by simp

/-! ### Several values -/

instance [Parts α] : Parts (List α) where
  nodes vs := vs.flatMap nodes
  row vs := vs.flatMap row
  binders vs := vs.flatMap binders
  nodes_subset vs s hs node hnode := by
    obtain ⟨v, hv, hs⟩ := List.mem_flatMap.mp hs
    exact List.mem_flatMap.mpr ⟨v, hv, nodes_subset v s hs hnode⟩

instance [Parts α] : Parts (Option α) where
  nodes v := v.elim [] nodes
  row v := v.elim [] row
  binders v := v.elim [] binders
  nodes_subset v s hs := by
    cases v with
    | none => cases hs
    | some v => exact nodes_subset v s hs

instance [Parts α] [Parts β] : Parts (α × β) where
  nodes v := nodes v.1 ++ nodes v.2
  row v := row v.1 ++ row v.2
  binders v := binders v.1 ++ binders v.2
  nodes_subset v s hs := by
    rcases List.mem_append.mp hs with hs | hs
    · exact List.subset_append_of_subset_left _ (nodes_subset v.1 s hs)
    · exact List.subset_append_of_subset_right _ (nodes_subset v.2 s hs)

instance [Parts α] [Parts β] : Parts (α ⊕ β) where
  nodes := Sum.elim nodes nodes
  row := Sum.elim row row
  binders := Sum.elim binders binders
  nodes_subset v s hs := by
    cases v with
    | inl v => exact nodes_subset v s hs
    | inr v => exact nodes_subset v s hs

/-- A fault has no parts. -/
instance [Parts α] : Parts (Built α) where
  nodes
    | .ok v => nodes v
    | .error _ => []
  row
    | .ok v => row v
    | .error _ => []
  binders
    | .ok v => binders v
    | .error _ => []
  nodes_subset v s hs := by
    cases v with
    | error _ => cases hs
    | ok v => exact nodes_subset v s hs

/-! ### Trees -/

instance : Parts Expr where
  nodes := Expr.nodes

instance : Parts ExprNode where
  nodes node := .expr node :: node.inside

instance : Parts Element where
  nodes := Element.nodes

instance : Parts Property where
  nodes := Property.nodes

instance : Parts Key where
  nodes := Key.nodes

instance : Parts Pattern where
  nodes := Pattern.nodes
  binders p := [p]

instance : Parts Slot where
  nodes := Slot.nodes
  binders
    | .hole => []
    | .filled element => [element.target]

instance : Parts PropertyPattern where
  nodes := PropertyPattern.nodes
  binders p := [p.element.target]

instance : Parts PatternElement where
  nodes := PatternElement.nodes
  binders p := [p.target]

instance : Parts Function where
  nodes := Function.nodes

instance : Parts FunctionBody where
  nodes := FunctionBody.nodes
  row := FunctionBody.row
  nodes_subset _ _ hs := FunctionBody.nodes_subset hs

instance : Parts Stmt where
  nodes := Stmt.nodes
  row s := [s]

instance : Parts StmtNode where
  nodes node := .deed node :: node.inside
  row := StmtNode.row
  nodes_subset _ _ hs := List.subset_cons_of_subset _ (StmtNode.nodes_subset hs)

instance : Parts Declarator where
  nodes := Declarator.nodes

/-- Several declarators with the kind of their declaration. -/
instance (priority := high) : Parts (DeclarationKind × List Declarator) where
  nodes d := .declaration d.1 d.2 :: declaratorsNodes d.2

instance : Parts ForStart where
  nodes := ForStart.nodes

instance : Parts Handler where
  nodes := Handler.nodes
  row := Handler.body
  nodes_subset _ _ hs := Handler.nodes_subset hs

instance : Parts Case where
  nodes := Case.nodes
  row := Case.body
  nodes_subset _ _ hs := Case.nodes_subset hs

/-! ### Parts of trees -/

instance : Parts SlotPart where
  nodes
    | .empty => []
    | .rest target => nodes target
    | .element value => nodes value
  binders
    | .empty => []
    | .rest target => binders target
    | .element value => binders value

instance : Parts PropertyPart where
  nodes
    | .rest target => nodes target
    | .keyed key element => nodes key ++ nodes element
    | .shorthand element => nodes element
  binders
    | .rest target => binders target
    | .keyed _ element => binders element
    | .shorthand element => binders element

instance : Parts ParameterPart where
  nodes
    | .rest target => nodes target
    | .element value => nodes value
  binders
    | .rest target => binders target
    | .element value => binders value

instance : Parts FunctionTail where
  nodes tail := nodes (tail.elements, tail.rest, tail.body)
  row tail := row (tail.elements, tail.rest, tail.body)
  binders tail := binders (tail.elements, tail.rest, tail.body)
  nodes_subset tail := nodes_subset (tail.elements, tail.rest, tail.body)

instance : Parts Suffix where
  nodes
    | .call arguments _ => nodes arguments
    | .member key _ => nodes key

/-- The target of a loop, which binds names if it is declared. -/
instance (priority := high) : Parts (Option DeclarationKind × Pattern) where
  nodes target := target.2.nodes
  binders target := if target.1.isSome then [target.2] else []

instance : Parts LoopHead where
  nodes
    | .each _ _ target source => target.nodes ++ source.nodes
    | .counting start test update => nodes start ++ (nodes test ++ nodes update)
  binders
    | .each _ kind target _ => if kind.isSome then [target] else []
    | .counting .. => []

end Parts

end ScriptTrace.Syntax
