import ScriptTrace.Syntax.Rules

/-!
# Proofs/Syntax/Relocated — trees without their places and at other ones

`unplaced` puts everything in a tree at the start of the text and leaves the rest of it as it is, so
two trees are equal up to places if they are equal without them.  A relocation says where every
place of a text goes and what becomes of an excerpt, and `relocated` takes a tree along.  `Places`
and `Located` extend this to the values that are read on the way to a tree.
-/

namespace ScriptTrace.Syntax

open Grammar (Position)

/-! ## Trees without their places -/

mutual

/-- An expression that does not tell where it stands. -/
@[simp] def Expr.unplaced : Expr → Expr
  | .mk node _ => .mk node.unplaced .start

/-- An expression apart from its place without places. -/
@[simp] def ExprNode.unplaced : ExprNode → ExprNode
  | .number x => .number x
  | .string s => .string s
  | .bool b => .bool b
  | .null => .null
  | .template pieces values => .template pieces (exprsUnplaced values)
  | .name x => .name x
  | .this => .this
  | .array elements => .array (elementsUnplaced elements)
  | .object properties => .object (propertiesUnplaced properties)
  | .function f => .function f.unplaced
  | .unary op operand => .unary op operand.unplaced
  | .update op before target => .update op before target.unplaced
  | .binary op left right => .binary op left.unplaced right.unplaced
  | .logical op left right => .logical op left.unplaced right.unplaced
  | .assign op target value => .assign op target.unplaced value.unplaced
  | .conditional test yes no => .conditional test.unplaced yes.unplaced no.unplaced
  | .call callee arguments isOptional =>
    .call callee.unplaced (elementsUnplaced arguments) isOptional
  | .new callee arguments => .new callee.unplaced (elementsUnplaced arguments)
  | .member object key isOptional => .member object.unplaced key.unplaced isOptional
  | .sequence items => .sequence (exprsUnplaced items)

/-- Expressions without places. -/
@[simp] def exprsUnplaced : List Expr → List Expr
  | [] => []
  | e :: es => e.unplaced :: exprsUnplaced es

/-- An element without places. -/
@[simp] def Element.unplaced : Element → Element
  | .single value => .single value.unplaced
  | .spread source => .spread source.unplaced

/-- Elements without places. -/
@[simp] def elementsUnplaced : List Element → List Element
  | [] => []
  | e :: es => e.unplaced :: elementsUnplaced es

/-- A property without places. -/
@[simp] def Property.unplaced : Property → Property
  | .keyed key value => .keyed key.unplaced value.unplaced
  | .spread source => .spread source.unplaced

/-- Properties without places. -/
@[simp] def propertiesUnplaced : List Property → List Property
  | [] => []
  | e :: es => e.unplaced :: propertiesUnplaced es

/-- A key without places. -/
@[simp] def Key.unplaced : Key → Key
  | .static x => .static x
  | .computed value => .computed value.unplaced

/-- A pattern whose expressions do not tell where they stand. -/
@[simp] def Pattern.unplaced : Pattern → Pattern
  | .name x => .name x
  | .member target => .member target.unplaced
  | .array slots rest => .array (slotsUnplaced slots) (restUnplaced rest)
  | .object properties rest =>
    .object (propertyPatternsUnplaced properties) (restUnplaced rest)

/-- The pattern behind the dots without places, if there is one. -/
@[simp] def restUnplaced : Option Pattern → Option Pattern
  | none => none
  | some p => some p.unplaced

/-- A place of an array pattern without places. -/
@[simp] def Slot.unplaced : Slot → Slot
  | .hole => .hole
  | .filled element => .filled element.unplaced

/-- The places of an array pattern without places. -/
@[simp] def slotsUnplaced : List Slot → List Slot
  | [] => []
  | e :: es => e.unplaced :: slotsUnplaced es

/-- A property of an object pattern without places. -/
@[simp] def PropertyPattern.unplaced : PropertyPattern → PropertyPattern
  | .mk key element => .mk key.unplaced element.unplaced

/-- The properties of an object pattern without places. -/
@[simp] def propertyPatternsUnplaced :
    List PropertyPattern → List PropertyPattern
  | [] => []
  | e :: es => e.unplaced :: propertyPatternsUnplaced es

/-- A pattern with its default value without places. -/
@[simp] def PatternElement.unplaced : PatternElement → PatternElement
  | .mk target fallback => .mk target.unplaced (optionExprUnplaced fallback)

/-- Patterns with their default values without places. -/
@[simp] def patternElementsUnplaced : List PatternElement → List PatternElement
  | [] => []
  | e :: es => e.unplaced :: patternElementsUnplaced es

/-- An expression without places, if there is one. -/
@[simp] def optionExprUnplaced : Option Expr → Option Expr
  | none => none
  | some e => some e.unplaced

/-- A function that does not tell where it stands. -/
@[simp] def Function.unplaced : Function → Function
  | .mk name parameters rest body isArrow _ =>
    .mk name (patternElementsUnplaced parameters) (restUnplaced rest) body.unplaced
      isArrow .start

/-- The body of a function without places. -/
@[simp] def FunctionBody.unplaced : FunctionBody → FunctionBody
  | .block body => .block (stmtsUnplaced body)
  | .expr value => .expr value.unplaced

/-- A statement that does not tell where it stands; its first line stays. -/
@[simp] def Stmt.unplaced : Stmt → Stmt
  | .mk node _ t => .mk node.unplaced .start t

/-- A statement apart from its place without places. -/
@[simp] def StmtNode.unplaced : StmtNode → StmtNode
  | .declare kind ds => .declare kind (declaratorsUnplaced ds)
  | .function f => .function f.unplaced
  | .return value => .return (optionExprUnplaced value)
  | .ifElse test yes no =>
    .ifElse test.unplaced yes.unplaced (optionStmtUnplaced no)
  | .forLoop start test update body =>
    .forLoop (optionStartUnplaced start) (optionExprUnplaced test)
      (optionExprUnplaced update) body.unplaced
  | .forEach loop kind target source body =>
    .forEach loop kind target.unplaced source.unplaced body.unplaced
  | .while test body => .while test.unplaced body.unplaced
  | .doWhile body test => .doWhile body.unplaced test.unplaced
  | .break label => .break label
  | .continue label => .continue label
  | .throw value => .throw value.unplaced
  | .try body handler finalizer =>
    .try (stmtsUnplaced body) (optionHandlerUnplaced handler)
      (optionStmtsUnplaced finalizer)
  | .switch value cases => .switch value.unplaced (casesUnplaced cases)
  | .labeled label body => .labeled label body.unplaced
  | .block body => .block (stmtsUnplaced body)
  | .expr value => .expr value.unplaced
  | .empty => .empty

/-- Statements without places. -/
@[simp] def stmtsUnplaced : List Stmt → List Stmt
  | [] => []
  | s :: ss => s.unplaced :: stmtsUnplaced ss

/-- A statement without places, if there is one. -/
@[simp] def optionStmtUnplaced : Option Stmt → Option Stmt
  | none => none
  | some s => some s.unplaced

/-- A block without places, if there is one. -/
@[simp] def optionStmtsUnplaced : Option (List Stmt) → Option (List Stmt)
  | none => none
  | some ss => some (stmtsUnplaced ss)

/-- A declared pattern with its value without places. -/
@[simp] def Declarator.unplaced : Declarator → Declarator
  | .mk target value => .mk target.unplaced (optionExprUnplaced value)

/-- Declared patterns with their values without places. -/
@[simp] def declaratorsUnplaced : List Declarator → List Declarator
  | [] => []
  | d :: ds => d.unplaced :: declaratorsUnplaced ds

/-- The start of a counting loop without places. -/
@[simp] def ForStart.unplaced : ForStart → ForStart
  | .declare kind ds => .declare kind (declaratorsUnplaced ds)
  | .expr value => .expr value.unplaced

/-- The start of a counting loop without places, if there is one. -/
@[simp] def optionStartUnplaced : Option ForStart → Option ForStart
  | none => none
  | some start => some start.unplaced

/-- The handler of a `try` without places. -/
@[simp] def Handler.unplaced : Handler → Handler
  | .mk parameter body => .mk (restUnplaced parameter) (stmtsUnplaced body)

/-- The handler of a `try` without places, if there is one. -/
@[simp] def optionHandlerUnplaced : Option Handler → Option Handler
  | none => none
  | some h => some h.unplaced

/-- A case of a `switch` without places. -/
@[simp] def Case.unplaced : Case → Case
  | .mk test body => .mk (optionExprUnplaced test) (stmtsUnplaced body)

/-- The cases of a `switch` without places. -/
@[simp] def casesUnplaced : List Case → List Case
  | [] => []
  | c :: cs => c.unplaced :: casesUnplaced cs

end

/-- A function that changes one element after the other. -/
theorem eq_map {α : Type} {list : List α → List α} {one : α → α} (nil : list [] = [])
    (cons : ∀ v vs, list (v :: vs) = one v :: list vs) (vs : List α) : list vs = vs.map one := by
  induction vs with
  | nil => exact nil
  | cons v vs ih => rw [cons, ih, List.map_cons]

@[simp] theorem exprsUnplaced_eq : ∀ es, exprsUnplaced es = es.map Expr.unplaced :=
  eq_map rfl fun _ _ => rfl

@[simp] theorem elementsUnplaced_eq : ∀ es, elementsUnplaced es = es.map Element.unplaced :=
  eq_map rfl fun _ _ => rfl

@[simp] theorem propertiesUnplaced_eq :
    ∀ es, propertiesUnplaced es = es.map Property.unplaced :=
  eq_map rfl fun _ _ => rfl

@[simp] theorem slotsUnplaced_eq : ∀ es, slotsUnplaced es = es.map Slot.unplaced :=
  eq_map rfl fun _ _ => rfl

@[simp] theorem propertyPatternsUnplaced_eq :
    ∀ es, propertyPatternsUnplaced es = es.map PropertyPattern.unplaced :=
  eq_map rfl fun _ _ => rfl

@[simp] theorem patternElementsUnplaced_eq :
    ∀ es, patternElementsUnplaced es = es.map PatternElement.unplaced :=
  eq_map rfl fun _ _ => rfl

@[simp] theorem stmtsUnplaced_eq : ∀ ss, stmtsUnplaced ss = ss.map Stmt.unplaced :=
  eq_map rfl fun _ _ => rfl

@[simp] theorem declaratorsUnplaced_eq :
    ∀ ds, declaratorsUnplaced ds = ds.map Declarator.unplaced :=
  eq_map rfl fun _ _ => rfl

@[simp] theorem casesUnplaced_eq : ∀ cs, casesUnplaced cs = cs.map Case.unplaced :=
  eq_map rfl fun _ _ => rfl

@[simp] theorem restUnplaced_eq (p : Option Pattern) :
    restUnplaced p = p.map Pattern.unplaced := by cases p <;> rfl

@[simp] theorem optionExprUnplaced_eq (e : Option Expr) :
    optionExprUnplaced e = e.map Expr.unplaced := by cases e <;> rfl

@[simp] theorem optionStmtUnplaced_eq (s : Option Stmt) :
    optionStmtUnplaced s = s.map Stmt.unplaced := by cases s <;> rfl

@[simp] theorem optionStmtsUnplaced_eq (ss : Option (List Stmt)) :
    optionStmtsUnplaced ss = ss.map (List.map Stmt.unplaced) := by
  cases ss with
  | none => rfl
  | some ss => exact congrArg some (stmtsUnplaced_eq ss)

@[simp] theorem optionStartUnplaced_eq (s : Option ForStart) :
    optionStartUnplaced s = s.map ForStart.unplaced := by cases s <;> rfl

@[simp] theorem optionHandlerUnplaced_eq (h : Option Handler) :
    optionHandlerUnplaced h = h.map Handler.unplaced := by cases h <;> rfl

/-! ## Values without their places -/

/-- Values that may hold places. -/
class Places (α : Type) where
  /-- The value with everything at the start of the text. -/
  unplaced : α → α

attribute [simp] Places.unplaced

section

open Places

namespace Places

variable {α β : Type}

/-- A value without places. -/
@[reducible] def plain (α : Type) : Places α := ⟨fun v => v⟩

instance : Places Unit := plain _
instance : Places Char := plain _
instance : Places String := plain _
instance : Places Float := plain _
instance : Places LoopOver := plain _
instance : Places Infix := plain _
instance : Places DeclarationKind := plain _
instance : Places UpdateOperator := plain _
instance : Places PrefixOperator := plain _
instance : Places AssignOperator := plain _

instance : Places Position := ⟨fun _ => .start⟩

/-! ### Several values -/

instance [Places α] : Places (List α) := ⟨List.map unplaced⟩
instance [Places α] : Places (Option α) := ⟨Option.map unplaced⟩
instance [Places α] [Places β] : Places (α × β) :=
  ⟨fun v => (unplaced v.1, unplaced v.2)⟩
instance [Places α] [Places β] : Places (α ⊕ β) :=
  ⟨Sum.map unplaced unplaced⟩

instance : Places SyntaxError := ⟨fun e => ⟨e.fault, .start⟩⟩

/-- A fault stands at its place. -/
instance [Places α] : Places (Built α) where
  unplaced
    | .ok v => .ok (unplaced v)
    | .error e => .error (unplaced e)

/-! ### Trees and their parts -/

instance : Places Expr := ⟨Expr.unplaced⟩
instance : Places ExprNode := ⟨ExprNode.unplaced⟩
instance : Places Element := ⟨Element.unplaced⟩
instance : Places Property := ⟨Property.unplaced⟩
instance : Places Key := ⟨Key.unplaced⟩
instance : Places Pattern := ⟨Pattern.unplaced⟩
instance : Places Slot := ⟨Slot.unplaced⟩
instance : Places PropertyPattern := ⟨PropertyPattern.unplaced⟩
instance : Places PatternElement := ⟨PatternElement.unplaced⟩
instance : Places Function := ⟨Function.unplaced⟩
instance : Places FunctionBody := ⟨FunctionBody.unplaced⟩
instance : Places Stmt := ⟨Stmt.unplaced⟩
instance : Places StmtNode := ⟨StmtNode.unplaced⟩
instance : Places Declarator := ⟨Declarator.unplaced⟩
instance : Places ForStart := ⟨ForStart.unplaced⟩
instance : Places Handler := ⟨Handler.unplaced⟩
instance : Places Case := ⟨Case.unplaced⟩

instance : Places SlotPart where
  unplaced
    | .empty => .empty
    | .rest target => .rest (unplaced target)
    | .element value => .element (unplaced value)

instance : Places PropertyPart where
  unplaced
    | .rest target => .rest (unplaced target)
    | .keyed key element => .keyed (unplaced key) (unplaced element)
    | .shorthand element => .shorthand (unplaced element)

instance : Places ParameterPart where
  unplaced
    | .rest target => .rest (unplaced target)
    | .element value => .element (unplaced value)

instance : Places FunctionTail where
  unplaced tail := ⟨unplaced tail.elements, unplaced tail.rest, unplaced tail.body⟩

instance : Places Suffix where
  unplaced
    | .call arguments isOptional => .call (unplaced arguments) isOptional
    | .member key isOptional => .member (unplaced key) isOptional

instance : Places LoopHead where
  unplaced
    | .each loop kind target source => .each loop kind (unplaced target) (unplaced source)
    | .counting start test update =>
      .counting (unplaced start) (unplaced test) (unplaced update)

end Places

end

/-! ## Trees at other places -/

/-- **A change of places**, and of the excerpts of statements. -/
structure Relocation where
  position : Position → Position
  excerpt : String → String

mutual

/-- An expression as it is found at other places of a text. -/
@[simp] def Expr.relocated (m : Relocation) : Expr → Expr
  | .mk node p => .mk (node.relocated m) (m.position p)

/-- An expression apart from its place at other places. -/
@[simp] def ExprNode.relocated (m : Relocation) : ExprNode → ExprNode
  | .number x => .number x
  | .string s => .string s
  | .bool b => .bool b
  | .null => .null
  | .template pieces values => .template pieces (exprsRelocated m values)
  | .name x => .name x
  | .this => .this
  | .array elements => .array (elementsRelocated m elements)
  | .object properties => .object (propertiesRelocated m properties)
  | .function f => .function (f.relocated m)
  | .unary op operand => .unary op (operand.relocated m)
  | .update op before target => .update op before (target.relocated m)
  | .binary op left right => .binary op (left.relocated m) (right.relocated m)
  | .logical op left right => .logical op (left.relocated m) (right.relocated m)
  | .assign op target value => .assign op (target.relocated m) (value.relocated m)
  | .conditional test yes no => .conditional (test.relocated m) (yes.relocated m) (no.relocated m)
  | .call callee arguments isOptional =>
    .call (callee.relocated m) (elementsRelocated m arguments) isOptional
  | .new callee arguments => .new (callee.relocated m) (elementsRelocated m arguments)
  | .member object key isOptional => .member (object.relocated m) (key.relocated m) isOptional
  | .sequence items => .sequence (exprsRelocated m items)

/-- Expressions at other places. -/
@[simp] def exprsRelocated (m : Relocation) : List Expr → List Expr
  | [] => []
  | e :: es => e.relocated m :: exprsRelocated m es

/-- An element at other places. -/
@[simp] def Element.relocated (m : Relocation) : Element → Element
  | .single value => .single (value.relocated m)
  | .spread source => .spread (source.relocated m)

/-- Elements at other places. -/
@[simp] def elementsRelocated (m : Relocation) : List Element → List Element
  | [] => []
  | e :: es => e.relocated m :: elementsRelocated m es

/-- A property at other places. -/
@[simp] def Property.relocated (m : Relocation) : Property → Property
  | .keyed key value => .keyed (key.relocated m) (value.relocated m)
  | .spread source => .spread (source.relocated m)

/-- Properties at other places. -/
@[simp] def propertiesRelocated (m : Relocation) : List Property → List Property
  | [] => []
  | e :: es => e.relocated m :: propertiesRelocated m es

/-- A key at other places. -/
@[simp] def Key.relocated (m : Relocation) : Key → Key
  | .static x => .static x
  | .computed value => .computed (value.relocated m)

/-- A pattern with its expressions at other places. -/
@[simp] def Pattern.relocated (m : Relocation) : Pattern → Pattern
  | .name x => .name x
  | .member target => .member (target.relocated m)
  | .array slots rest => .array (slotsRelocated m slots) (restRelocated m rest)
  | .object properties rest =>
    .object (propertyPatternsRelocated m properties) (restRelocated m rest)

/-- The pattern behind the dots at other places, if there is one. -/
@[simp] def restRelocated (m : Relocation) : Option Pattern → Option Pattern
  | none => none
  | some p => some (p.relocated m)

/-- A place of an array pattern at other places. -/
@[simp] def Slot.relocated (m : Relocation) : Slot → Slot
  | .hole => .hole
  | .filled element => .filled (element.relocated m)

/-- The places of an array pattern at other places. -/
@[simp] def slotsRelocated (m : Relocation) : List Slot → List Slot
  | [] => []
  | e :: es => e.relocated m :: slotsRelocated m es

/-- A property of an object pattern at other places. -/
@[simp] def PropertyPattern.relocated (m : Relocation) : PropertyPattern → PropertyPattern
  | .mk key element => .mk (key.relocated m) (element.relocated m)

/-- The properties of an object pattern at other places. -/
@[simp] def propertyPatternsRelocated (m : Relocation) :
    List PropertyPattern → List PropertyPattern
  | [] => []
  | e :: es => e.relocated m :: propertyPatternsRelocated m es

/-- A pattern with its default value at other places. -/
@[simp] def PatternElement.relocated (m : Relocation) : PatternElement → PatternElement
  | .mk target fallback => .mk (target.relocated m) (optionExprRelocated m fallback)

/-- Patterns with their default values at other places. -/
@[simp] def patternElementsRelocated (m : Relocation) : List PatternElement → List PatternElement
  | [] => []
  | e :: es => e.relocated m :: patternElementsRelocated m es

/-- An expression at other places, if there is one. -/
@[simp] def optionExprRelocated (m : Relocation) : Option Expr → Option Expr
  | none => none
  | some e => some (e.relocated m)

/-- A function as it is found at other places. -/
@[simp] def Function.relocated (m : Relocation) : Function → Function
  | .mk name parameters rest body isArrow p =>
    .mk name (patternElementsRelocated m parameters) (restRelocated m rest) (body.relocated m)
      isArrow (m.position p)

/-- The body of a function at other places. -/
@[simp] def FunctionBody.relocated (m : Relocation) : FunctionBody → FunctionBody
  | .block body => .block (stmtsRelocated m body)
  | .expr value => .expr (value.relocated m)

/-- A statement at another place, under another first line. -/
@[simp] def Stmt.relocated (m : Relocation) : Stmt → Stmt
  | .mk node p t => .mk (node.relocated m) (m.position p) (m.excerpt t)

/-- A statement apart from its place at other places. -/
@[simp] def StmtNode.relocated (m : Relocation) : StmtNode → StmtNode
  | .declare kind ds => .declare kind (declaratorsRelocated m ds)
  | .function f => .function (f.relocated m)
  | .return value => .return (optionExprRelocated m value)
  | .ifElse test yes no =>
    .ifElse (test.relocated m) (yes.relocated m) (optionStmtRelocated m no)
  | .forLoop start test update body =>
    .forLoop (optionStartRelocated m start) (optionExprRelocated m test)
      (optionExprRelocated m update) (body.relocated m)
  | .forEach loop kind target source body =>
    .forEach loop kind (target.relocated m) (source.relocated m) (body.relocated m)
  | .while test body => .while (test.relocated m) (body.relocated m)
  | .doWhile body test => .doWhile (body.relocated m) (test.relocated m)
  | .break label => .break label
  | .continue label => .continue label
  | .throw value => .throw (value.relocated m)
  | .try body handler finalizer =>
    .try (stmtsRelocated m body) (optionHandlerRelocated m handler)
      (optionStmtsRelocated m finalizer)
  | .switch value cases => .switch (value.relocated m) (casesRelocated m cases)
  | .labeled label body => .labeled label (body.relocated m)
  | .block body => .block (stmtsRelocated m body)
  | .expr value => .expr (value.relocated m)
  | .empty => .empty

/-- Statements at other places. -/
@[simp] def stmtsRelocated (m : Relocation) : List Stmt → List Stmt
  | [] => []
  | s :: ss => s.relocated m :: stmtsRelocated m ss

/-- A statement at other places, if there is one. -/
@[simp] def optionStmtRelocated (m : Relocation) : Option Stmt → Option Stmt
  | none => none
  | some s => some (s.relocated m)

/-- A block at other places, if there is one. -/
@[simp] def optionStmtsRelocated (m : Relocation) : Option (List Stmt) → Option (List Stmt)
  | none => none
  | some ss => some (stmtsRelocated m ss)

/-- A declared pattern with its value at other places. -/
@[simp] def Declarator.relocated (m : Relocation) : Declarator → Declarator
  | .mk target value => .mk (target.relocated m) (optionExprRelocated m value)

/-- Declared patterns with their values at other places. -/
@[simp] def declaratorsRelocated (m : Relocation) : List Declarator → List Declarator
  | [] => []
  | d :: ds => d.relocated m :: declaratorsRelocated m ds

/-- The start of a counting loop at other places. -/
@[simp] def ForStart.relocated (m : Relocation) : ForStart → ForStart
  | .declare kind ds => .declare kind (declaratorsRelocated m ds)
  | .expr value => .expr (value.relocated m)

/-- The start of a counting loop at other places, if there is one. -/
@[simp] def optionStartRelocated (m : Relocation) : Option ForStart → Option ForStart
  | none => none
  | some start => some (start.relocated m)

/-- The handler of a `try` at other places. -/
@[simp] def Handler.relocated (m : Relocation) : Handler → Handler
  | .mk parameter body => .mk (restRelocated m parameter) (stmtsRelocated m body)

/-- The handler of a `try` at other places, if there is one. -/
@[simp] def optionHandlerRelocated (m : Relocation) : Option Handler → Option Handler
  | none => none
  | some h => some (h.relocated m)

/-- A case of a `switch` at other places. -/
@[simp] def Case.relocated (m : Relocation) : Case → Case
  | .mk test body => .mk (optionExprRelocated m test) (stmtsRelocated m body)

/-- The cases of a `switch` at other places. -/
@[simp] def casesRelocated (m : Relocation) : List Case → List Case
  | [] => []
  | c :: cs => c.relocated m :: casesRelocated m cs

end

variable (m : Relocation)

@[simp] theorem exprsRelocated_eq : ∀ es, exprsRelocated m es = es.map (Expr.relocated m) :=
  eq_map rfl fun _ _ => rfl

@[simp] theorem elementsRelocated_eq :
    ∀ es, elementsRelocated m es = es.map (Element.relocated m) :=
  eq_map rfl fun _ _ => rfl

@[simp] theorem propertiesRelocated_eq :
    ∀ es, propertiesRelocated m es = es.map (Property.relocated m) :=
  eq_map rfl fun _ _ => rfl

@[simp] theorem slotsRelocated_eq : ∀ es, slotsRelocated m es = es.map (Slot.relocated m) :=
  eq_map rfl fun _ _ => rfl

@[simp] theorem propertyPatternsRelocated_eq :
    ∀ es, propertyPatternsRelocated m es = es.map (PropertyPattern.relocated m) :=
  eq_map rfl fun _ _ => rfl

@[simp] theorem patternElementsRelocated_eq :
    ∀ es, patternElementsRelocated m es = es.map (PatternElement.relocated m) :=
  eq_map rfl fun _ _ => rfl

@[simp] theorem stmtsRelocated_eq : ∀ ss, stmtsRelocated m ss = ss.map (Stmt.relocated m) :=
  eq_map rfl fun _ _ => rfl

@[simp] theorem declaratorsRelocated_eq :
    ∀ ds, declaratorsRelocated m ds = ds.map (Declarator.relocated m) :=
  eq_map rfl fun _ _ => rfl

@[simp] theorem casesRelocated_eq : ∀ cs, casesRelocated m cs = cs.map (Case.relocated m) :=
  eq_map rfl fun _ _ => rfl

@[simp] theorem restRelocated_eq (p : Option Pattern) :
    restRelocated m p = p.map (Pattern.relocated m) := by cases p <;> rfl

@[simp] theorem optionExprRelocated_eq (e : Option Expr) :
    optionExprRelocated m e = e.map (Expr.relocated m) := by cases e <;> rfl

@[simp] theorem optionStmtRelocated_eq (s : Option Stmt) :
    optionStmtRelocated m s = s.map (Stmt.relocated m) := by cases s <;> rfl

@[simp] theorem optionStmtsRelocated_eq (ss : Option (List Stmt)) :
    optionStmtsRelocated m ss = ss.map (List.map (Stmt.relocated m)) := by
  cases ss with
  | none => rfl
  | some ss => exact congrArg some (stmtsRelocated_eq m ss)

@[simp] theorem optionStartRelocated_eq (s : Option ForStart) :
    optionStartRelocated m s = s.map (ForStart.relocated m) := by cases s <;> rfl

@[simp] theorem optionHandlerRelocated_eq (h : Option Handler) :
    optionHandlerRelocated m h = h.map (Handler.relocated m) := by cases h <;> rfl

/-! ## Values at other places -/

/-- Values in which something may stand at a place. -/
class Located (α : Type) where
  /-- The value with everything at its new place. -/
  relocated : Relocation → α → α

attribute [simp] Located.relocated

open Located

namespace Located

variable {α β : Type}

/-- A value without places. -/
@[reducible] def plain (α : Type) : Located α := ⟨fun _ v => v⟩

instance : Located Unit := plain _
instance : Located Char := plain _
instance : Located String := plain _
instance : Located Float := plain _
instance : Located LoopOver := plain _
instance : Located Infix := plain _
instance : Located DeclarationKind := plain _
instance : Located UpdateOperator := plain _
instance : Located PrefixOperator := plain _
instance : Located AssignOperator := plain _

instance : Located Position := ⟨Relocation.position⟩

/-! ### Several values -/

instance [Located α] : Located (List α) := ⟨fun m => List.map (relocated m)⟩
instance [Located α] : Located (Option α) := ⟨fun m => Option.map (relocated m)⟩
instance [Located α] [Located β] : Located (α × β) :=
  ⟨fun m v => (relocated m v.1, relocated m v.2)⟩
instance [Located α] [Located β] : Located (α ⊕ β) :=
  ⟨fun m => Sum.map (relocated m) (relocated m)⟩

/-- Characters have no place. -/
theorem relocated_chars {m : Relocation} (cs : List Char) : relocated m cs = cs :=
  List.map_id'' (fun _ => rfl) cs

instance : Located SyntaxError := ⟨fun m e => ⟨e.fault, m.position e.position⟩⟩

/-- A fault stands at its place. -/
instance [Located α] : Located (Built α) where
  relocated m
    | .ok v => .ok (relocated m v)
    | .error e => .error (relocated m e)

/-! ### Trees and their parts -/

instance : Located Expr := ⟨Expr.relocated⟩
instance : Located ExprNode := ⟨ExprNode.relocated⟩
instance : Located Element := ⟨Element.relocated⟩
instance : Located Property := ⟨Property.relocated⟩
instance : Located Key := ⟨Key.relocated⟩
instance : Located Pattern := ⟨Pattern.relocated⟩
instance : Located Slot := ⟨Slot.relocated⟩
instance : Located PropertyPattern := ⟨PropertyPattern.relocated⟩
instance : Located PatternElement := ⟨PatternElement.relocated⟩
instance : Located Function := ⟨Function.relocated⟩
instance : Located FunctionBody := ⟨FunctionBody.relocated⟩
instance : Located Stmt := ⟨Stmt.relocated⟩
instance : Located StmtNode := ⟨StmtNode.relocated⟩
instance : Located Declarator := ⟨Declarator.relocated⟩
instance : Located ForStart := ⟨ForStart.relocated⟩
instance : Located Handler := ⟨Handler.relocated⟩
instance : Located Case := ⟨Case.relocated⟩

instance : Located SlotPart where
  relocated m
    | .empty => .empty
    | .rest target => .rest (relocated m target)
    | .element value => .element (relocated m value)

instance : Located PropertyPart where
  relocated m
    | .rest target => .rest (relocated m target)
    | .keyed key element => .keyed (relocated m key) (relocated m element)
    | .shorthand element => .shorthand (relocated m element)

instance : Located ParameterPart where
  relocated m
    | .rest target => .rest (relocated m target)
    | .element value => .element (relocated m value)

instance : Located FunctionTail where
  relocated m tail := ⟨relocated m tail.elements, relocated m tail.rest, relocated m tail.body⟩

instance : Located Suffix where
  relocated m
    | .call arguments isOptional => .call (relocated m arguments) isOptional
    | .member key isOptional => .member (relocated m key) isOptional

instance : Located LoopHead where
  relocated m
    | .each loop kind target source => .each loop kind (relocated m target) (relocated m source)
    | .counting start test update =>
      .counting (relocated m start) (relocated m test) (relocated m update)

end Located

/-! ## Everything at the start -/

/-- Everything is at the start of the text. -/
def Relocation.toStart : Relocation := ⟨fun _ => .start, id⟩

section

open Places

-- Both functions are the same recursion.

theorem Pattern.relocated_toStart (p : Pattern) : p.relocated .toStart = p.unplaced := by
  delta Pattern.relocated Pattern.unplaced
  with_unfolding_all rfl

theorem PatternElement.relocated_toStart (e : PatternElement) :
    e.relocated .toStart = e.unplaced := by
  delta PatternElement.relocated PatternElement.unplaced
  with_unfolding_all rfl

theorem Stmt.relocated_toStart (s : Stmt) : s.relocated .toStart = s.unplaced := by
  delta Stmt.relocated Stmt.unplaced
  with_unfolding_all rfl

theorem relocated_toStart_pattern (target : Built Pattern) :
    relocated .toStart target = unplaced target := by
  cases target with
  | error e => rfl
  | ok p => exact congrArg Except.ok p.relocated_toStart

theorem FunctionTail.relocated_toStart (tail : FunctionTail) :
    relocated .toStart tail = unplaced tail := by
  have helements : PatternElement.relocated .toStart = PatternElement.unplaced :=
    funext PatternElement.relocated_toStart
  have hrest : Pattern.relocated .toStart = Pattern.unplaced := funext Pattern.relocated_toStart
  have hbody : Stmt.relocated .toStart = Stmt.unplaced := funext Stmt.relocated_toStart
  simp only [relocated, unplaced, helements, hrest, hbody]

end

end ScriptTrace.Syntax
