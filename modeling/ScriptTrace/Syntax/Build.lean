import ScriptTrace.Syntax.Fault
import ScriptTrace.Text.Escape

/-!
# Syntax/Build — trees from their parts

The functions here put a tree together from parts already read and report the faults that the
grammar cannot see: targets that cannot be written, elements behind a rest, literals out of range.
-/

namespace ScriptTrace.Syntax

open Grammar (Position)

/-! ## Literals and keys -/

/-- A numeric literal. -/
def numberValue (text : List Char) (p : Position) : Built Float :=
  match Number.ofLiteral? text with
  | some x => .ok x
  | none => fault (.numberLiteral (String.ofList text)) p

/-- The text of a string literal from the characters between its quotes. -/
def stringValue (inside : List Char) : String := String.ofList (Text.unescape inside)

/-- The pieces and values of a template, from its parts in the order of the text. -/
def templateParts : List (List Char ⊕ Expr) → List String × List Expr
  | [] => ([""], [])
  | .inl chars :: parts =>
    match templateParts parts with
    | (piece :: pieces, values) =>
      ((String.ofList (Text.unescape chars) ++ piece) :: pieces, values)
    | (pieces, values) => (pieces, values)
  | .inr value :: parts =>
    let (pieces, values) := templateParts parts
    ("" :: pieces, value :: values)

/-! ## Targets -/

/-- The target and the value of a plain assignment. -/
def Expr.plainAssignment? : Expr → Option (Pattern × Expr)
  | .mk (.assign .plain target value) _ => some (target, value)
  | _ => none

/-- A target with the value of the plain assignment that the expression is, or without a value. -/
def asElement (e : Expr) (target : Built Pattern) : Built PatternElement :=
  match e.plainAssignment? with
  | some (target, value) => .ok (.mk target (some value))
  | none => target.map (PatternElement.mk · none)

mutual

/-- Reads an expression as the target of an assignment. -/
def Expr.toPattern : Expr → Built Pattern
  | .mk (.name x) _ => .ok (.name x)
  | .mk (.member object key false) p => .ok (.member (.mk (.member object key false) p))
  | .mk (.array elements) p => do
    let (slots, rest) ← elementTargets p elements
    return .array slots rest
  | .mk (.object properties) _ => do
    let (properties, rest) ← propertyTargets properties
    return .object properties rest
  | .mk _ p => fault .assignmentTarget p

/-- Reads the elements of an array literal at `p` as the slots of an array pattern. -/
def elementTargets (p : Position) : List Element → Built (List Slot × Option Pattern)
  | [] => .ok ([], none)
  | [.spread source] => do return ([], some (← source.toPattern))
  | .spread _ :: _ => fault .elementAfterRest p
  | .single value :: more => do
    let element ← asElement value value.toPattern
    let (slots, rest) ← elementTargets p more
    return (.filled element :: slots, rest)

/-- Reads the properties of an object literal as those of an object pattern; of several rests the
last one counts. -/
def propertyTargets : List Property → Built (List PropertyPattern × Option Pattern)
  | [] => .ok ([], none)
  | .keyed key value :: more => do
    let element ← asElement value value.toPattern
    let (properties, rest) ← propertyTargets more
    return (.mk key element :: properties, rest)
  | .spread source :: more => do
    let target ← source.toPattern
    let (properties, rest) ← propertyTargets more
    return (properties, rest <|> some target)

end

/-- Counting needs a name or a member. -/
def requireReference (e : Expr) : Built Unit :=
  if e.isReference then .ok () else fault .updateTarget e.position

/-- An assignment at `p`; only a plain one may write to a pattern. -/
def assignment (p : Position) (left : Expr) (op : AssignOperator) (value : Built Expr) :
    Built Expr := do
  let target ←
    if op = .plain || left.isReference then left.toPattern else fault .assignmentTarget p
  return .mk (.assign op target (← value)) p

/-! ## Patterns -/

/-- One place of an array pattern as it was read. -/
inductive SlotPart where
  | empty
  | rest (target : Built Pattern)
  | element (value : Built PatternElement)

/-- The slots of an array pattern; nothing but holes may follow a rest. -/
def arraySlots : List (Position × SlotPart) → Option Pattern → Built (List Slot × Option Pattern)
  | [], rest => .ok ([], rest)
  | (_, .empty) :: more, rest => do
    let (slots, rest) ← arraySlots more rest
    return (.hole :: slots, rest)
  | (p, .rest target) :: more, rest => do
    if rest.isSome then fault .elementAfterRest p
    else arraySlots more (some (← target))
  | (p, .element value) :: more, rest => do
    if rest.isSome then fault .elementAfterRest p
    else
      let element ← value
      let (slots, rest) ← arraySlots more rest
      return (.filled element :: slots, rest)

/-- An array pattern; an empty place at its end is only a trailing comma. -/
def arrayPattern (parts : List (Position × SlotPart)) : Built Pattern := do
  let parts := match parts.getLast? with
    | some (_, .empty) => parts.dropLast
    | _ => parts
  let (slots, rest) ← arraySlots parts none
  return .array slots rest

/-- One property of an object pattern as it was read. -/
inductive PropertyPart where
  | rest (target : Built Pattern)
  | keyed (key : Built Key) (element : Built PatternElement)
  | shorthand (element : Built PatternElement)

/-- An object pattern; of several rests the last one counts. -/
def objectProperties :
    List (Position × PropertyPart) → Built (List PropertyPattern × Option Pattern)
  | [] => .ok ([], none)
  | (_, .rest target) :: more => do
    let target ← target
    let (properties, rest) ← objectProperties more
    return (properties, rest <|> some target)
  | (_, .keyed key element) :: more => do
    let key ← key
    let element ← element
    let (properties, rest) ← objectProperties more
    return (.mk key element :: properties, rest)
  | (p, .shorthand element) :: more => do
    let element ← element
    match element.target with
    | .name x =>
      let (properties, rest) ← objectProperties more
      return (.mk (.static x) element :: properties, rest)
    | _ => fault .shorthandPattern p

/-- An object pattern from its parts, of which the dots may only stand last. -/
def objectPattern (parts : List (Position × PropertyPart)) : Built Pattern := do
  let (properties, rest) ← objectProperties parts
  return .object properties rest

/-- One parameter as it was read. -/
inductive ParameterPart where
  | rest (target : Built Pattern)
  | element (value : Built PatternElement)

/-- The parameters of a function; a rest is the last one. -/
def parameterList :
    List (Position × ParameterPart) → Option Pattern → Built (List PatternElement × Option Pattern)
  | [], rest => .ok ([], rest)
  | (p, part) :: more, rest =>
    if rest.isSome then fault .parameterAfterRest p
    else match part with
    | .rest target => do parameterList more (some (← target))
    | .element value => do
      let element ← value
      let (elements, rest) ← parameterList more rest
      return (element :: elements, rest)

/-- A function but for its name and its place. -/
structure FunctionTail where
  elements : List PatternElement
  rest : Option Pattern
  body : List Stmt

/-- The function of a name at a place. -/
def FunctionTail.function (tail : FunctionTail) (x : Option String) (p : Position) : Function :=
  .mk x tail.elements tail.rest (.block tail.body) false p

/-! ## Operators -/

/-- An operator between two operands. -/
inductive Infix where
  | binary (op : BinaryOperator)
  | logical (op : LogicalOperator)
  deriving DecidableEq, Repr

/-- How tightly an operator binds. -/
def Infix.power : Infix → Nat
  | .logical .nullish => 1
  | .logical .or => 2
  | .logical .and => 3
  | .binary op =>
    match op with
    | .strictEqual | .strictUnequal | .looseEqual | .looseUnequal => 4
    | .less | .greater | .atMost | .atLeast | .instanceOf | .within => 5
    | .add | .subtract => 6
    | .multiply | .divide | .remainder => 7
    | .power => 8

/-- The power that an operator on the right must exceed to take the operand between; the power
operator groups to the right, all others to the left. -/
def Infix.rightPower (op : Infix) : Nat :=
  if op = .binary .power then op.power - 1 else op.power

/-- The node of an operator; it starts where its left operand does. -/
def Infix.node (op : Infix) (left right : Expr) : Expr :=
  match op with
  | .binary op => .mk (.binary op left right) left.position
  | .logical op => .mk (.logical op left right) left.position

/-- Takes from `rest` the operators that bind tighter than `power`, at most `fuel` of them, and
gives back what is left. -/
def climb : Nat → Nat → Expr → List (Infix × Expr) → Expr × List (Infix × Expr)
  | 0, _, left, rest => (left, rest)
  | _ + 1, _, left, [] => (left, [])
  | fuel + 1, power, left, (op, operand) :: rest =>
    if power < op.power then
      let (right, rest) := climb fuel op.rightPower operand rest
      climb fuel power (op.node left right) rest
    else (left, (op, operand) :: rest)

/-- **The tree of a chain of operators**, grouped by their powers. -/
def chain (first : Expr) (rest : List (Infix × Expr)) : Expr := (climb rest.length 0 first rest).1

/-- An operator in front of its operand. -/
inductive PrefixOperator where
  | update (op : UpdateOperator)
  | unary (op : UnaryOperator)
  deriving DecidableEq, Repr

/-- Puts operators in front of an operand, the last one first. -/
def applyFront (operand : Expr) : List (Position × PrefixOperator) → Built Expr
  | [] => .ok operand
  | (p, op) :: more => do
    let inner ← applyFront operand more
    match op with
    | .update op =>
      requireReference inner
      return .mk (.update op true inner) p
    | .unary op => return .mk (.unary op inner) p

/-- What may follow an operand: a call or the access to a member. -/
inductive Suffix where
  | call (arguments : Built (List Element)) (isOptional : Bool)
  | member (key : Built Key) (isOptional : Bool)

/-- An operand with what follows it. -/
def applySuffixes (object : Expr) : List Suffix → Built Expr
  | [] => .ok object
  | .call arguments isOptional :: more => do
    applySuffixes (.mk (.call object (← arguments) isOptional) object.position) more
  | .member key isOptional :: more => do
    applySuffixes (.mk (.member object (← key) isOptional) object.position) more

/-- One expression, or a sequence of several. -/
def sequence (p : Position) : List Expr → Expr
  | [e] => e
  | es => .mk (.sequence es) p

/-! ## Statements -/

/-- The declarators of a declaration; a constant needs a value. -/
def declarators (kind : DeclarationKind) :
    List (Position × Built Pattern × Option (Built Expr)) → Built (List Declarator)
  | [] => .ok []
  | (p, target, value) :: more => do
    let target ← target
    let value ← optionBuilt value
    if kind = .const ∧ value.isNone then fault .constWithoutValue p
    else return .mk target value :: (← declarators kind more)

/-- The head of a `for` loop. -/
inductive LoopHead where
  | each (loop : LoopOver) (kind : Option DeclarationKind) (target : Pattern) (source : Expr)
  | counting (start : Option ForStart) (test update : Option Expr)

/-- The loop with a body. -/
def LoopHead.node (head : LoopHead) (body : Stmt) : StmtNode :=
  match head with
  | .each loop kind target source => .forEach loop kind target source body
  | .counting start test update => .forLoop start test update body

/-- The longest excerpt in characters. -/
def excerptLimit : Nat := 80

/-- The first line of a text without the blanks around it, shortened to the limit. -/
def excerpt (text : List Char) : String :=
  let line := text.takeWhile (· ≠ '\n')
  let line := Text.trim line
  if line.length > excerptLimit then String.ofList (line.take (excerptLimit - 3)) ++ "..."
  else String.ofList line

end ScriptTrace.Syntax
