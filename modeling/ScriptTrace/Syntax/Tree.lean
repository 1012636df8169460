import ScriptTrace.Grammar.Cursor

/-!
# Syntax/Tree — programs as trees

Expressions, patterns, functions and statements, each with the place where it starts.  A statement
also keeps the first line of its own text, which is how a step shows it.
-/

namespace ScriptTrace.Syntax

open Grammar (Position)

/-- The three ways to declare a variable. -/
inductive DeclarationKind where
  | var | lexical | const
  deriving DecidableEq, Repr, Inhabited

/-- The word that begins the declaration. -/
def DeclarationKind.keyword : DeclarationKind → String
  | .var => "var"
  | .lexical => "let"
  | .const => "const"

/-- Whether a loop runs over values or over keys. -/
inductive LoopOver where
  | values | keys
  deriving DecidableEq, Repr

/-- The word in the head of the loop. -/
def LoopOver.keyword : LoopOver → String
  | .values => "of"
  | .keys => "in"

/-- An operator before its only operand. -/
inductive UnaryOperator where
  | not | negate | plus | bitNot | typeof | void | delete
  deriving DecidableEq, Repr

/-- The sign or word of the operator. -/
def UnaryOperator.symbol : UnaryOperator → String
  | .not => "!"
  | .negate => "-"
  | .plus => "+"
  | .bitNot => "~"
  | .typeof => "typeof"
  | .void => "void"
  | .delete => "delete"

/-- Counting a target up or down. -/
inductive UpdateOperator where
  | increment | decrement
  deriving DecidableEq, Repr

/-- The sign of the operator. -/
def UpdateOperator.symbol : UpdateOperator → String
  | .increment => "++"
  | .decrement => "--"

/-- An operator that evaluates both of its operands. -/
inductive BinaryOperator where
  | add | subtract | multiply | divide | remainder | power
  | strictEqual | strictUnequal | looseEqual | looseUnequal
  | less | greater | atMost | atLeast
  | instanceOf | within
  deriving DecidableEq, Repr

/-- The sign or word between the operands. -/
def BinaryOperator.symbol : BinaryOperator → String
  | .add => "+"
  | .subtract => "-"
  | .multiply => "*"
  | .divide => "/"
  | .remainder => "%"
  | .power => "**"
  | .strictEqual => "==="
  | .strictUnequal => "!=="
  | .looseEqual => "=="
  | .looseUnequal => "!="
  | .less => "<"
  | .greater => ">"
  | .atMost => "<="
  | .atLeast => ">="
  | .instanceOf => "instanceof"
  | .within => "in"

/-- Operators that may leave their second operand alone. -/
inductive LogicalOperator where
  | and | or | nullish
  deriving DecidableEq, Repr

/-- The sign between the operands. -/
def LogicalOperator.symbol : LogicalOperator → String
  | .and => "&&"
  | .or => "||"
  | .nullish => "??"

/-- How an assignment combines the old value with the new one. -/
inductive AssignOperator where
  | plain
  | compound (op : BinaryOperator)
  | logical (op : LogicalOperator)
  deriving DecidableEq, Repr

/-- The sign of the assignment. -/
def AssignOperator.symbol : AssignOperator → String
  | .plain => "="
  | .compound op => op.symbol ++ "="
  | .logical op => op.symbol ++ "="

mutual

/-- An expression with its place. -/
inductive Expr where
  | mk (node : ExprNode) (position : Position)

/-- What an expression is, without its place. -/
inductive ExprNode where
  | number (value : Float)
  | string (value : String)
  | bool (value : Bool)
  | null
  /-- Literal pieces with expressions between them: one piece more than expressions. -/
  | template (pieces : List String) (values : List Expr)
  | name (x : String)
  | this
  | array (elements : List Element)
  | object (properties : List Property)
  | function (definition : Function)
  | unary (op : UnaryOperator) (operand : Expr)
  | update (op : UpdateOperator) (before : Bool) (target : Expr)
  | binary (op : BinaryOperator) (left right : Expr)
  | logical (op : LogicalOperator) (left right : Expr)
  | assign (op : AssignOperator) (target : Pattern) (value : Expr)
  | conditional (test yes no : Expr)
  | call (callee : Expr) (arguments : List Element) (isOptional : Bool)
  | new (callee : Expr) (arguments : List Element)
  | member (object : Expr) (key : Key) (isOptional : Bool)
  | sequence (items : List Expr)

/-- An element of an array literal or an argument of a call. -/
inductive Element where
  | single (value : Expr)
  | spread (source : Expr)

/-- A property of an object literal. -/
inductive Property where
  | keyed (key : Key) (value : Expr)
  | spread (source : Expr)

/-- The key of a property, known from the text or computed. -/
inductive Key where
  | static (name : String)
  | computed (value : Expr)

/-- What a declaration, a parameter or an assignment writes to. -/
inductive Pattern where
  | name (x : String)
  | member (target : Expr)
  | array (slots : List Slot) (rest : Option Pattern)
  | object (properties : List PropertyPattern) (rest : Option Pattern)

/-- A place in an array pattern. -/
inductive Slot where
  | hole
  | filled (element : PatternElement)

/-- A property of an object pattern. -/
inductive PropertyPattern where
  | mk (key : Key) (element : PatternElement)

/-- A pattern with the value it takes in place of `undefined`. -/
inductive PatternElement where
  | mk (target : Pattern) (fallback : Option Expr)

/-- A function, whether declared, an expression or an arrow. -/
inductive Function where
  | mk (name : Option String) (parameters : List PatternElement) (rest : Option Pattern)
      (body : FunctionBody) (isArrow : Bool) (position : Position)

/-- The body of a function; an arrow may have a value in place of a block. -/
inductive FunctionBody where
  | block (body : List Stmt)
  | expr (value : Expr)

/-- A statement with its place and the first line of its text. -/
inductive Stmt where
  | mk (node : StmtNode) (position : Position) (excerpt : String)

/-- What a statement is, without its place. -/
inductive StmtNode where
  | declare (kind : DeclarationKind) (declarators : List Declarator)
  | function (definition : Function)
  | return (value : Option Expr)
  | ifElse (test : Expr) (yes : Stmt) (no : Option Stmt)
  | forLoop (start : Option ForStart) (test update : Option Expr) (body : Stmt)
  | forEach (loop : LoopOver) (kind : Option DeclarationKind) (target : Pattern) (source : Expr)
      (body : Stmt)
  | while (test : Expr) (body : Stmt)
  | doWhile (body : Stmt) (test : Expr)
  | break (label : Option String)
  | continue (label : Option String)
  | throw (value : Expr)
  | try (body : List Stmt) (handler : Option Handler) (finalizer : Option (List Stmt))
  | switch (value : Expr) (cases : List Case)
  | labeled (label : String) (body : Stmt)
  | block (body : List Stmt)
  | expr (value : Expr)
  | empty

/-- What a declaration writes to, with its value. -/
inductive Declarator where
  | mk (target : Pattern) (value : Option Expr)

/-- What a counting loop does first. -/
inductive ForStart where
  | declare (kind : DeclarationKind) (declarators : List Declarator)
  | expr (value : Expr)

/-- The part of a `try` that runs for a thrown value. -/
inductive Handler where
  | mk (parameter : Option Pattern) (body : List Stmt)

/-- A case of a `switch`; without a test it is the default. -/
inductive Case where
  | mk (test : Option Expr) (body : List Stmt)

end

namespace Expr

/-- What the expression is. -/
def node : Expr → ExprNode
  | .mk n _ => n

/-- Where the expression starts. -/
def position : Expr → Position
  | .mk _ p => p

/-- The line in which the expression starts. -/
def line (e : Expr) : Nat := e.position.line

instance : Inhabited Expr := ⟨.mk .null default⟩

/-- Whether a value can be written to the expression by `++` and the compound assignments. -/
def isReference (e : Expr) : Bool :=
  match e.node with
  | .name _ => true
  | .member _ _ isOptional => !isOptional
  | _ => false

end Expr

namespace Stmt

/-- What the statement is. -/
def node : Stmt → StmtNode
  | .mk n _ _ => n

/-- Where the statement starts. -/
def position : Stmt → Position
  | .mk _ p _ => p

/-- The line in which the statement starts. -/
def line (s : Stmt) : Nat := s.position.line

/-- The first line of the text of the statement. -/
def excerpt : Stmt → String
  | .mk _ _ t => t

instance : Inhabited Stmt := ⟨.mk .empty default ""⟩

end Stmt

namespace Function

/-- The name of the function, if it has one. -/
def name : Function → Option String
  | .mk n _ _ _ _ _ => n

/-- The parameters before the dots. -/
def parameters : Function → List PatternElement
  | .mk _ ps _ _ _ _ => ps

/-- The parameter behind the dots, if there is one. -/
def rest : Function → Option Pattern
  | .mk _ _ r _ _ _ => r

/-- What the function does. -/
def body : Function → FunctionBody
  | .mk _ _ _ b _ _ => b

/-- Whether the function takes `this` from around it. -/
def isArrow : Function → Bool
  | .mk _ _ _ _ a _ => a

/-- Where the function starts. -/
def position : Function → Position
  | .mk _ _ _ _ _ p => p

instance : Inhabited Function := ⟨.mk none [] none (.block []) false default⟩

end Function

/-- What is written to. -/
def PatternElement.target : PatternElement → Pattern
  | .mk t _ => t

/-- The value in place of `undefined`, if there is one. -/
def PatternElement.fallback : PatternElement → Option Expr
  | .mk _ f => f

/-- The key that is read. -/
def PropertyPattern.key : PropertyPattern → Key
  | .mk k _ => k

/-- What the value under the key is written to. -/
def PropertyPattern.element : PropertyPattern → PatternElement
  | .mk _ e => e

/-- What is declared. -/
def Declarator.target : Declarator → Pattern
  | .mk t _ => t

/-- The first value, if there is one. -/
def Declarator.value : Declarator → Option Expr
  | .mk _ v => v

/-- What the thrown value is written to, if anything. -/
def Handler.parameter : Handler → Option Pattern
  | .mk p _ => p

/-- What runs for a thrown value. -/
def Handler.body : Handler → List Stmt
  | .mk _ b => b

/-- The value of the case, which the default has not. -/
def Case.test : Case → Option Expr
  | .mk t _ => t

/-- What runs from this case on. -/
def Case.body : Case → List Stmt
  | .mk _ b => b

instance : Inhabited Pattern := ⟨.name ""⟩

/-- A program is a list of statements. -/
abbrev Program := List Stmt

/-! ## The names a pattern binds -/

mutual

/-- The names that a pattern writes, in the order of the text. -/
def Pattern.names : Pattern → List String
  | .name x => [x]
  | .member _ => []
  | .array slots rest => slotNames slots ++ restNames rest
  | .object properties rest => propertyNames properties ++ restNames rest

/-- The names in the places of an array pattern. -/
def slotNames : List Slot → List String
  | [] => []
  | slot :: slots => slot.names ++ slotNames slots

/-- The names in a place of an array pattern. -/
def Slot.names : Slot → List String
  | .hole => []
  | .filled element => element.names

/-- The names in the properties of an object pattern. -/
def propertyNames : List PropertyPattern → List String
  | [] => []
  | property :: properties => property.names ++ propertyNames properties

/-- The names in a property of an object pattern. -/
def PropertyPattern.names : PropertyPattern → List String
  | .mk _ element => element.names

/-- The names in a pattern that has a default value. -/
def PatternElement.names : PatternElement → List String
  | .mk target _ => target.names

/-- The names behind the dots of a pattern. -/
def restNames : Option Pattern → List String
  | none => []
  | some pattern => pattern.names

end

end ScriptTrace.Syntax
