import ScriptTrace.Grammar.Form
import ScriptTrace.Syntax.Build

/-!
# Syntax/Rules — the forms of the language

Statements, expressions, single assignments, patterns, blocks and templates refer to one another and
so are rules of the grammar; strings and the statements that end with their line are rules because
no space is skipped inside them.  Everything else is a form over the rules.  A form is `named` when
a syntax error may point to the place where it was expected.
-/

namespace ScriptTrace.Syntax

open Grammar (Position Cursor Form Spacing)
open Grammar.Form

/-- The rules of the grammar, by what they yield. -/
inductive Rule : Type → Type where
  | statement : Rule (Built Stmt)
  | block : Rule (Built (List Stmt))
  | expression : Rule (Built Expr)
  | assignment : Rule (Built Expr)
  | pattern : Rule (Built Pattern)
  | string : Rule (List Char)
  | template : Rule (Built ExprNode)
  | return : Rule (Option (Built Expr))
  | break : Rule (Option String)
  | continue : Rule (Option String)

/-- The forms of the language. -/
abbrev Phrase (α : Type) := Form Rule α

namespace Phrase

variable {α : Type}

/-! ## Words -/

/-- A character with which a name begins. -/
def isNameStart (c : Char) : Bool := c.isAlpha || c = '_' || c = '$'

/-- A character within a name. -/
def isNameChar (c : Char) : Bool := c.isAlphanum || c = '_' || c = '$'

/-- A digit of the base sixteen. -/
def isHexDigit (c : Char) : Bool := (Number.digitIn? 16 c).isSome

/-- A character that continues a name. -/
def nameChar : Phrase Char := .one isNameChar

/-- The given word, not as the beginning of a longer one. -/
def wholeWord (w : String) : Phrase Unit := token w <* .unless nameChar

/-- A word of the language with the space before it skipped. -/
def keyword (w : String) : Phrase Unit := atom (wholeWord w)

/-- The words that are no names.  A word that begins another one stands behind it. -/
def reservedWords : List String :=
  ["instanceof", "in", "break", "case", "catch", "class", "const", "continue", "default", "delete",
    "do", "else", "false", "finally", "for", "function", "if", "let", "new", "null", "return",
    "switch", "this", "throw", "true", "try", "typeof", "var", "void", "while"]

/-- A reserved word. -/
def reserved : Phrase Unit := oneOf reservedWords <* .unless nameChar

/-- The characters of a name, which may be a reserved word. -/
def nameText : Phrase (List Char) := text (.one isNameStart <* .many nameChar)

/-- A name of a program. -/
def name : Phrase String := String.ofList <$> atom (.unless reserved *> nameText)

/-- A name behind a point, which may be a reserved word. -/
def propertyName : Phrase String := String.ofList <$> atom nameText

/-! ## Literals -/

/-- Decimal digits, at least one. -/
def decimalDigits : Phrase (List Char) := atLeastOne (.one Number.isDigit)

/-- The text of a number: hexadecimal, binary, or decimal with places and an exponent. -/
def numberText : Phrase (List Char) :=
  text ((token "0x" <|> token "0X") *> atLeastOne (.one isHexDigit)) <|>
  text ((token "0b" <|> token "0B") *> atLeastOne (.one fun c => c = '0' || c = '1')) <|>
  text
    ((text (decimalDigits <* .perhaps (token "." <* .many (.one Number.isDigit))) <|>
        text (token "." *> decimalDigits)) <*
      .perhaps ((token "e" <|> token "E") *> .perhaps (token "+" <|> token "-") *> decimalDigits))

/-- The text of a numeric literal with its place. -/
def number : Phrase (Position × List Char) := placed (atom numberText)

/-- Any character. -/
def anyChar : Phrase Char := .one fun _ => true

/-- One hexadecimal digit. -/
def hexDigit : Phrase Char := .one isHexDigit

/-- An escaped character of a string. -/
def escape : Phrase (List Char) :=
  text (token "\\" *>
    (text (token "u\x7b" *> atLeastOne hexDigit *> token "\x7d") <|>
      text (token "u" *> hexDigit *> hexDigit *> hexDigit *> hexDigit) <|>
      text (token "x" *> hexDigit *> hexDigit) <|>
      text anyChar))

/-- The inside of a string literal between the given quotes. -/
def stringInside (quote : Char) : Phrase (List Char) :=
  atom (text (.many (escape <|>
    text (.unless (.one fun c => c = quote || c = '\\' || c = '\n') *> anyChar))))

/-- The inside of a string literal. -/
def string : Phrase (List Char) :=
  .spaced .tight (.named
    (token "\"" *> stringInside '"' <* token "\"" <|>
      token "'" *> stringInside '\'' <* token "'"))

/-- Literal characters of a template. -/
def templateChars : Phrase (List Char) :=
  atom (text (atLeastOne (text (token "\\" *> anyChar) <|>
    text (.unless (token "`" <|> token "$\x7b" <|> token "\\") *> anyChar))))

/-- A value in a template. -/
def templateValue : Phrase (Built Expr) :=
  .spaced .free (.named (token "$\x7b" *> .rule .expression <* token "\x7d"))

/-- A template; no space is skipped in its literal pieces. -/
def template : Phrase (Built ExprNode) :=
  let part : Phrase (Built (List Char ⊕ Expr)) :=
    (fun cs => .ok (.inl cs)) <$> templateChars <|>
      (fun value : Built Expr => value.map Sum.inr) <$> templateValue
  let parts := .spaced .tight (.named (token "`" *> .many part <* token "`"))
  (fun parts => do
    let (pieces, values) := templateParts (← allBuilt parts)
    return .template pieces values) <$> parts

/-! ## Patterns and parameters -/

/-- A value behind an equals sign that is neither `==` nor `=>`. -/
def fallback : Phrase (Built Expr) :=
  token "=" *> .unless (token "=" <|> token ">") *> .rule .assignment

/-- A pattern with its default value. -/
def element : Phrase (Built PatternElement) :=
  .named (combine
    (fun target value => do return .mk (← target) (← optionBuilt value))
    (.rule .pattern) (.perhaps fallback))

/-- The pattern behind the dots, which takes what is left. -/
def restTarget : Phrase (Built Pattern) := .named (token "..." *> .rule .pattern)

/-- A place of an array pattern. -/
def slot : Phrase (Position × SlotPart) :=
  placed (.named ((fun part => part.getD SlotPart.empty) <$>
    .perhaps (SlotPart.rest <$> restTarget <|> SlotPart.element <$> element)))

/-- An array pattern. -/
def arrayPattern : Phrase (Built Pattern) :=
  Syntax.arrayPattern <$> .named (token "[" *> commaSeparated slot <* token "]")

/-- A numeric key is the text of its number. -/
def numberKey (p : Position) (text : List Char) : Built Key := do
  return .static (Number.text (← numberValue text p))

/-- The key of a property. -/
def key : Phrase (Built Key) :=
  .named
    ((fun value : Built Expr => value.map Key.computed) <$>
        .named (token "[" *> .rule .assignment <* token "]") <|>
      (fun inside => .ok (.static (stringValue inside))) <$> .rule .string <|>
      (fun n => numberKey n.1 n.2) <$> number <|>
      (fun x => .ok (.static x)) <$> propertyName)

/-- A property of an object pattern. -/
def objectPatternProperty : Phrase (Position × PropertyPart) :=
  placed (.named
    (PropertyPart.rest <$> restTarget <|>
      .named (combine PropertyPart.keyed (key <* token ":") element) <|>
      PropertyPart.shorthand <$> element))

/-- None, or some with commas between and perhaps one behind. -/
def commaList (a : Phrase α) : Phrase (List α) :=
  (fun items => items.getD []) <$> .perhaps (commaSeparated a <* .perhaps (token ","))

/-- An object pattern. -/
def objectPattern : Phrase (Built Pattern) :=
  Syntax.objectPattern <$>
    .named (token "\x7b" *> commaList objectPatternProperty <* token "\x7d")

/-- A name, or a pattern that takes a value apart. -/
def pattern : Phrase (Built Pattern) :=
  .named ((fun x => .ok (.name x)) <$> name <|> arrayPattern <|> objectPattern)

/-- A parameter of a function. -/
def parameter : Phrase (Position × ParameterPart) :=
  placed (.named (ParameterPart.rest <$> restTarget <|> ParameterPart.element <$> element))

/-- The parameters between the parentheses of a function, which may be missing. -/
def parameters : Phrase (Built (List PatternElement × Option Pattern)) :=
  (fun parts => parameterList (Option.getD parts []) none) <$>
    .perhaps (.named (commaSeparated parameter <* .perhaps (token ",")))

/-! ## Functions -/

/-- The parameters and the body of a function. -/
def functionTail : Phrase (Built FunctionTail) :=
  combine
    (fun parameters body => do
      let (elements, rest) ← parameters
      return ⟨elements, rest, ← body⟩)
    (token "(" *> parameters <* token ")") (.rule .block)

/-- A function declaration. -/
def functionStatement : Phrase (Built Function) :=
  (fun (p, x, tail) => tail.map (FunctionTail.function · (some x) p)) <$>
    placed (.named (.both (keyword "function" *> name) functionTail))

/-- A function as a value, with a name or without. -/
def functionExpression : Phrase (Built Expr) :=
  (fun (p, x, tail) => tail.map fun tail => .mk (.function (tail.function x p)) p) <$>
    placed (.named (.both (keyword "function" *> .perhaps name) functionTail))

/-- The parameters of an arrow function; a single name needs no parentheses. -/
def arrowParameters : Phrase (Built (List PatternElement × Option Pattern)) :=
  .named ((fun x => .ok ([.mk (.name x) none], none)) <$> name <|>
    token "(" *> parameters <* token ")")

/-- The body of an arrow function: a block or the value itself. -/
def arrowBody : Phrase (Built FunctionBody) :=
  (fun body : Built (List Stmt) => body.map FunctionBody.block) <$> .rule .block <|>
    (fun value : Built Expr => value.map FunctionBody.expr) <$> .rule .assignment

/-- An arrow function. -/
def arrow : Phrase (Built Expr) :=
  (fun (p, parameters, body) => do
    let (elements, rest) ← parameters
    let body ← body
    return .mk (.function (.mk none elements rest body true p)) p) <$>
    placed (.named (.both (arrowParameters <* token "=>") arrowBody))

/-! ## Operands -/

/-- Dots with the value that is spread. -/
def spread : Phrase (Built Expr) := .named (token "..." *> .rule .assignment)

/-- An argument of a call or an element of a list. -/
def argument : Phrase (Built Element) :=
  (fun source : Built Expr => source.map Element.spread) <$> spread <|>
    (fun value : Built Expr => value.map Element.single) <$> .rule .assignment

/-- The arguments of a call. -/
def arguments : Phrase (Built (List Element)) :=
  allBuilt <$> .named (token "(" *> commaList argument <* token ")")

/-- An array literal, which has no holes. -/
def arrayLiteral : Phrase (Built ExprNode) :=
  (fun elements => (allBuilt elements).map ExprNode.array) <$>
    .named (token "[" *> commaList argument <* token "]")

/-- A method of an object literal, which is a function under its own key; a computed key gives it
the empty name. -/
def method : Phrase (Built Property) :=
  (fun (p, key, tail) => do
    let known := match ← key with
      | .static x => some x
      | .computed _ => none
    return .keyed (.static (known.getD "")) (.mk (.function ((← tail).function known p)) p)) <$>
    placed (.named (.both key functionTail))

/-- A property with its key and value. -/
def keyedProperty : Phrase (Built Property) :=
  .named (combine (fun key value => do return .keyed (← key) (← value))
    (key <* token ":") (.rule .assignment))

/-- A property that is a variable under its own name. -/
def shorthandProperty : Phrase (Built Property) :=
  (fun (p, x) => .ok (.keyed (.static x) (.mk (.name x) p))) <$> placed (.named name)

/-- An object literal. -/
def objectLiteral : Phrase (Built ExprNode) :=
  (fun properties => (allBuilt properties).map ExprNode.object) <$>
    .named (token "\x7b" *>
      commaList
        ((fun source : Built Expr => source.map Property.spread) <$> spread <|>
          method <|> keyedProperty <|> shorthandProperty) <*
      token "\x7d")

/-- An expression in parentheses. -/
def parenthesized : Phrase (Built Expr) :=
  .named (token "(" *> .rule .expression <* token ")")

/-- An operand with its place. -/
def atPlace (node : Phrase (Built ExprNode)) : Phrase (Built Expr) :=
  (fun (p, node) => node.map fun n => .mk n p) <$> placed node

/-- A word that is an operand by itself. -/
def constant (w : String) (node : ExprNode) : Phrase (Built Expr) :=
  atPlace ((fun _ => .ok node) <$> keyword w)

/-- An operand without suffixes. -/
def primary : Phrase (Built Expr) :=
  functionExpression <|>
  (fun (p, text) => do return .mk (.number (← numberValue text p)) p) <$> number <|>
  atPlace ((fun inside => .ok (.string (stringValue inside))) <$> .rule .string) <|>
  atPlace (.rule .template) <|>
  atPlace arrayLiteral <|>
  atPlace objectLiteral <|>
  parenthesized <|>
  constant "true" (.bool true) <|>
  constant "false" (.bool false) <|>
  constant "null" .null <|>
  constant "this" .this <|>
  atPlace ((fun x => .ok (.name x)) <$> name)

/-- A point with a name behind it. -/
def memberSuffix : Phrase Suffix :=
  (fun x => .member (.ok (.static x)) false) <$> .named (token "." *> propertyName)

/-- An index in brackets. -/
def index : Phrase (Built Key) :=
  (fun value : Built Expr => value.map Key.computed) <$>
    (token "[" *> .rule .expression <* token "]")

/-- An index behind an operand. -/
def indexSuffix : Phrase Suffix := (Suffix.member · false) <$> .named index

/-- A call, a member or an index, each of them perhaps behind `?.`. -/
def suffix : Phrase Suffix :=
  (Suffix.call · false) <$> arguments <|>
  memberSuffix <|>
  indexSuffix <|>
  (Suffix.call · true) <$> .named (token "?." *> arguments) <|>
  (Suffix.member · true) <$> .named (token "?." *> index) <|>
  (fun x => .member (.ok (.static x)) true) <$> .named (token "?." *> propertyName)

/-- A class or function with `new`; the first arguments behind it belong to `new`. -/
def newExpression : Phrase (Built Expr) :=
  (fun (p, (callee, suffixes), arguments) => do
    let callee ← applySuffixes (← callee) suffixes
    let arguments ← optionBuilt arguments
    return .mk (.new callee (arguments.getD [])) p) <$>
    placed (.named (.both
      (keyword "new" *> .named (.both primary (.many (memberSuffix <|> indexSuffix))))
      (.perhaps arguments)))

/-- An operand with its suffixes. -/
def operand : Phrase (Built Expr) :=
  .named (combine (fun head suffixes => do applySuffixes (← head) suffixes)
    (newExpression <|> primary) (.many suffix))

/-- A sign that counts up or down. -/
def updateOperator : Phrase UpdateOperator :=
  (fun _ => .increment) <$> token "++" <|> (fun _ => .decrement) <$> token "--"

/-- An operand that may be counted up or down behind it. -/
def counted : Phrase (Built Expr) :=
  (fun (p, target, op) => do
    let target ← target
    match op with
    | none => return target
    | some op =>
      requireReference target
      return .mk (.update op false target) p) <$>
    placed (.named (.both operand (.perhaps (.named updateOperator))))

/-! ## Operators -/

/-- An operator that stands before its operand. -/
def frontOperator : Phrase PrefixOperator :=
  PrefixOperator.update <$> updateOperator <|>
  (fun _ => PrefixOperator.unary .not) <$> token "!" <|>
  (fun _ => PrefixOperator.unary .negate) <$> token "-" <|>
  (fun _ => PrefixOperator.unary .plus) <$> token "+" <|>
  (fun _ => PrefixOperator.unary .bitNot) <$> token "~" <|>
  (fun _ => PrefixOperator.unary .typeof) <$> keyword "typeof" <|>
  (fun _ => PrefixOperator.unary .void) <$> keyword "void" <|>
  (fun _ => PrefixOperator.unary .delete) <$> keyword "delete"

/-- An operand with the operators before it. -/
def unary : Phrase (Built Expr) :=
  .named (combine (fun front operand => do applyFront (← operand) front)
    (.many (placed (.named frontOperator))) counted)

/-- An operator that some character may not follow. -/
def guarded (w : String) (refused : List String) : Phrase Unit :=
  atom (token w <* .unless (oneOf refused))

/-- An operator between two operands; a longer one stands before those it begins with. -/
def between : Phrase Infix :=
  (fun _ => Infix.logical .nullish) <$> guarded "??" ["="] <|>
  (fun _ => Infix.logical .or) <$> guarded "||" ["="] <|>
  (fun _ => Infix.logical .and) <$> guarded "&&" ["="] <|>
  (fun _ => Infix.binary .strictEqual) <$> .named (token "===") <|>
  (fun _ => Infix.binary .strictUnequal) <$> .named (token "!==") <|>
  (fun _ => Infix.binary .looseEqual) <$> .named (token "==") <|>
  (fun _ => Infix.binary .looseUnequal) <$> .named (token "!=") <|>
  (fun _ => Infix.binary .atMost) <$> .named (token "<=") <|>
  (fun _ => Infix.binary .atLeast) <$> .named (token ">=") <|>
  (fun _ => Infix.binary .less) <$> .named (token "<") <|>
  (fun _ => Infix.binary .greater) <$> .named (token ">") <|>
  (fun _ => Infix.binary .instanceOf) <$> keyword "instanceof" <|>
  (fun _ => Infix.binary .within) <$> keyword "in" <|>
  (fun _ => Infix.binary .add) <$> guarded "+" ["+", "="] <|>
  (fun _ => Infix.binary .subtract) <$> guarded "-" ["-", "="] <|>
  (fun _ => Infix.binary .power) <$> guarded "**" ["="] <|>
  (fun _ => Infix.binary .multiply) <$> guarded "*" ["="] <|>
  (fun _ => Infix.binary .divide) <$> guarded "/" ["="] <|>
  (fun _ => Infix.binary .remainder) <$> guarded "%" ["="]

/-- An operator with the operand behind it. -/
def operation : Phrase (Built (Infix × Expr)) :=
  combine (fun op operand => operand.map fun e => (op, e)) between unary

/-- Operands with operators between them. -/
def binary : Phrase (Built Expr) :=
  .named (combine (fun first rest => do return chain (← first) (← allBuilt rest))
    unary (.many operation))

/-- A choice between two values. -/
def conditional : Phrase (Built Expr) :=
  (fun (p, test, branches) => do
    let test ← test
    match branches with
    | none => return test
    | some (yes, no) =>
      let yes ← yes
      let no ← no
      return .mk (.conditional test yes no) p) <$>
    placed (.named (.both binary
      (.perhaps (.both
        (token "?" *> .unless (token ".") *> .rule .assignment)
        (token ":" *> .rule .assignment)))))

/-- The sign of an assignment. -/
def assignOperator : Phrase AssignOperator :=
  atom
    ((fun _ => AssignOperator.compound .power) <$> token "**=" <|>
      (fun _ => AssignOperator.logical .nullish) <$> token "??=" <|>
      (fun _ => AssignOperator.logical .or) <$> token "||=" <|>
      (fun _ => AssignOperator.logical .and) <$> token "&&=" <|>
      (fun _ => AssignOperator.compound .add) <$> token "+=" <|>
      (fun _ => AssignOperator.compound .subtract) <$> token "-=" <|>
      (fun _ => AssignOperator.compound .multiply) <$> token "*=" <|>
      (fun _ => AssignOperator.compound .divide) <$> token "/=" <|>
      (fun _ => AssignOperator.compound .remainder) <$> token "%=" <|>
      (fun _ => AssignOperator.plain) <$> (token "=" <* .unless (token "=" <|> token ">")))

/-- An expression that may be assigned to. -/
def plainOrAssigned : Phrase (Built Expr) :=
  (fun (p, left, right) => do
    let left ← left
    match right with
    | none => return left
    | some (op, value) => Syntax.assignment p left op value) <$>
    placed (.both conditional (.perhaps (.both assignOperator (.rule .assignment))))

/-- An arrow function or an assignment, the weakest forms without a comma. -/
def assignment : Phrase (Built Expr) := .named (arrow <|> plainOrAssigned)

/-- Expressions with commas between them. -/
def expression : Phrase (Built Expr) :=
  (fun (p, items) => (allBuilt items).map (sequence p)) <$>
    placed (.named (commaSeparated (.rule .assignment)))

/-! ## Statements -/

/-- A semicolon that may be missing. -/
def semicolon : Phrase (Option Unit) := .perhaps (token ";")

/-- An expression in parentheses. -/
def inParentheses : Phrase (Built Expr) := token "(" *> .rule .expression <* token ")"

/-- Statements in braces. -/
def block : Phrase (Built (List Stmt)) :=
  allBuilt <$> .named (token "\x7b" *> .many (.rule .statement) <* token "\x7d")

/-- The word that begins a declaration. -/
def declarationKind : Phrase DeclarationKind :=
  atom
    ((fun _ => .var) <$> wholeWord "var" <|>
      (fun _ => .lexical) <$> wholeWord "let" <|>
      (fun _ => .const) <$> wholeWord "const")

/-- A declared pattern with its value, which may be missing. -/
def declarator : Phrase (Position × Built Pattern × Option (Built Expr)) :=
  placed (.named (.both (.rule .pattern) (.perhaps (token "=" *> .rule .assignment))))

/-- The word of a declaration with what it declares. -/
def declaration : Phrase (Built (DeclarationKind × List Declarator)) :=
  .named (combine (fun kind parts => (declarators kind parts).map fun ds => (kind, ds))
    declarationKind (commaSeparated declarator))

/-- A declaration of variables. -/
def variableStatement : Phrase (Built StmtNode) :=
  (fun d : Built (DeclarationKind × List Declarator) => d.map fun d => .declare d.1 d.2) <$>
    .named (declaration <* semicolon)

/-- An `if` with its branches. -/
def ifStatement : Phrase (Built StmtNode) :=
  (fun (test, yes, no) => do
    return .ifElse (← test) (← yes) (← optionBuilt no)) <$>
    .named (.both (keyword "if" *> inParentheses)
      (.both (.rule .statement) (.perhaps (keyword "else" *> .rule .statement))))

/-- The head of a loop over the elements or the keys of a value. -/
def eachHead : Phrase (Built LoopHead) :=
  let declared : Phrase (Built (Option DeclarationKind × Pattern)) :=
    combine (fun kind target => target.map fun t => (some kind, t))
      declarationKind (.rule .pattern)
  let assigned : Phrase (Built (Option DeclarationKind × Pattern)) :=
    (fun target => do return (none, ← (← target).toPattern)) <$> operand
  let loop : Phrase LoopOver :=
    (fun _ => .values) <$> keyword "of" <|> (fun _ => .keys) <$> keyword "in"
  (fun (target, loop, source) => do
    let (kind, target) ← target
    let source ← source
    return .each loop kind target source) <$>
    .named (.both (declared <|> assigned) (.both loop (.rule .expression)))

/-- What stands before the first semicolon in the head of a counting loop. -/
def forStart : Phrase (Built ForStart) :=
  .named
    ((fun d : Built (DeclarationKind × List Declarator) => d.map fun d => .declare d.1 d.2) <$>
        declaration <|>
      (fun value : Built Expr => value.map ForStart.expr) <$> .rule .expression)

/-- The head of a counting loop, all of whose parts may be missing. -/
def countingHead : Phrase (Built LoopHead) :=
  (fun (start, test, update) => do
    return .counting (← optionBuilt start) (← optionBuilt test) (← optionBuilt update)) <$>
    .named (.both (.perhaps forStart <* token ";")
      (.both (.perhaps (.named (.rule .expression)) <* token ";")
        (.perhaps (.named (.rule .expression)))))

/-- A `for` loop; its body is looked at before its head. -/
def forStatement : Phrase (Built StmtNode) :=
  (fun (head, body) => do
    let body ← body
    return (← head).node body) <$>
    .named (.both (keyword "for" *> token "(" *> (eachHead <|> countingHead) <* token ")")
      (.rule .statement))

/-- A loop with its test first. -/
def whileStatement : Phrase (Built StmtNode) :=
  .named (combine (fun test body => do return .while (← test) (← body))
    (keyword "while" *> inParentheses) (.rule .statement))

/-- A loop with its test last. -/
def doStatement : Phrase (Built StmtNode) :=
  .named (combine (fun body test => do return .doWhile (← body) (← test))
    (keyword "do" *> .rule .statement) (keyword "while" *> inParentheses <* semicolon))

/-- Space that does not end a line. -/
def lineSpace : Phrase Char := .one fun c => c = ' ' || c = '\t'

/-- The semicolon of a statement that ends with its line. -/
def lineSemicolon : Phrase (Option Unit) := .perhaps (.many lineSpace *> token ";")

/-- What ends a `return` before any value: a line break, a brace, a semicolon or a line comment. -/
def endsReturn : Phrase Unit :=
  token "\n" <|> token "\r" <|> token "\x7d" <|> token ";" <|> token "//"

/-- The value of a `return`, which may be missing. -/
def returned : Phrase (Option (Built Expr)) :=
  .spaced .tight (.named (keyword "return" *>
    .perhaps (.many lineSpace *> .unless endsReturn *>
      .spaced .free (.named (.rule .expression))) <*
    lineSemicolon))

/-- A word with a label that may be missing. -/
def jump (w : String) : Phrase (Option String) :=
  .spaced .tight (.named
    (keyword w *> .perhaps (atLeastOne lineSpace *> name) <* lineSemicolon))

/-- A `throw` with its value. -/
def throwStatement : Phrase (Built StmtNode) :=
  (fun value : Built Expr => value.map StmtNode.throw) <$>
    .named (keyword "throw" *> .rule .expression <* semicolon)

/-- The handler of a `try`, whose parameter may be missing. -/
def handler : Phrase (Built Handler) :=
  .named (combine (fun parameter body => do return .mk (← optionBuilt parameter) (← body))
    (keyword "catch" *> .perhaps (token "(" *> .rule .pattern <* token ")")) (.rule .block))

/-- A `try`, which needs a handler or a finalizer. -/
def tryStatement : Phrase (Built StmtNode) :=
  (fun (p, body, handler, finalizer) => do
    let body ← body
    let handler ← optionBuilt handler
    let finalizer ← optionBuilt finalizer
    if handler.isNone ∧ finalizer.isNone then fault .tryAlone p
    else return .try body handler finalizer) <$>
    placed (.named (.both (keyword "try" *> .rule .block)
      (.both (.perhaps handler)
        (.perhaps (.named (keyword "finally" *> .rule .block))))))

/-- A case of a `switch`, or its default. -/
def switchCase : Phrase (Built Case) :=
  let test : Phrase (Option (Built Expr)) :=
    some <$> (keyword "case" *> .rule .expression) <|> (fun _ => none) <$> keyword "default"
  .named (combine (fun test body => do return .mk (← optionBuilt test) (← allBuilt body))
    (test <* token ":") (.many (.rule .statement)))

/-- A `switch` with its cases. -/
def switchStatement : Phrase (Built StmtNode) :=
  .named (combine (fun value cases => do return .switch (← value) (← allBuilt cases))
    (keyword "switch" *> inParentheses <* token "\x7b") (.many switchCase <* token "\x7d"))

/-- A statement behind a label. -/
def labeledStatement : Phrase (Built StmtNode) :=
  .named (combine (fun label body => body.map (StmtNode.labeled label))
    (name <* token ":") (.rule .statement))

/-- An expression that stands as a statement. -/
def expressionStatement : Phrase (Built StmtNode) :=
  (fun value : Built Expr => value.map StmtNode.expr) <$>
    .named (.rule .expression <* semicolon)

/-- A statement; a word of the language stands before the expressions that could hide it. -/
def statementNode : Phrase (Built StmtNode) :=
  (fun body : Built (List Stmt) => body.map StmtNode.block) <$> .rule .block <|>
  variableStatement <|>
  (fun f : Built Function => f.map StmtNode.function) <$> functionStatement <|>
  ifStatement <|>
  forStatement <|>
  whileStatement <|>
  doStatement <|>
  (fun value => do return .return (← optionBuilt value)) <$> .rule .return <|>
  (fun label => .ok (.break label)) <$> .rule .break <|>
  (fun label => .ok (.continue label)) <$> .rule .continue <|>
  throwStatement <|>
  tryStatement <|>
  switchStatement <|>
  labeledStatement <|>
  (fun _ => .ok .empty) <$> .named (token ";") <|>
  expressionStatement

/-- A statement with its place and its first line. -/
def statement : Phrase (Built Stmt) :=
  (fun (c, matched, node) => node.map fun n => .mk n c.position (excerpt matched)) <$>
    .spanned (.named statementNode)

end Phrase

/-- **The grammar**: what each rule looks like. -/
def Rule.phrase : {α : Type} → Rule α → Phrase α
  | _, .statement => Phrase.statement
  | _, .block => Phrase.block
  | _, .expression => Phrase.expression
  | _, .assignment => Phrase.assignment
  | _, .pattern => Phrase.pattern
  | _, .string => Phrase.string
  | _, .template => Phrase.template
  | _, .return => Phrase.returned
  | _, .break => Phrase.jump "break"
  | _, .continue => Phrase.jump "continue"

end ScriptTrace.Syntax
