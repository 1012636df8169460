import ScriptTrace.Syntax.Tree
import ScriptTrace.Number.Text

/-!
# Syntax/Text — trees as short text

Steps describe what they evaluate by the text of its tree: operators with one space around them and
nested operators in parentheses, functions and objects without their inside, and nothing longer than
the limit.
-/

namespace ScriptTrace.Syntax

/-- The longest description in characters. -/
def textLimit : Nat := 60

/-- Cuts a text at the limit, with three points at the end. -/
def shorten (s : String) : String :=
  let cs := s.toList
  if cs.length ≤ textLimit then s else String.ofList (cs.take (textLimit - 3)) ++ "..."

/-- Whether an expression stands in parentheses inside an operator. -/
def ExprNode.needsParentheses : ExprNode → Bool
  | .binary .. | .logical .. | .conditional .. | .assign .. | .sequence _ => true
  | _ => false

/-- An operator in front of its operand, with the space that a word needs. -/
def UnaryOperator.front (op : UnaryOperator) : String :=
  match op with
  | .typeof | .void | .delete => op.symbol ++ " "
  | _ => op.symbol

/-- Texts with a comma and a space between. -/
def commaJoined (texts : List String) : String := ", ".intercalate texts

/-- Puts the pieces of a template and the texts of its values together. -/
def templateText : List String → List String → String
  | [], _ => ""
  | piece :: pieces, [] => piece ++ templateText pieces []
  | piece :: pieces, value :: values =>
    piece ++ "$\x7b" ++ value ++ "\x7d" ++ templateText pieces values

/-- Whether a pattern is just this name. -/
def Pattern.isName (k : String) : Pattern → Bool
  | .name x => k = x
  | _ => false

mutual

/-- The text of an expression, of any length. -/
def Expr.fullText : Expr → String
  | .mk node _ => node.fullText

/-- The text of an expression inside an operator. -/
def Expr.operandText : Expr → String
  | .mk node _ => if node.needsParentheses then "(" ++ node.fullText ++ ")" else node.fullText

/-- The text of an expression as it appears in a step, uncut. -/
def ExprNode.fullText : ExprNode → String
  | .number x => Number.text x
  | .string s => "\"" ++ s ++ "\""
  | .bool b => if b then "true" else "false"
  | .null => "null"
  | .template pieces values => "`" ++ templateText pieces (exprTexts values) ++ "`"
  | .name x => x
  | .this => "this"
  | .array elements => "[" ++ commaJoined (elementTexts elements) ++ "]"
  | .object [] => "\x7b\x7d"
  | .object (_ :: _) => "\x7b...\x7d"
  | .function f => if f.isArrow then "() => \x7b...\x7d" else "function " ++ f.name.getD "" ++ "() \x7b...\x7d"
  | .unary op operand => op.front ++ operand.operandText
  | .update op before target =>
    if before then op.symbol ++ target.fullText else target.fullText ++ op.symbol
  | .binary op left right => left.operandText ++ " " ++ op.symbol ++ " " ++ right.operandText
  | .logical op left right => left.operandText ++ " " ++ op.symbol ++ " " ++ right.operandText
  | .assign op target value => target.fullText ++ " " ++ op.symbol ++ " " ++ value.fullText
  | .conditional test yes no => test.operandText ++ " ? " ++ yes.fullText ++ " : " ++ no.fullText
  | .call callee arguments isOptional =>
    callee.fullText ++ (if isOptional then "?." else "") ++ "(" ++
      commaJoined (elementTexts arguments) ++ ")"
  | .new callee arguments =>
    "new " ++ callee.fullText ++ "(" ++ commaJoined (elementTexts arguments) ++ ")"
  | .member object (.static x) isOptional =>
    object.operandText ++ (if isOptional then "?." else ".") ++ x
  | .member object (.computed index) isOptional =>
    object.operandText ++ (if isOptional then "?." else "") ++ "[" ++ index.fullText ++ "]"
  | .sequence items => commaJoined (exprTexts items)

/-- The texts of the values of a template. -/
def exprTexts : List Expr → List String
  | [] => []
  | e :: es => e.fullText :: exprTexts es

/-- The texts of the elements of a list or a call. -/
def elementTexts : List Element → List String
  | [] => []
  | .single value :: more => value.fullText :: elementTexts more
  | .spread source :: more => ("..." ++ source.fullText) :: elementTexts more

/-- The text of a pattern, of any length; fallbacks are left out. -/
def Pattern.fullText : Pattern → String
  | .name x => x
  | .member target => target.fullText
  | .array slots rest => "[" ++ commaJoined (slotTexts slots ++ restTexts rest) ++ "]"
  | .object properties rest =>
    "\x7b " ++ commaJoined (propertyTexts properties ++ restTexts rest) ++ " \x7d"

/-- The texts of the places of an array pattern. -/
def slotTexts : List Slot → List String
  | [] => []
  | .hole :: slots => "" :: slotTexts slots
  | .filled (.mk target _) :: slots => target.fullText :: slotTexts slots

/-- The texts of the properties of an object pattern. -/
def propertyTexts : List PropertyPattern → List String
  | [] => []
  | .mk (.static k) (.mk target _) :: more =>
    (if target.isName k then k else k ++ ": " ++ target.fullText) :: propertyTexts more
  | .mk (.computed key) (.mk target _) :: more =>
    ("[" ++ key.fullText ++ "]: " ++ target.fullText) :: propertyTexts more

/-- The text behind the dots of a pattern, if there is one. -/
def restTexts : Option Pattern → List String
  | none => []
  | some pattern => ["..." ++ pattern.fullText]

end

/-- **The text of an expression**, shortened. -/
def Expr.text (e : Expr) : String := shorten e.fullText

/-- **The text of a pattern**, shortened. -/
def Pattern.text (p : Pattern) : String := shorten p.fullText

end ScriptTrace.Syntax
