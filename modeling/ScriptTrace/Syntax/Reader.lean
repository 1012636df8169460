import ScriptTrace.Syntax.Rules

/-!
# Syntax/Reader — from text to program

`readProgram` reads a whole text.  A text that does not match the grammar is refused at the furthest
place where something named was expected, with the word or character that stands there.
-/

namespace ScriptTrace.Syntax

open Grammar (Cursor Form Attempt Spacing readRule)
open Grammar.Form

/-- Statements up to the end of the text, with blanks before the first. -/
def programPhrase : Phrase (Built Program) :=
  allBuilt <$> (token "" *> .many (.rule .statement) <* .named .finish)

/-- How many rules may be open at one place of a text. -/
def rulesPerPlace : Nat := 5

/-- As many open rules as a text of this length can need. -/
def nestingBound (length : Nat) : Nat := rulesPerPlace * (length + 2)

/-- Follows the grammar through a text. -/
def followGrammar (text : List Char) : Attempt (Built Program) :=
  programPhrase.read (fun r s c => readRule Rule.phrase (nestingBound text.length) r s c)
    .free (.ofText text)

/-- The word at the front of a text, or else its first character. -/
def frontWord (c : Char) (rest : List Char) : List Char :=
  if Phrase.isNameChar c then c :: rest.takeWhile Phrase.isNameChar else [c]

/-- What a refused text has at the place of the error. -/
def unexpected (here : Cursor) : SyntaxError :=
  match here.rest with
  | [] => ⟨.endOfInput, here.position⟩
  | c :: rest => ⟨.token (String.ofList (frontWord c rest)), here.position⟩

/-- **Reads a program.** -/
def readProgram (source : String) : Built Program :=
  let text := source.toList
  let attempt := followGrammar text
  match attempt.outcome with
  | .matched program _ => program
  | .failed => .error (unexpected ((Cursor.ofText text).advance attempt.reached))
  | .exhausted => fault .nesting .start

/-- Reads a program that starts with an expression, and gives that expression. -/
def readExpression (source : String) : Built Expr := do
  match ← readProgram source with
  | .mk (.expr value) _ _ :: _ => return value
  | _ => fault .notOneExpression .start

end ScriptTrace.Syntax
