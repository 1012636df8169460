/-!
# Grammar/Cursor — a place in a text

A cursor holds the text still to be read, how much was read before it, and the line and column of
its place.  Lines end at the line feed alone; columns count characters; both start at one.
-/

namespace ScriptTrace.Grammar

/-- A line and a column, counted from one. -/
structure Position where
  line : Nat
  column : Nat
  deriving DecidableEq, Repr, Inhabited

/-- Where a text starts. -/
def Position.start : Position := ⟨1, 1⟩

/-- The place behind one more character. -/
def Position.step (p : Position) (c : Char) : Position :=
  if c = '\n' then ⟨p.line + 1, 1⟩ else ⟨p.line, p.column + 1⟩

/-- A place in a text, with the text behind it. -/
structure Cursor where
  rest : List Char
  offset : Nat
  position : Position
  deriving DecidableEq, Repr, Inhabited

namespace Cursor

/-- The beginning of a text. -/
def ofText (text : List Char) : Cursor := ⟨text, 0, .start⟩

/-- The cursor behind the next character; at the end it stays. -/
def step (c : Cursor) : Cursor :=
  match c.rest with
  | [] => c
  | x :: rest => ⟨rest, c.offset + 1, c.position.step x⟩

/-- The cursor `n` characters further on. -/
def advance (c : Cursor) : Nat → Cursor
  | 0 => c
  | n + 1 => c.step.advance n

/-- The text between two cursors of one text. -/
def textTo (c next : Cursor) : List Char := c.rest.take (next.offset - c.offset)

end Cursor

/-! ## Blanks between tokens -/

/-- White space between tokens. -/
def isSpace (c : Char) : Bool :=
  c = ' ' || c = '\t' || c = '\r' || c = '\n' || c = '\ufeff' || c = '\u00a0'

/-- The number of characters in front of the first `*/`, itself included. -/
def blockCommentLength? : List Char → Option Nat
  | '*' :: '/' :: _ => some 2
  | _ :: rest => (blockCommentLength? rest).map (· + 1)
  | [] => none

/-- The length of a comment at the front of a text: up to the end of the line, or up to the closing
mark.  A block that is not closed is no comment. -/
def commentLength? : List Char → Option Nat
  | '/' :: '/' :: rest => some (2 + (rest.takeWhile (· ≠ '\n')).length)
  | '/' :: '*' :: rest => (blockCommentLength? rest).map (· + 2)
  | _ => none

/-- How many characters of space and comments stand at the front of a text, which has at most
`fuel` characters. -/
def blankLengthWithin : Nat → List Char → Nat
  | 0, _ => 0
  | fuel + 1, cs =>
    match cs with
    | [] => 0
    | c :: rest =>
      if isSpace c then 1 + blankLengthWithin fuel rest
      else match commentLength? cs with
      | some n => n + blankLengthWithin fuel (cs.drop n)
      | none => 0

/-- How many characters of space and comments stand at the front of a text. -/
def blankLength (cs : List Char) : Nat := blankLengthWithin cs.length cs

/-- The cursor behind space and comments. -/
def Cursor.skipBlanks (c : Cursor) : Cursor := c.advance (blankLength c.rest)

end ScriptTrace.Grammar
