/-!
# Text/Search — one text inside another

`occurrences` gives the places of a pattern, each behind the one before it, and `splitAt` what
stands between them.  Places count characters.
-/

namespace ScriptTrace.Text

/-- The first place of a pattern at or behind the front of a text. -/
def find? (pattern : List Char) : List Char → Option Nat
  | [] => if pattern.isEmpty then some 0 else none
  | c :: cs =>
    if pattern.isPrefixOf (c :: cs) then some 0 else (find? pattern cs).map (· + 1)

/-- The last place of a pattern in a text. -/
def findLast? (pattern : List Char) : List Char → Option Nat
  | [] => if pattern.isEmpty then some 0 else none
  | c :: cs =>
    match findLast? pattern cs with
    | some n => some (n + 1)
    | none => if pattern.isPrefixOf (c :: cs) then some 0 else none

/-- The pieces of a text between the occurrences of a pattern that is not empty, from left to right.
`skip` counts the characters of an occurrence still to be passed. -/
def piecesFrom (pattern : List Char) : Nat → List Char → List Char → List (List Char)
  | _, piece, [] => [piece.reverse]
  | skip + 1, piece, _ :: cs => piecesFrom pattern skip piece cs
  | 0, piece, c :: cs =>
    if pattern.isPrefixOf (c :: cs) then
      piece.reverse :: piecesFrom pattern (pattern.length - 1) [] cs
    else piecesFrom pattern 0 (c :: piece) cs

/-- The pieces of a text between the occurrences of a pattern that is not empty. -/
def splitAt (pattern text : List Char) : List (List Char) := piecesFrom pattern 0 [] text

/-- Whether a text holds a pattern. -/
def contains (pattern text : List Char) : Bool := (find? pattern text).isSome

/-- Whether a text ends with a pattern. -/
def endsWith (pattern text : List Char) : Bool := pattern.reverse.isPrefixOf text.reverse

/-- The characters from place `start` up to place `stop`. -/
def slice (start stop : Nat) (cs : List Char) : List Char := (cs.drop start).take (stop - start)

end ScriptTrace.Text
