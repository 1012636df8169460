import ScriptTrace.Text.LetterCase.Table

/-!
# Text/LetterCase — upper and lower case

The full case mappings of Unicode: a letter may become several characters, and a capital sigma
becomes the final form at the end of a word.
-/

namespace ScriptTrace.Text

/-- The counterpart of a code point in a table of runs. -/
def CaseRun.counterpart? (r : CaseRun) (n : Nat) : Option Nat :=
  if r.first ≤ n && n ≤ r.last && (n - r.first) % r.stride = 0 then
    some ((n : Int) + r.distance).toNat
  else none

/-- The characters that a table gives for a character; the character itself if it is not in it. -/
def mapCase (runs : List CaseRun) (many : List (Nat × List Nat)) (c : Char) : List Char :=
  match many.lookup c.toNat with
  | some ns => ns.map Char.ofNat
  | none =>
    match runs.findSome? (·.counterpart? c.toNat) with
    | some n => [Char.ofNat n]
    | none => [c]

/-- A character in upper case. -/
def upperChars (c : Char) : List Char :=
  if c.toNat < 128 then [c.toUpper] else mapCase upperRuns upperMany c

/-- A character in lower case, wherever it stands. -/
def lowerChars (c : Char) : List Char :=
  if c.toNat < 128 then [c.toLower] else mapCase lowerRuns lowerMany c

/-- Whether a character lies in one of the ranges. -/
def inRanges (ranges : List (Nat × Nat)) (c : Char) : Bool :=
  ranges.any fun r => r.1 ≤ c.toNat && c.toNat ≤ r.2

/-- Whether a text continues with a letter, characters to be passed over not counted. -/
def startsCased (cs : List Char) : Bool :=
  ((cs.dropWhile (inRanges ignorableRanges)).head?).any (inRanges casedRanges)

/-- The lower-case form of a sigma between two texts, the first given backward. -/
def lowerSigma (before after : List Char) : Char :=
  if startsCased before && !startsCased after then 'ς' else 'σ'

/-- Lower case behind a text that is given backward. -/
def lowerFrom (before : List Char) : List Char → List Char
  | [] => []
  | c :: cs =>
    (if c = 'Σ' then [lowerSigma before cs] else lowerChars c) ++ lowerFrom (c :: before) cs

/-- **A text in upper case.** -/
def upper (cs : List Char) : List Char := cs.flatMap upperChars

/-- **A text in lower case.** -/
def lower (cs : List Char) : List Char := lowerFrom [] cs

end ScriptTrace.Text
