import ScriptTrace.Toml.Scalar
import ScriptTrace.Toml.Table

/-!
# Toml/Reader — settings from TOML text

A document is a list of lines: headers of tables, headers of lists of tables, and entries.  `read?`
gives the tree of settings that they describe, or nothing if a line is malformed or describes what
is described already.
-/

namespace ScriptTrace.Toml

/-- Reads something at the front of a text. -/
abbrev Reader (α : Type) := List Char → Option (α × List Char)

/-! ## Blanks and ends of lines -/

/-- Space within a line. -/
def isBlank (c : Char) : Bool := c = ' ' || c = '\t'

/-- Skips space within a line. -/
def skipBlanks (cs : List Char) : List Char := cs.dropWhile isBlank

/-- Characters that may stand in comments and strings of one line. -/
def isTextChar (c : Char) : Bool := c = '\t' || (c.toNat ≥ 32 && c.toNat != 127)

/-- Skips a comment up to the end of its line. -/
def skipComment (cs : List Char) : List Char :=
  match cs with
  | '#' :: rest => rest.dropWhile isTextChar
  | cs => cs

/-- The text behind an end of line. -/
def newline? (cs : List Char) : Option (List Char) :=
  match cs with
  | '\n' :: rest => some rest
  | '\r' :: '\n' :: rest => some rest
  | _ => none

/-- The text behind blanks, a comment and the end of the line or of the document. -/
def lineEnd? (cs : List Char) : Option (List Char) :=
  match skipComment (skipBlanks cs) with
  | [] => some []
  | rest => newline? rest

/-- The text behind blanks, comments and ends of lines; at most `fuel` lines are passed. -/
def skipLines : Nat → List Char → List Char
  | 0, cs => cs
  | fuel + 1, cs =>
    let rest := skipComment (skipBlanks cs)
    match newline? rest with
    | some rest => skipLines fuel rest
    | none => rest

/-! ## Strings -/

/-- The character with a code that hexadecimal digits write. -/
def codeChar? (ds : List Char) : Option Char := do
  let n ← Number.natOfBase? 16 ds
  if n < 0xD800 || (0xE000 ≤ n && n ≤ 0x10FFFF) then some (Char.ofNat n) else none

/-- The character that a letter behind a backslash stands for. -/
def escaped? (c : Char) : Option Char :=
  match c with
  | 'b' => some '\x08'
  | 't' => some '\t'
  | 'n' => some '\n'
  | 'f' => some '\x0c'
  | 'r' => some '\r'
  | '"' => some '"'
  | '\\' => some '\\'
  | _ => none

/-- A string in double quotes, behind the first one; `out` is what was read, backward. -/
def quotedFrom (out : List Char) : Reader String
  | '"' :: rest => some (String.ofList out.reverse, rest)
  | '\\' :: 'u' :: a :: b :: c :: d :: rest => do quotedFrom ((← codeChar? [a, b, c, d]) :: out) rest
  | '\\' :: 'U' :: a :: b :: c :: d :: e :: f :: g :: h :: rest => do
    quotedFrom ((← codeChar? [a, b, c, d, e, f, g, h]) :: out) rest
  | '\\' :: c :: rest => do quotedFrom ((← escaped? c) :: out) rest
  | c :: rest => if isTextChar c then quotedFrom (c :: out) rest else none
  | [] => none

/-- A string in single quotes, behind the first one. -/
def literal : Reader String := fun cs =>
  match cs.dropWhile fun c => isTextChar c && c != '\'' with
  | '\'' :: rest => some (String.ofList (cs.takeWhile fun c => isTextChar c && c != '\''), rest)
  | _ => none

/-- The end of a string of several lines at a run of `n` quotes in front of `rest`: at least three
close it, and up to two in front of them belong to it. -/
def closing? (quote : Char) (cs : List Char) : Option (List Char × List Char) :=
  let n := min 5 (cs.takeWhile (· = quote)).length
  if n < 3 then none else some (List.replicate (n - 3) quote, cs.drop n)

/-- Whether a line ends here, blanks not counted. -/
def endsLine (cs : List Char) : Bool := (newline? (skipBlanks cs)).isSome

/-- A string of several lines in double quotes, behind the first three.  While `skipping`, blanks
and ends of lines behind a backslash at the end of a line are passed. -/
def linesFrom (skipping : Bool) (out : List Char) : Reader String
  | [] => none
  | c :: rest =>
    if skipping && (isBlank c || c = '\n' || c = '\r') then linesFrom true out rest
    else match closing? '"' (c :: rest), c, rest with
    | some (more, rest), _, _ => some (String.ofList (out.reverse ++ more), rest)
    | none, '\\', 'u' :: a :: b :: c :: d :: rest => do
      linesFrom false ((← codeChar? [a, b, c, d]) :: out) rest
    | none, '\\', 'U' :: a :: b :: c :: d :: e :: f :: g :: h :: rest => do
      linesFrom false ((← codeChar? [a, b, c, d, e, f, g, h]) :: out) rest
    | none, '\\', e :: rest =>
      if endsLine (e :: rest) then linesFrom true out rest
      else do linesFrom false ((← escaped? e) :: out) rest
    | none, c, rest =>
      if isTextChar c || c = '\n' then linesFrom false (c :: out) rest
      else if c = '\r' && rest.head? = some '\n' then linesFrom false out rest
      else none

/-- A string of several lines in single quotes, behind the first three. -/
def literalLinesFrom (out : List Char) : Reader String
  | [] => none
  | c :: rest =>
    match closing? '\'' (c :: rest) with
    | some (more, rest) => some (String.ofList (out.reverse ++ more), rest)
    | none =>
      if isTextChar c || c = '\n' then literalLinesFrom (c :: out) rest
      else if c = '\r' && rest.head? = some '\n' then literalLinesFrom out rest
      else none

/-- A string of several lines loses an end of line at its start. -/
def dropNewline (cs : List Char) : List Char := (newline? cs).getD cs

/-- A string on one line. -/
def oneLineString : Reader String
  | '"' :: rest => quotedFrom [] rest
  | '\'' :: rest => literal rest
  | _ => none

/-- A string of any kind. -/
def anyString : Reader String
  | '"' :: '"' :: '"' :: rest => linesFrom false [] (dropNewline rest)
  | '\'' :: '\'' :: '\'' :: rest => literalLinesFrom [] (dropNewline rest)
  | cs => oneLineString cs

/-! ## Names -/

/-- A character of a key without quotes. -/
def isNameChar (c : Char) : Bool := c.isAlphanum || c = '_' || c = '-'

/-- One name, in quotes or without. -/
def name : Reader String := fun cs =>
  match cs.takeWhile isNameChar with
  | [] => oneLineString cs
  | word => some (String.ofList word, cs.drop word.length)

/-- Names with points between; at most `fuel` of them. -/
def names : Nat → Reader (List String)
  | 0, _ => none
  | fuel + 1, cs => do
    let (first, rest) ← name (skipBlanks cs)
    match skipBlanks rest with
    | '.' :: rest =>
      let (more, rest) ← names fuel rest
      return (first :: more, rest)
    | rest => return ([first], rest)

/-! ## Values -/

/-- Characters of values that are no strings, lists or tables. -/
def isScalarChar (c : Char) : Bool :=
  c.isAlphanum || c = '_' || c = '-' || c = '+' || c = '.' || c = ':'

/-- A value that is no string, list or table; a blank may stand between a date and a time. -/
def scalar : Reader Setting := fun cs =>
  let word := cs.takeWhile isScalarChar
  let rest := cs.drop word.length
  let spaced := match rest with
    | ' ' :: d :: more =>
      if Number.isDigit d && isDate word then some ((d :: more).takeWhile isScalarChar) else none
    | _ => none
  match spaced with
  | some time => (scalar? (word ++ ' ' :: time)).map fun v => (v, rest.drop (time.length + 1))
  | none => (scalar? word).map fun v => (v, rest)

/-- The items of a list up to its end; lines do not count. -/
def items (value : Reader Setting) : Nat → Reader (List Setting)
  | 0, _ => none
  | fuel + 1, cs => do
    let cs := skipLines fuel cs
    match cs with
    | ']' :: rest => return ([], rest)
    | cs =>
      let (v, rest) ← value cs
      match skipLines fuel rest with
      | ']' :: rest => return ([v], rest)
      | ',' :: rest =>
        let (vs, rest) ← items value fuel rest
        return (v :: vs, rest)
      | _ => none

/-- One entry: names, an equals sign and a value. -/
def entry (fuel : Nat) (value : Reader Setting) : Reader (List String × Setting) := fun cs => do
  let (path, rest) ← names fuel cs
  match rest with
  | '=' :: rest =>
    let (v, rest) ← value (skipBlanks rest)
    return ((path, v), skipBlanks rest)
  | _ => none

/-- The entries of a table in braces up to its end, added to `es`. -/
def inlineEntries (value : Reader Setting) : Nat → Entries → Reader Entries
  | 0, _, _ => none
  | fuel + 1, es, cs => do
    let ((path, v), rest) ← entry fuel value cs
    let es ← addEntry path v es
    match rest with
    | '\x7d' :: rest => return (es, rest)
    | ',' :: rest => inlineEntries value fuel es rest
    | _ => none

/-- A value with at most `fuel` lists and tables inside one another. -/
def value : Nat → Reader Setting
  | 0, _ => none
  | fuel + 1, cs =>
    match cs with
    | '"' :: _ | '\'' :: _ => (anyString cs).map fun (s, rest) => (.text s, rest)
    | '[' :: rest => (items (value fuel) cs.length rest).map fun (vs, rest) => (.list vs, rest)
    | '\x7b' :: rest =>
      match skipBlanks rest with
      | '\x7d' :: rest => some (.table [], rest)
      | rest =>
        (inlineEntries (value fuel) cs.length [] rest).map fun (es, rest) =>
          (.table (settings es), rest)
    | cs => scalar cs

/-- How many lists and tables may stand inside one another. -/
def maxDepth : Nat := 80

/-! ## Documents -/

/-- One line of a document. -/
inductive Line where
  | header (path : List String)
  | listHeader (path : List String)
  | entry (path : List String) (v : Setting)

/-- One line that is not blank. -/
def line : Reader Line := fun cs => do
  match cs with
  | '[' :: '[' :: rest =>
    match ← names cs.length rest with
    | (path, ']' :: ']' :: rest) => return (.listHeader path, rest)
    | _ => none
  | '[' :: rest =>
    match ← names cs.length rest with
    | (path, ']' :: rest) => return (.header path, rest)
    | _ => none
  | cs =>
    let ((path, v), rest) ← entry cs.length (value maxDepth) cs
    return (.entry path v, rest)

/-- A document under construction: its entries, and the path of the header that counts. -/
structure Draft where
  entries : Entries
  path : List String

/-- Adds what a line describes. -/
def Draft.add (d : Draft) (l : Line) : Option Draft :=
  let openAt (path : List String) (f : String → Entries → Option Entries) : Option Draft :=
    match path.reverse with
    | [] => none
    | last :: before =>
      (withinAll false before.reverse (f last) d.entries).map fun es => ⟨es, path⟩
  match l with
  | .header path => openAt path openTable
  | .listHeader path => openAt path openNext
  | .entry path v => (withinAll false d.path (addEntry path v) d.entries).map fun es => ⟨es, d.path⟩

/-- Reads lines up to the end of a document. -/
def draftFrom : Nat → Draft → List Char → Option Draft
  | 0, _, _ => none
  | fuel + 1, d, cs =>
    match skipLines cs.length cs with
    | [] => some d
    | cs => do
      let (l, rest) ← line cs
      draftFrom fuel (← d.add l) (← lineEnd? rest)

/-- **The tree of settings that a document describes.** -/
def read? (text : String) : Option Setting :=
  let cs := match text.toList with
    | '\ufeff' :: rest => rest
    | cs => cs
  (draftFrom (cs.length + 1) ⟨[], []⟩ cs).map fun d => .table (settings d.entries)

end ScriptTrace.Toml
