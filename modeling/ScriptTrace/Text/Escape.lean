import ScriptTrace.Number.Reading

/-!
# Text/Escape — escapes of string literals

`unescape` resolves the escapes inside a literal, `quote` writes a text as a literal with the three
escapes that a literal cannot do without.
-/

namespace ScriptTrace.Text

/-- The code point that hexadecimal digits write, a plus sign in front allowed. -/
def codePoint? (cs : List Char) : Option Char :=
  let digits := match cs with
    | '+' :: rest => rest
    | rest => rest
  match Number.natOfBase? 16 digits with
  | some n => if h : n.isValidChar then some (Char.ofNatAux n h) else none
  | none => none

/-- The character of a one-letter escape; every other letter stands for itself. -/
def escapedChar (c : Char) : Char :=
  match c with
  | 'n' => '\n'
  | 't' => '\t'
  | 'r' => '\r'
  | 'b' => '\x08'
  | 'f' => '\x0c'
  | 'v' => '\x0b'
  | '0' => '\x00'
  | c => c

/-- Resolves the escapes of a text of at most `fuel` characters. -/
def unescapeWithin : Nat → List Char → List Char
  | 0, _ => []
  | fuel + 1, cs =>
    match cs with
    | [] => []
    | ['\\'] => ['\\']
    | '\\' :: '\n' :: rest => unescapeWithin fuel rest
    | '\\' :: 'x' :: rest =>
      (codePoint? (rest.take 2)).toList ++ unescapeWithin fuel (rest.drop 2)
    | '\\' :: 'u' :: '{' :: rest =>
      (codePoint? (rest.takeWhile (· ≠ '\x7d'))).toList ++
        unescapeWithin fuel ((rest.dropWhile (· ≠ '\x7d')).drop 1)
    | '\\' :: 'u' :: rest =>
      (codePoint? (rest.take 4)).toList ++ unescapeWithin fuel (rest.drop 4)
    | '\\' :: c :: rest => escapedChar c :: unescapeWithin fuel rest
    | c :: rest => c :: unescapeWithin fuel rest

/-- **The text that the inside of a literal stands for.**  A numeric escape without a character
stands for nothing. -/
def unescape (cs : List Char) : List Char := unescapeWithin cs.length cs

/-- The way a character is written inside double quotes. -/
def quoteChar (c : Char) : List Char :=
  match c with
  | '\\' => ['\\', '\\']
  | '"' => ['\\', '"']
  | '\n' => ['\\', 'n']
  | c => [c]

/-- A text in double quotes. -/
def quote (cs : List Char) : List Char := '"' :: (cs.flatMap quoteChar ++ ['"'])

end ScriptTrace.Text
