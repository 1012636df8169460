import ScriptTrace.Number.Reading
import ScriptTrace.Text.LetterCase

/-!
# Settings/Tree — settings before they have a meaning

Every source of settings gives a tree of tables.  Trees are merged entry by entry, later
sources over earlier ones, and their leaves are converted generously: a text may stand for a
count or a flag.
-/

namespace ScriptTrace

/-- A tree of settings, whatever file it comes from. -/
inductive Setting where
  | nothing
  | flag (value : Bool)
  | integer (value : Int)
  | real (value : Float)
  | text (value : String)
  | list (items : List Setting)
  | table (entries : List (String × Setting))
  deriving Inhabited

namespace Setting

/-- A table without entries. -/
def empty : Setting := .table []

/-- The entries of a table; anything else has none. -/
def entries : Setting → List (String × Setting)
  | .table es => es
  | _ => []

/-- The entry of a name. -/
def get? (s : Setting) (name : String) : Option Setting :=
  (s.entries.find? (·.1 = name)).map Prod.snd

/-- The entries with one written or added. -/
def storeEntry (name : String) (v : Setting) : List (String × Setting) → List (String × Setting)
  | [] => [(name, v)]
  | e :: es => if e.1 = name then (name, v) :: es else e :: storeEntry name v es

/-- A table with an entry written; anything else becomes a table. -/
def store (s : Setting) (name : String) (v : Setting) : Setting :=
  .table (storeEntry name v s.entries)

/-! ## Merging -/

mutual

/-- **Writes an entry**: a table is merged into what is there, all else takes its place. -/
def put (s : Setting) (name : String) : Setting → Setting
  | .table es => s.store name (putAll ((s.get? name).getD empty) es)
  | v => s.store name v

/-- Writes entries one after another. -/
def putAll (s : Setting) : List (String × Setting) → Setting
  | [] => s
  | e :: es => putAll (putEntry s e) es

/-- The tree with one more entry in its table. -/
def putEntry (s : Setting) : String × Setting → Setting
  | (name, v) => put s name v

end

/-- Writes an entry of a table inside others, which are made where they are missing. -/
def putAt (s : Setting) (name : String) : List String → Setting → Setting
  | [], v => s.put name v
  | inner :: more, v => s.store name (putAt ((s.get? name).getD empty) inner more v)

/-- Merges the entries of another tree. -/
def merge (s other : Setting) : Setting := s.putAll other.entries

/-! ## Conversions -/

/-- The whole number nearest to a number; halves go away from zero. -/
def roundAway (x : Float) : Float :=
  let whole := Number.truncate x
  if (x - whole).abs < 0.5 || !Number.isFinite x then whole
  else if x < 0 then whole - 1 else whole + 1

/-- The words that stand for a flag. -/
def flagWord? (word : List Char) : Option Bool :=
  if word ∈ ["true".toList, "on".toList, "yes".toList] then some true
  else if word ∈ ["false".toList, "off".toList, "no".toList] then some false
  else none

/-- The count that a text stands for. -/
def countOfText? (s : String) : Option Nat :=
  match flagWord? (Text.lower s.toList) with
  | some b => some b.toNat
  | none => Number.countOfText? s.toList

/-- The flag that a text stands for. -/
def flagOfText? (s : String) : Option Bool :=
  match Text.lower s.toList with
  | ['1'] => some true
  | ['0'] => some false
  | word => flagWord? word

/-- **The count that a setting stands for.** -/
def count? : Setting → Option Nat
  | .flag b => some b.toNat
  | .integer n => if n < 0 then none else some n.toNat
  | .real x => some (Number.toCount Number.maxCount (roundAway x))
  | .text s => countOfText? s
  | _ => none

/-- **The flag that a setting stands for**: a number that is not zero counts as set. -/
def flag? : Setting → Option Bool
  | .flag b => some b
  | .integer n => some (n != 0)
  | .real x => some (x != 0)
  | .text s => flagOfText? s
  | _ => none

end Setting

end ScriptTrace
