import ScriptTrace.Settings.Tree

/-!
# Toml/Table — tables under construction

A document names its tables in headers and writes entries under them, also under several names with
points between.  A table may be described in one place only; `Build` keeps how each table came
about, so that a second description is refused.
-/

namespace ScriptTrace.Toml

/-- How a table came about. -/
inductive Origin where
  /-- Under a header of its own. -/
  | header
  /-- As one that a longer header goes through. -/
  | passed
  /-- By an entry under several names. -/
  | dotted
  deriving DecidableEq, Repr

/-- A value, a table or a list of tables, as far as it is known. -/
inductive Build where
  | value (v : Setting)
  | table (origin : Origin) (entries : List (String × Build))
  /-- The last table of a list is the one that headers and entries go on with. -/
  | tables (items : List (List (String × Build)))
  deriving Inhabited

/-- The entries of a table in their order. -/
abbrev Entries := List (String × Build)

/-- The entry of a name. -/
def Entries.get? (es : Entries) (name : String) : Option Build :=
  (es.find? (·.1 = name)).map Prod.snd

/-- The entries with one written or added. -/
def Entries.store (name : String) (b : Build) : Entries → Entries
  | [] => [(name, b)]
  | e :: es => if e.1 = name then (name, b) :: es else e :: Entries.store name b es

/-- Changes the table of a name.  An entry under several names may not enter a table with a header
of its own. -/
def within (byEntry : Bool) (name : String) (f : Entries → Option Entries) (es : Entries) :
    Option Entries :=
  match es.get? name with
  | none => (f []).map fun inner =>
    es.store name (.table (if byEntry then .dotted else .passed) inner)
  | some (.value _) => none
  | some (.table origin inner) =>
    if byEntry && origin = .header then none
    else (f inner).map fun inner => es.store name (.table origin inner)
  | some (.tables items) =>
    match items.reverse with
    | [] => none
    | last :: before =>
      (f last).map fun last => es.store name (.tables (last :: before).reverse)

/-- Changes the table at the end of a path. -/
def withinAll (byEntry : Bool) : List String → (Entries → Option Entries) → Entries → Option Entries
  | [], f, es => f es
  | name :: names, f, es => within byEntry name (withinAll byEntry names f) es

/-- Writes an entry that is not there. -/
def addValue (name : String) (v : Setting) (es : Entries) : Option Entries :=
  if (es.get? name).isSome then none else some (es ++ [(name, .value v)])

/-- Whether the last table on the way to an entry may be written to: it must have come about by such
entries. -/
def isOpenFor (names : List String) (es : Entries) : Bool :=
  match names with
  | [] => true
  | name :: more =>
    match es.get? name with
    | none => true
    | some (.value _) => false
    | some (.table origin inner) => if more.isEmpty then origin = .dotted else isOpenFor more inner
    | some (.tables items) =>
      if more.isEmpty then false else isOpenFor more (items.getLast?.getD [])

/-- **Writes an entry** under names, the last of which is that of the value. -/
def addEntry (names : List String) (v : Setting) (es : Entries) : Option Entries :=
  match names.reverse with
  | [] => none
  | name :: before =>
    let path := before.reverse
    if isOpenFor path es then withinAll true path (addValue name v) es else none

/-- Opens the table of a header, which may not have been described before. -/
def openTable (name : String) (es : Entries) : Option Entries :=
  match es.get? name with
  | none => some (es ++ [(name, .table .header [])])
  | some (.table .passed inner) => some (es.store name (.table .header inner))
  | _ => none

/-- Opens one more table of a list. -/
def openNext (name : String) (es : Entries) : Option Entries :=
  match es.get? name with
  | none => some (es ++ [(name, .tables [[]])])
  | some (.tables items) => some (es.store name (.tables (items ++ [[]])))
  | _ => none

mutual

/-- The tree of what was built. -/
def Build.setting : Build → Setting
  | .value v => v
  | .table _ es => .table (settings es)
  | .tables items => .list (tableSettings items)

/-- The settings of the entries of a table. -/
def settings : List (String × Build) → List (String × Setting)
  | [] => []
  | e :: es => entrySetting e :: settings es

/-- The setting of an entry, under its key. -/
def entrySetting : String × Build → String × Setting
  | (name, b) => (name, b.setting)

/-- The settings of a list of tables. -/
def tableSettings : List (List (String × Build)) → List Setting
  | [] => []
  | es :: more => .table (settings es) :: tableSettings more

end

end ScriptTrace.Toml
