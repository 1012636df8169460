import ScriptTrace.Machine.Inspect

/-!
# Machine/Convert — conversions and comparisons

How values become text and numbers, and the comparisons that convert first.
-/

namespace ScriptTrace

/-- The text of a function of the host. -/
def nativeText (name : String) : String := "function " ++ name ++ "() \x7b [native code] \x7d"

/-- Strings built up to a ceiling: nothing is added once the text is longer. -/
structure Capped where
  limit : Nat
  text : String

/-- Whether nothing more is added. -/
def Capped.isFull (c : Capped) : Bool := c.text.utf8ByteSize > c.limit

/-- A text continued, whatever its length. -/
def Capped.add (c : Capped) (s : String) : Capped := { c with text := c.text ++ s }

namespace Heap

/-- The text of a value that is no array. -/
def simpleText (h : Heap) (v : Value) : String :=
  match v with
  | .undefined => "undefined"
  | .null => "null"
  | .bool b => if b then "true" else "false"
  | .number x => Number.text x
  | .string s => s
  | .function f => nativeText f.name
  | .host o => if o.isCallable then nativeText o.name else "[object " ++ o.name ++ "]"
  | .globalThis => "[object global]"
  | .object id =>
    match h.get? id with
    | some o =>
      match o.body with
      | .plain _ =>
        if o.className.any isErrorClass then h.display v else "[object Object]"
      | .closure c => "function " ++ c.name ++ "() \x7b ... \x7d"
      | .promise _ => "[object Promise]"
      | _ => "function () \x7b [native code] \x7d"
    | none => "function () \x7b [native code] \x7d"

/-- Adds elements with commas between; `first` tells whether nothing stands in front. -/
def joinItems (item : Value → Capped → Capped) : Bool → List Value → Capped → Capped
  | _, [], out => out
  | first, v :: vs, out =>
    if out.isFull then out
    else joinItems item false vs (item v (if first then out else out.add ","))

/-- Adds an element of an array: nothing for nullish values and for an array inside itself, the
elements of an array, and the text of all others.  At most `fuel` arrays may stand inside one
another. -/
def joinItem (h : Heap) : Nat → List ObjectId → Value → Capped → Capped
  | fuel, around, v, out =>
    if v.isNullish then out
    else if v.objectId?.any around.contains then out
    else match h.items? v, fuel with
    | none, _ => out.add (h.simpleText v)
    | some _, 0 => out
    | some items, fuel + 1 =>
      joinItems (joinItem h fuel (v.objectId?.toList ++ around)) true items.toList out

/-- **The text of a value.**  An array is joined by commas; its text is cut short once it is longer
than `limit` bytes, and whoever keeps it checks its length. -/
def text (h : Heap) (limit : Nat) (v : Value) : String :=
  match h.items? v with
  | some _ => (joinItem h h.size [] v ⟨limit, ""⟩).text
  | none => h.simpleText v

/-- **The number of a value.** -/
def number (h : Heap) (limit : Nat) (v : Value) : Float :=
  match v with
  | .undefined => Number.nan
  | .null => 0
  | .bool b => if b then 1 else 0
  | .number x => x
  | .string s => Number.ofText s
  | .object _ => if (h.items? v).isSome then Number.ofText (h.text limit v) else Number.nan
  | _ => Number.nan

/-- The word for the type of a value. -/
def typeName (h : Heap) (v : Value) : String :=
  match v with
  | .undefined => "undefined"
  | .null => "object"
  | .bool _ => "boolean"
  | .number _ => "number"
  | .string _ => "string"
  | _ => if h.isCallable v then "function" else "object"

/-- A boolean as the number it counts for. -/
def unboxBool (v : Value) : Value :=
  match v with
  | .bool b => .number (if b then 1 else 0)
  | v => v

/-- **Equality with conversion.**  Nullish values equal one another and nothing else; booleans count
as numbers, objects as their text against numbers and texts, and a text as a number against
numbers. -/
def looseEquals (h : Heap) (limit : Nat) (a b : Value) : Bool :=
  if a.isNullish || b.isNullish then a.isNullish && b.isNullish
  else match unboxBool a, unboxBool b with
  | .number x, .string s => x == Number.ofText s
  | .string s, .number y => Number.ofText s == y
  | .object i, .number y => Number.ofText (h.text limit (.object i)) == y
  | .number x, .object j => x == Number.ofText (h.text limit (.object j))
  | .object i, .string t => h.text limit (.object i) = t
  | .string s, .object j => s = h.text limit (.object j)
  | a, b => Value.strictEquals a b

/-- The order of two values: texts by code points, all others as numbers; none if a number is
NaN. -/
def compare (h : Heap) (limit : Nat) (a b : Value) : Option Ordering :=
  match a, b with
  | .string s, .string t => some (if s < t then .lt else if s = t then .eq else .gt)
  | _, _ =>
    let x := h.number limit a
    let y := h.number limit b
    if x < y then some .lt else if x == y then some .eq else if y < x then some .gt else none

/-- The name of a callable value in the labels of tasks. -/
def functionNameWithin (h : Heap) : Nat → Value → String
  | fuel, v =>
    match v with
    | .function f => f.name
    | .host o => o.name
    | .object id =>
      match h.body? id, fuel with
      | some (.closure c), _ => if c.name.isEmpty then "anonymous" else c.name
      | some (.bound target _ _), fuel + 1 => "bound " ++ functionNameWithin h fuel target
      | some (.method _ name), _ => name
      | some (.resolver _ rejects), _ => if rejects then "reject" else "resolve"
      | _, _ => "anonymous"
    | _ => "anonymous"

/-- **The name of a callable value.** -/
def functionName (h : Heap) (v : Value) : String := functionNameWithin h (h.size + 1) v

end Heap

end ScriptTrace
