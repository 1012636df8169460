import ScriptTrace.Evaluation.Member

/-!
# Library/Array — arrays

The methods of arrays and the functions of `Array`.  A method works on the elements that the array
had when it was called; what callbacks change meanwhile does not count.
-/

namespace ScriptTrace

/-- The place that a relative index means in a list of length `n`: negative ones count from the end,
and none lies outside. -/
def relativePlace (n : Nat) (x : Float) : Nat :=
  match Number.binary x with
  | .nan => 0
  | .infinite negative => if negative then 0 else n
  | .finite .. =>
    let k := Number.toInt x
    if k < 0 then ((n : Int) + k).toNat else min k.toNat n

/-- The place of a single element, which may lie outside. -/
def elementPlace? (n : Nat) (x : Float) : Option Nat :=
  match Number.binary x with
  | .nan => some 0
  | .infinite _ => none
  | .finite .. =>
    let k := Number.toInt x
    let k := if k < 0 then (n : Int) + k else k
    if k < 0 then none else some k.toNat

namespace Exec

/-- The place that an argument means; `undefined` means `missing`. -/
def relativeArgument (v : Value) (n missing : Nat) : Exec Nat := do
  if v.isUndefined then return missing else return relativePlace n (← number v)

/-- Puts elements in the place of those of an array; a frozen one refuses. -/
def replaceItems (id : ObjectId) (method : String) (items : Array Value) (line : Nat) :
    Exec Unit := do
  match (← heap).get? id with
  | some o =>
    if o.frozen then misuse (.frozenArray method) line
    else match o.body with
    | .array _ => change id (.items items)
    | _ => misuse (.notFunction method) line
  | none => return ()

/-- Puts elements in the place of some of an array and gives an array of those. -/
def splice (id : ObjectId) (items : Array Value) (start removed : Nat) (inserted : Array Value)
    (line : Nat) : Exec Value := do
  checkArrayLength (items.size - removed + inserted.size) line
  replaceItems id "splice" (items.take start ++ inserted ++ items.drop (start + removed)) line
  makeArray (items.extract start (start + removed))

/-- Adds texts with a separator between, each sum below the ceiling.  Nullish elements and the array
itself have no text. -/
def joinTexts (id : ObjectId) (separator : String) (line : Nat) :
    Bool → String → List Value → Exec String
  | _, out, [] => return out
  | first, out, v :: vs => do
    let out := if first then out else out ++ separator
    let out ←
      if v.isNullish || v.objectId? = some id then pure out else pure (out ++ (← text v))
    checkStringLength out.utf8ByteSize line
    joinTexts id separator line false out vs

/-- Adds the elements of arrays and all other values, each sum below the ceiling. -/
def concatAll (line : Nat) : Array Value → List Value → Exec (Array Value)
  | out, [] => return out
  | out, v :: vs => do
    match (← heap).items? v with
    | some items =>
      checkArrayLength (out.size + items.size) line
      concatAll line (out ++ items) vs
    | none => concatAll line (out.push v) vs

/-- The function that a method was given. -/
def callback (args : List Value) (method : String) (line : Nat) : Exec Value := do
  let f := argument args 0
  if ← isCallable f then return f else misuse (.arrayCallback (← inspect f) method) line

/-- The length that an object announces. -/
def announcedLength (v : Value) : Exec Nat := do
  let x ← number v
  return if Number.isFinite x && x > 0 then Number.toCount Number.maxCount x else 0

/-- The elements that `Array.from` takes from a value. -/
def sourceItems (source : Value) (line : Nat) : Exec (Array Value) := do
  match source with
  | .string _ => iterate source line
  | .object id =>
    match ← body? id with
    | some (.array items) => return items
    | some (.plain props) =>
      match props.get? "length" with
      | none => return #[]
      | some v =>
        let n ← announcedLength v
        checkArrayLength n line
        return ((List.range n).map fun i => (props.get? (toString i)).getD .undefined).toArray
    | _ => return #[]
  | _ => return #[]

/-- `new Array`: one number is a length, all else are elements. -/
def newArray (args : List Value) (line : Nat) : Exec Value := do
  match args with
  | [.number x] =>
    let n ← arrayLength (.number x) line
    makeArray (Array.replicate n .undefined)
  | _ => makeArray args.toArray

end Exec

/-! ## Flattening -/

/-- A list of values that is not added to once it is longer than the limit. -/
def flattenList (limit : Nat) (item : Value → Array Value → Option (Array Value)) :
    List Value → Array Value → Option (Array Value)
  | [], out => some out
  | v :: vs, out =>
    if out.size > limit then some out
    else (item v out).bind (flattenList limit item vs)

/-- Adds a value, or the elements of an array while `depth` levels are left.  At most `fuel` arrays
are entered inside one another; `none` if there would be more. -/
def flattenItem (h : Heap) (limit : Nat) : Nat → Float → Value → Array Value → Option (Array Value)
  | fuel, depth, v, out =>
    match h.items? v, decide (depth ≥ 1), fuel with
    | some items, true, fuel + 1 =>
      flattenList limit (flattenItem h limit fuel (depth - 1)) items.toList out
    | some _, true, 0 => none
    | _, _, _ => some (out.push v)

/-- How many arrays are entered inside one another before it is taken for granted that there is no
end: `depth` of them, or so many that one was entered again more often than elements fit below the
limit. -/
def flattenRoom (h : Heap) (limit : Nat) (depth : Float) : Nat :=
  (limit + 2) * (h.size + 1) + Number.toCount Number.maxCount depth

/-- **The elements of arrays inside one another as one list**, cut short past the limit; `none` if
there is no end. -/
def flatten (h : Heap) (limit : Nat) (depth : Float) (items : Array Value) :
    Option (Array Value) :=
  flattenList limit (flattenItem h limit (flattenRoom h limit depth) depth) items.toList #[]

namespace Exec

/-- The elements of arrays inside one another; evaluation does not go on where they have no end. -/
def flattened (items : Array Value) (depth : Float) : Exec (Array Value) := do
  match flatten (← heap) (← ceiling) depth items with
  | some all => return all
  | none => throw .exhausted

/-- Makes an array of the elements of arrays inside one another. -/
def makeFlat (items : Array Value) (depth : Float) (line : Nat) : Exec Value := do
  let all ← flattened items depth
  checkArrayLength all.size line
  makeArray all

end Exec

namespace Evaluator

variable (ev : Evaluator)

open Exec

/-! ## Sorting -/

/-- The order of two elements; `undefined` comes last and no comparator sees it. -/
def order (comparator : Option Value) (line : Nat) (a b : Value) : Exec Ordering := do
  match a.isUndefined, b.isUndefined with
  | true, true => return .eq
  | true, false => return .gt
  | false, true => return .lt
  | false, false =>
    match comparator with
    | some f =>
      let x ← number (← ev.apply f .undefined [a, b] line)
      return if x < 0 then .lt else if x > 0 then .gt else .eq
    | none =>
      let s ← text a
      let t ← text b
      return if s < t then .lt else if s = t then .eq else .gt

/-- Puts a value into a sorted list that is given last element first: in front of all that come
after it. -/
def insertSorted (comparator : Option Value) (line : Nat) (v : Value) :
    List Value → Exec (List Value)
  | [] => return [v]
  | last :: before => do
    if (← ev.order comparator line last v) = .gt then
      return last :: (← insertSorted comparator line v before)
    else return v :: last :: before

/-- Sorts by insertion, which keeps the order of equal elements; `sorted` is given last element
first. -/
def sortFrom (comparator : Option Value) (line : Nat) : List Value → List Value → Exec (List Value)
  | sorted, [] => return sorted.reverse
  | sorted, v :: vs => do
    sortFrom comparator line (← ev.insertSorted comparator line v sorted) vs

/-- **The elements in order**, by a comparator or by their texts. -/
def sorted (items : Array Value) (comparator : Value) (line : Nat) : Exec (Array Value) := do
  if ← isCallable comparator then
    return (← ev.sortFrom (some comparator) line [] items.toList).toArray
  else if comparator.isUndefined then
    return (← ev.sortFrom none line [] items.toList).toArray
  else misuse .comparator line

/-! ## Callbacks -/

/-- Calls a function with each element, its place and the array, the next one at place `n`, and
goes on as `next` says, which is given the answer and what to do for the rest. -/
def eachItem {β : Type} (id : ObjectId) (f : Value) (line : Nat) (done : Exec β)
    (next : Value → Nat → Value → Exec β → Exec β) : Nat → List Value → Exec β
  | _, [] => done
  | n, v :: vs => do
    let answer ← ev.apply f .undefined [v, .count n, .object id] line
    next v n answer (eachItem id f line done next (n + 1) vs)

/-- The answers of a function for each element. -/
def mapItems (id : ObjectId) (f : Value) (line : Nat) (items : List Value) : Exec (List Value) :=
  ev.eachItem id f line (return []) (fun _ _ answer rest => return answer :: (← rest)) 0 items

/-- The elements for which a function holds. -/
def filterItems (id : ObjectId) (f : Value) (line : Nat) (items : List Value) :
    Exec (List Value) :=
  ev.eachItem id f line (return [])
    (fun v _ answer rest => if answer.isTruthy then return v :: (← rest) else rest) 0 items

/-- The first element for which a function holds, with its place. -/
def findItem? (id : ObjectId) (f : Value) (line : Nat) (items : List Value) :
    Exec (Option (Value × Nat)) :=
  ev.eachItem id f line (return none)
    (fun v n answer rest => if answer.isTruthy then return some (v, n) else rest) 0 items

/-- Whether a function gives `wanted` as condition for some element. -/
def someItem (id : ObjectId) (f : Value) (wanted : Bool) (line : Nat) (items : List Value) :
    Exec Bool :=
  ev.eachItem id f line (return false)
    (fun _ _ answer rest => if answer.isTruthy = wanted then return true else rest) 0 items

/-- Folds elements with a function, the next one at place `n`. -/
def reduceItems (id : ObjectId) (f : Value) (line : Nat) : Nat → Value → List Value → Exec Value
  | _, acc, [] => return acc
  | n, acc, v :: vs => do
    let acc ← ev.apply f .undefined [acc, v, .count n, .object id] line
    reduceItems id f line (n + 1) acc vs

/-! ## Methods -/

/-- **A method of an array.** -/
def arrayMethod (id : ObjectId) (method : String) (args : List Value) (line : Nat) :
    Exec Value := do
  let items := ((← heap).items? (.object id)).getD #[]
  let n := items.size
  let first := argument args 0
  match method with
  | "push" =>
    checkArrayLength (n + args.length) line
    replaceItems id method (items ++ args.toArray) line
    return .count (n + args.length)
  | "pop" =>
    replaceItems id method items.pop line
    return items.back?.getD .undefined
  | "shift" =>
    replaceItems id method (items.drop 1) line
    return items.getD 0 .undefined
  | "unshift" =>
    checkArrayLength (n + args.length) line
    replaceItems id method (args.toArray ++ items) line
    return .count (n + args.length)
  | "splice" =>
    let start ← relativeArgument first n 0
    let removed ←
      match args[1]? with
      | none => pure (n - start)
      | some v => pure (min (Number.toCount Number.maxCount (← number v)) (n - start))
    splice id items start removed (args.drop 2).toArray line
  | "reverse" =>
    replaceItems id method items.reverse line
    return .object id
  | "fill" =>
    let start ← relativeArgument (argument args 1) n 0
    let stop ← relativeArgument (argument args 2) n n
    replaceItems id method
      (items.mapIdx fun i v => if start ≤ i && i < stop then first else v) line
    return .object id
  | "sort" =>
    let sorted ← ev.sorted items first line
    replaceItems id method sorted line
    return .object id
  | "slice" =>
    let start ← relativeArgument first n 0
    let stop ← relativeArgument (argument args 1) n n
    makeArray (items.extract start stop)
  | "concat" =>
    let all ← concatAll line items args
    checkArrayLength all.size line
    makeArray all
  | "join" =>
    let separator ← if first.isUndefined then pure "," else text first
    return .string (← joinTexts id separator line true "" items.toList)
  | "toString" => return .string (← joinTexts id "," line true "" items.toList)
  | "indexOf" =>
    let start ← relativeArgument (argument args 1) n 0
    match (items.drop start).findIdx? (·.strictEquals first) with
    | some i => return .count (start + i)
    | none => return .number (-1)
  | "lastIndexOf" =>
    match items.reverse.findIdx? (·.strictEquals first) with
    | some i => return .count (n - 1 - i)
    | none => return .number (-1)
  | "includes" => return .bool (items.any (·.sameValue first))
  | "at" => return ((elementPlace? n (← number first)).bind (items[·]?)).getD .undefined
  | "flat" =>
    let depth ← if first.isUndefined then pure 1 else number first
    makeFlat items depth line
  | "forEach" =>
    discard (ev.mapItems id (← callback args method line) line items.toList)
    return .undefined
  | "map" => makeArray (← ev.mapItems id (← callback args method line) line items.toList).toArray
  | "filter" =>
    makeArray (← ev.filterItems id (← callback args method line) line items.toList).toArray
  | "find" =>
    let found ← ev.findItem? id (← callback args method line) line items.toList
    return found.elim .undefined Prod.fst
  | "findIndex" =>
    let found ← ev.findItem? id (← callback args method line) line items.toList
    return found.elim (.number (-1)) fun f => .count f.2
  | "some" =>
    return .bool (← ev.someItem id (← callback args method line) true line items.toList)
  | "every" =>
    return .bool !(← ev.someItem id (← callback args method line) false line items.toList)
  | "reduce" =>
    let f ← callback args method line
    match args[1]?, items.toList with
    | some initial, vs => ev.reduceItems id f line 0 initial vs
    | none, v :: vs => ev.reduceItems id f line 1 v vs
    | none, [] => misuse .emptyReduce line
  | _ => misuse (.notFunction ("array." ++ method)) line

/-! ## Making arrays -/

/-- Maps elements with a function of the element and its place, the next one at place `n`. -/
def mapPlaces (f : Value) (line : Nat) : Nat → List Value → Exec (List Value)
  | _, [] => return []
  | n, v :: vs => do
    let answer ← ev.apply f .undefined [v, .count n] line
    return answer :: (← mapPlaces f line (n + 1) vs)

/-- `Array.from`. -/
def arrayFrom (args : List Value) (line : Nat) : Exec Value := do
  let items ← sourceItems (argument args 0) line
  let f := argument args 1
  if ← isCallable f then makeArray (← ev.mapPlaces f line 0 items.toList).toArray
  else makeArray items

end Evaluator

end ScriptTrace
