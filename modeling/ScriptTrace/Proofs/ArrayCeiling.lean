import ScriptTrace.Proofs.Closed
import ScriptTrace.Proofs.Traversal.Trail

/-!
# Proofs/ArrayCeiling — arrays stay below the ceiling

`ArrayOperation` lists the operations that change the length of an array or make one of a length
that the program asks for.  Each compares that length with the ceiling before it touches anything,
so it leaves a machine in which no array is longer than the ceiling, or it refuses and leaves all
objects as they are (`array_operation_fits_or_refuses`).
-/

namespace ScriptTrace

open Exec

/-! ## What is kept and what is refused -/

/-- **No array is longer than the ceiling.** -/
def Machine.ArraysFit (m : Machine) : Prop :=
  ∀ id items, m.heap.body? id = some (.array items) → items.size ≤ m.limits.maxLength

/-- The properties of the error that refuses a length. -/
def lengthError : Props :=
  .ofList [("name", .string "RangeError"), ("message", .string "Invalid array length")]

/-- **A length is refused**: a fresh `RangeError` is thrown, and the machine is otherwise as it
was. -/
def Machine.RefusesLength (m : Machine) (f : Fault) (m' : Machine) : Prop :=
  ∃ line, f = .thrown (.object m.heap.size) "RangeError: Invalid array length" line ∧
    m' = { m with heap := m.heap.add (.plain lengthError) (some "RangeError") }

/-- **A frozen array refuses** to change, and nothing else happens. -/
def Machine.RefusesFrozen (m : Machine) (id : ObjectId) (f : Fault) (m' : Machine) : Prop :=
  (∃ method line, f = .misuse (.frozenArray method) line) ∧
    (∃ o, m.heap.get? id = some o ∧ o.frozen = true) ∧ m' = m

/-- The objects of a heap are in another one as they were. -/
def Heap.KeptIn (h h' : Heap) : Prop := ∀ id < h.size, h'.get? id = h.get? id

/-- **How an operation may end** that changes no array but its receiver: within the ceiling, or
without any change. -/
inductive FitsOrRefuses {α : Type} (receiver : Option ObjectId) (m : Machine) :
    EStateM.Result Fault Machine α → Prop
  | fits {a : α} {m' : Machine} (hl : m'.limits = m.limits) (h : m'.ArraysFit) :
    FitsOrRefuses receiver m (.ok a m')
  | refuses {f : Fault} {m' : Machine}
    (h : m.RefusesLength f m' ∨ ∃ id ∈ receiver, m.RefusesFrozen id f m')
    (hk : m.heap.KeptIn m'.heap) : FitsOrRefuses receiver m (.error f m')

/-! ## Heaps -/

theorem Heap.KeptIn.refl (h : Heap) : h.KeptIn h := fun _ _ => rfl

/-- A new object leaves the arrays that are there. -/
theorem Heap.KeptIn.add (h : Heap) (body : Body) (className : Option String) :
    h.KeptIn (h.add body className) := fun id hid => by
  change (h.objects.push _)[id]? = h.objects[id]?
  exact Array.getElem?_push.trans (if_neg (Nat.ne_of_lt hid))

/-- The items of an object are those of an array. -/
theorem Heap.items?_eq {h : Heap} {id : ObjectId} {items : Array Value} :
    h.items? (.object id) = some items ↔ h.body? id = some (.array items) := by
  unfold items?
  dsimp only
  split
  · rename_i found hbody
    rw [hbody]
    simp
  · rename_i hother
    constructor
    · intro h
      cases h
    · intro hbody
      exact (hother items hbody).elim

/-- A fresh object is shown by what it holds. -/
theorem Heap.display_add {h : Heap} {body : Body} {className : Option String} {shown : String}
    (hshown : ∀ h' inner, Inspect.bodyText h' inner ⟨body, none, className, false⟩ = shown) :
    (h.add body className).display (.object h.size) = shown := by
  have hget : (h.add body className).get? h.size = some ⟨body, none, className, false⟩ :=
    Array.getElem?_push_size
  have hsize : (h.add body className).size = h.size + 1 := Array.size_push _
  change (h.add body className).inspect _ = _
  rw [Heap.inspect, hsize]
  unfold Inspect.textWithin
  dsimp only
  rw [if_neg (by simp), hget]
  exact hshown _ _

theorem errorText_lengthError :
    Inspect.errorText "RangeError" lengthError = "RangeError: Invalid array length" := by
  have hname : lengthError.get? "name" = some (.string "RangeError") := rfl
  have hmessage : lengthError.get? "message" = some (.string "Invalid array length") := rfl
  rw [Inspect.errorText, hname, hmessage]
  rfl

namespace Machine.ArraysFit

variable {m : Machine} {id : ObjectId} {items : Array Value}

/-- A new object that is no array, or one that is short enough. -/
theorem add {body : Body} {className : Option String} (hfit : m.ArraysFit)
    (hbody : ∀ items, body = .array items → items.size ≤ m.limits.maxLength) :
    Machine.ArraysFit { m with heap := m.heap.add body className } := by
  intro id items hid
  rw [Heap.body?_add] at hid
  split at hid
  · exact hbody items (Option.some.inj hid)
  · exact hfit id items hid

/-- New contents of an object that are no elements, or few enough. -/
theorem change {c : Change} (hfit : m.ArraysFit)
    (hc : ∀ items, c = .items items → items.size ≤ m.limits.maxLength) :
    Machine.ArraysFit { m with heap := m.heap.modify id (·.changed c) } := by
  intro id' items' hid
  rw [Heap.body?_modify] at hid
  split at hid
  · obtain ⟨o, ho, hbody⟩ := Option.map_eq_some_iff.mp hid
    have hsame (h : o.body = .array items') : items'.size ≤ m.limits.maxLength :=
      hfit id' items' ((congrArg (Option.map HeapObject.body) ho).trans (congrArg some h))
    unfold HeapObject.changed at hbody
    split at hbody
    · cases hbody
      exact hc _ rfl
    · cases hbody
    · cases hbody
    · exact hsame hbody
    · exact hsame hbody
  · exact hfit id' items' hid

end Machine.ArraysFit

/-! ## Actions -/

/-- An action that ends within the ceiling of a machine. -/
def Machine.Arranges {α : Type} (m : Machine) (r : EStateM.Result Fault Machine α) : Prop :=
  ∃ a m', r = .ok a m' ∧ m'.limits = m.limits ∧ m'.ArraysFit

namespace Machine.Arranges

variable {α : Type} {m m' : Machine} {items : Array Value}

theorem pure {a : α} (hl : m'.limits = m.limits) (hfit : m'.ArraysFit) :
    m.Arranges ((Pure.pure a : Exec α) m') := ⟨a, m', rfl, hl, hfit⟩

theorem makeArray (hl : m'.limits = m.limits) (hfit : m'.ArraysFit)
    (hsize : items.size ≤ m.limits.maxLength) : m.Arranges (Exec.makeArray items m') := by
  refine ⟨_, _, rfl, hl, hfit.add fun items' h => ?_⟩
  cases h
  exact hl ▸ hsize

theorem change {id : ObjectId} (hfit : m.ArraysFit) (hsize : items.size ≤ m.limits.maxLength) :
    m.Arranges (Exec.change id (.items items) m) := by
  refine ⟨_, _, rfl, rfl, hfit.change fun items' h => ?_⟩
  cases h
  exact hsize

/-- What arranges an array within the ceiling fits. -/
theorem fits {r : EStateM.Result Fault Machine α} {receiver : Option ObjectId} (h : m.Arranges r) :
    FitsOrRefuses receiver m r := by
  obtain ⟨a, m', rfl, hl, hfit⟩ := h
  exact .fits hl hfit

end Machine.Arranges

/-- The error that refuses a length. -/
theorem raise_lengthError {α : Type} (m : Machine) (line : Nat) :
    ∃ f m', (Exec.raise .rangeError "Invalid array length" line : Exec α) m = .error f m' ∧
      m.RefusesLength f m' := by
  have hshown : (m.heap.add (.plain lengthError) (some "RangeError")).display
      (.object m.heap.size) = "RangeError: Invalid array length" :=
    Heap.display_add fun _ _ => errorText_lengthError
  exact ⟨_, _, rfl, line, congrArg (Fault.thrown _ · line) hshown, rfl⟩

/-- A check lets a length through or refuses it. -/
theorem checkArrayLength_cases (m : Machine) (n line : Nat) :
    (n ≤ m.limits.maxLength ∧ checkArrayLength n line m = .ok () m) ∨
    ∃ f m', checkArrayLength n line m = .error f m' ∧ m.RefusesLength f m' := by
  have hx : checkArrayLength n line m = (if n > m.limits.maxLength
      then Exec.raise .rangeError "Invalid array length" line else pure () : Exec Unit) m := rfl
  rw [hx]
  split
  · exact .inr (raise_lengthError m line)
  · exact .inl ⟨Nat.le_of_not_lt ‹_›, rfl⟩

namespace FitsOrRefuses

variable {α β : Type} {receiver : Option ObjectId} {id : ObjectId} {m : Machine} {n line : Nat}
  {items : Array Value}

/-- The error that refuses a length is all that is new. -/
theorem length {f : Fault} {m' : Machine} (h : m.RefusesLength f m') :
    FitsOrRefuses receiver m (.error f m' : EStateM.Result Fault Machine α) := by
  obtain ⟨line, rfl, rfl⟩ := h
  exact .refuses (.inl ⟨line, rfl, rfl⟩) (Heap.KeptIn.add _ _ _)

/-- What only reads goes before. -/
theorem read {x : Exec β} {k : β → Exec α} {b : β} (hx : x m = .ok b m)
    (hk : FitsOrRefuses receiver m (k b m)) : FitsOrRefuses receiver m ((x >>= k) m) := by
  rwa [Exec.bind_of_ok hx]

/-- **A check goes before**: only a length below the ceiling is let through. -/
theorem check {k : Unit → Exec α}
    (hk : n ≤ m.limits.maxLength → FitsOrRefuses receiver m (k () m)) :
    FitsOrRefuses receiver m ((checkArrayLength n line >>= k) m) := by
  rcases checkArrayLength_cases m n line with ⟨hn, hx⟩ | ⟨f, m', hx, h⟩
  · exact read hx (hk hn)
  · rw [Exec.bind_of_error hx]
    exact length h

/-- **New elements of the receiver**, which may be frozen, and then what makes nothing too long. -/
theorem replace {method : String} {old : Array Value} {k : Unit → Exec α}
    (hfit : m.ArraysFit) (hold : m.heap.body? id = some (.array old))
    (hsize : items.size ≤ m.limits.maxLength)
    (hk : ∀ m', m'.limits = m.limits → m'.ArraysFit → m.Arranges (k () m')) :
    FitsOrRefuses (some id) m ((replaceItems id method items line >>= k) m) := by
  obtain ⟨o, ho, hbody⟩ := Option.map_eq_some_iff.mp hold
  by_cases hfrozen : o.frozen = true
  · have hx : replaceItems id method items line m =
        .error (.misuse (.frozenArray method) line) m := by
      refine (Exec.bind_of_ok (x := Exec.heap) rfl).trans ?_
      rw [ho]
      dsimp only
      rw [if_pos hfrozen]
      rfl
    rw [Exec.bind_of_error hx]
    exact .refuses (.inr ⟨id, rfl, ⟨method, line, rfl⟩, ⟨o, ho, hfrozen⟩, rfl⟩) (.refl _)
  · have hx : replaceItems id method items line m = Exec.change id (.items items) m := by
      refine (Exec.bind_of_ok (x := Exec.heap) rfl).trans ?_
      rw [ho]
      dsimp only
      rw [if_neg hfrozen, hbody]
    obtain ⟨u, m', hc, hl, hfit'⟩ := @Machine.Arranges.change m items id hfit hsize
    rw [Exec.bind_of_ok (hx.trans hc)]
    exact (hk m' hl hfit').fits

/-- Elements put together, each sum below the ceiling. -/
theorem concatAll {k : Array Value → Exec α} (hk : ∀ all, FitsOrRefuses receiver m (k all m)) :
    ∀ (out : Array Value) (vs : List Value),
      FitsOrRefuses receiver m ((Exec.concatAll line out vs >>= k) m)
  | out, [] => read rfl (hk out)
  | out, v :: vs => by
    unfold Exec.concatAll
    rw [bind_assoc]
    refine read (x := Exec.heap) rfl ?_
    cases m.heap.items? v with
    | none => exact concatAll hk (out.push v) vs
    | some items =>
      dsimp only
      rw [bind_assoc]
      exact check fun _ => concatAll hk (out ++ items) vs

end FitsOrRefuses

/-! ## Operations -/

/-- **The operations on arrays that compare lengths with the ceiling.** -/
inductive ArrayOperation where
  /-- A call of a method on an array. -/
  | call (id : ObjectId) (method : String) (args : List Value)
  /-- `a[key] = v`, where the key may be `length`. -/
  | write (id : ObjectId) (key : String) (v : Value)
  /-- `new Array(n)`. -/
  | make (n : Float)
  /-- `Array.from` of an object. -/
  | fromObject (source : ObjectId) (more : List Value)

namespace ArrayOperation

/-- The methods that make an array longer or make a long one. -/
def methods : List String := ["push", "unshift", "splice", "concat", "flat"]

/-- The operation as a program asks for it. -/
def exec (op : ArrayOperation) (ev : Evaluator) (line : Nat) : Exec Value :=
  match op with
  | .call id method args => ev.callMethod (.object id) method args line
  | .write id key v => do
    setMember (.object id) key v line
    return v
  | .make n => ev.construct .array [.number n] line
  | .fromObject source more => ev.callHost .arrayFrom (.object source :: more) line

/-- The array that the operation is asked of. -/
def receiver? : ArrayOperation → Option ObjectId
  | .call id _ _ | .write id _ _ => some id
  | _ => none

/-- What the operation is given: an array and one of the methods, flattening an array that has an
end; or an object and no function to map its elements with. -/
def Admits (op : ArrayOperation) (m : Machine) : Prop :=
  match op with
  | .call id method _ => (∃ items, m.heap.body? id = some (.array items)) ∧ method ∈ methods ∧
      (method = "flat" → ¬ m.heap.HasNoEnd (.object id))
  | .write id _ _ => ∃ items, m.heap.body? id = some (.array items)
  | .make _ => True
  | .fromObject _ more => m.heap.isCallable (argument more 0) = false

end ArrayOperation

section

variable {ev : Evaluator} {m : Machine} {id : ObjectId} {items : Array Value} {args : List Value}
  {line n : Nat}

/-- The place that an argument means is not behind the last element. -/
theorem relativeArgument_eq (m : Machine) (v : Value) {n missing : Nat} (h : missing ≤ n) :
    ∃ k ≤ n, relativeArgument v n missing m = .ok k m := by
  unfold relativeArgument
  split
  · exact ⟨missing, h, rfl⟩
  · refine ⟨_, ?_, rfl⟩
    unfold relativePlace
    split
    · exact Nat.zero_le n
    · split
      · exact Nat.zero_le n
      · exact le_rfl
    · dsimp only
      split
      · omega
      · exact Nat.min_le_right _ _

/-- `push` asks for the new length before it puts anything in. -/
theorem fitsOrRefuses_push (hfit : m.ArraysFit) (hid : m.heap.body? id = some (.array items)) :
    FitsOrRefuses (some id) m (ev.arrayMethod id "push" args line m) := by
  unfold Evaluator.arrayMethod
  refine .read (x := Exec.heap) rfl ?_
  rw [Heap.items?_eq.mpr hid]
  refine .check fun hn => .replace hfit hid ?_ fun m' hl hfit' => .pure hl hfit'
  simpa using hn

/-- `unshift` asks for the new length before it puts anything in. -/
theorem fitsOrRefuses_unshift (hfit : m.ArraysFit) (hid : m.heap.body? id = some (.array items)) :
    FitsOrRefuses (some id) m (ev.arrayMethod id "unshift" args line m) := by
  unfold Evaluator.arrayMethod
  refine .read (x := Exec.heap) rfl ?_
  rw [Heap.items?_eq.mpr hid]
  refine .check fun hn => .replace hfit hid ?_ fun m' hl hfit' => .pure hl hfit'
  simpa [Nat.add_comm] using hn

/-- `splice` counts what it takes out against what it puts in. -/
theorem fitsOrRefuses_splice (hfit : m.ArraysFit) (hid : m.heap.body? id = some (.array items)) :
    FitsOrRefuses (some id) m (ev.arrayMethod id "splice" args line m) := by
  unfold Evaluator.arrayMethod
  refine .read (x := Exec.heap) rfl ?_
  rw [Heap.items?_eq.mpr hid]
  obtain ⟨start, hstart, hx⟩ := relativeArgument_eq m (argument args 0) (Nat.zero_le items.size)
  refine .read hx ?_
  have hrest (removed : Nat) (hremoved : removed ≤ items.size - start) :
      FitsOrRefuses (some id) m
        (splice id items start removed (args.drop 2).toArray line m) := by
    unfold splice
    refine .check fun hn => .replace hfit hid ?_ fun m' hl hfit' => .makeArray hl hfit' ?_
    · simp only [Array.size_append, Array.take_eq_extract, Array.drop_eq_extract,
        Array.size_extract]
      omega
    · have hsize := hfit id items hid
      rw [Array.size_extract]
      omega
  dsimp only [Option.getD_some]
  cases args[1]? with
  | none => exact hrest _ le_rfl
  | some v => exact .read (x := number v) rfl (hrest _ (Nat.min_le_right _ _))

/-- A `concat` asks for the length of the result before each part. -/
theorem fitsOrRefuses_concat (hfit : m.ArraysFit) (hid : m.heap.body? id = some (.array items)) :
    FitsOrRefuses (some id) m (ev.arrayMethod id "concat" args line m) := by
  unfold Evaluator.arrayMethod
  refine .read (x := Exec.heap) rfl ?_
  rw [Heap.items?_eq.mpr hid]
  exact .concatAll (fun all => .check fun hn => (Machine.Arranges.makeArray rfl hfit hn).fits) ..

/-- `flat` collects no more items than the ceiling allows, if it ends at all. -/
theorem fitsOrRefuses_flat (hfit : m.ArraysFit) (hid : m.heap.body? id = some (.array items))
    (hend : ¬ m.heap.HasNoEnd (.object id)) :
    FitsOrRefuses (some id) m (ev.arrayMethod id "flat" args line m) := by
  have hmake (depth : Float) :
      FitsOrRefuses (some id) m (makeFlat items depth line m) := by
    cases hflat : flatten m.heap m.limits.maxLength depth items with
    | none =>
      obtain ⟨v, hv, w, hw, hcycle⟩ := hasNoEnd_of_flatten hflat
      exact absurd ⟨w, hw.head ⟨items, Heap.items?_eq.mpr hid, hv⟩, hcycle⟩ hend
    | some all =>
      have hx : flattened items depth m = .ok all m := by
        rw [flattened]
        refine (bind_of_ok (x := heap) (a := m.heap) rfl).trans ?_
        refine (bind_of_ok (x := ceiling) (a := m.limits.maxLength) rfl).trans ?_
        rw [hflat]
        rfl
      exact .read hx (.check fun hn => (Machine.Arranges.makeArray rfl hfit hn).fits)
  have hx : ev.arrayMethod id "flat" args line m = (if (argument args 0).isUndefined then
        makeFlat ((m.heap.items? (.object id)).getD #[]) 1 line
      else number (argument args 0) >>= fun depth =>
        makeFlat ((m.heap.items? (.object id)).getD #[]) depth line : Exec Value) m := rfl
  rw [hx, Heap.items?_eq.mpr hid]
  split
  · exact hmake 1
  · exact .read (x := number (argument args 0)) rfl (hmake _)

/-- A length that a program names is refused if it lies above the ceiling. -/
theorem fitsOrRefuses_arrayLength {v : Value} {α : Type} {receiver : Option ObjectId}
    {k : Nat → Exec α}
    (hk : ∀ n ≤ m.limits.maxLength, FitsOrRefuses receiver m (k n m)) :
    FitsOrRefuses receiver m ((arrayLength v line >>= k) m) := by
  have hraise : FitsOrRefuses receiver m
      (((Exec.raise .rangeError "Invalid array length" line : Exec Nat) >>= k) m) := by
    obtain ⟨f, m', hx, h⟩ := raise_lengthError m line
    rw [Exec.bind_of_error hx]
    exact .length h
  unfold arrayLength
  dsimp only
  split
  · rw [bind_assoc]
    exact .check fun hn => hk _ hn
  · exact hraise

/-- A resized array has the size that was asked for. -/
theorem size_resize (items : Array Value) (n : Nat) : (resize items n).size = n := by
  unfold resize
  split
  · simp
    omega
  · simp
    omega

/-- A new element or a new `length` is refused above the ceiling; no other key changes the length.
-/
theorem fitsOrRefuses_setElement {key : String} {v : Value} {k : Unit → Exec Value}
    (hfit : m.ArraysFit) (hid : m.heap.body? id = some (.array items))
    (hk : ∀ m', m'.limits = m.limits → m'.ArraysFit → m.Arranges (k () m')) :
    FitsOrRefuses (some id) m ((setElement id items key v line >>= k) m) := by
  have hchange {items : Array Value} (hn : items.size ≤ m.limits.maxLength) :
      FitsOrRefuses (some id) m ((Exec.change id (.items items) >>= k) m) := by
    obtain ⟨u, m', hc, hl, hfit'⟩ := @Machine.Arranges.change m _ id hfit hn
    rw [Exec.bind_of_ok hc]
    exact (hk m' hl hfit').fits
  unfold setElement
  split
  · rw [bind_assoc]
    exact fitsOrRefuses_arrayLength fun n hn => hchange ((size_resize items n).trans_le hn)
  · split
    · rename_i i _
      rw [bind_assoc]
      refine .check fun hn => hchange ?_
      rw [Array.size_set!]
      split
      · exact hfit id items hid
      · exact (size_resize ..).trans_le hn
    · exact (hk m rfl hfit).fits

/-- An assignment to an element or to `length` keeps within the ceiling. -/
theorem fitsOrRefuses_write {key : String} {v : Value} (hfit : m.ArraysFit)
    (hid : m.heap.body? id = some (.array items)) :
    FitsOrRefuses (some id) m ((ArrayOperation.write id key v).exec ev line m) := by
  obtain ⟨o, ho, hbody⟩ := Option.map_eq_some_iff.mp hid
  change FitsOrRefuses (some id) m ((setMember (.object id) key v line >>= fun _ => pure v) m)
  have hx : setMember (.object id) key v line m =
      (if o.frozen then pure () else setElement id items key v line : Exec Unit) m := by
    refine (Exec.bind_of_ok (x := Exec.heap) rfl).trans ?_
    rw [ho]
    dsimp only
    rw [hbody]
  rw [Exec.bind_congr hx]
  split
  · exact (Machine.Arranges.pure rfl hfit).fits
  · exact fitsOrRefuses_setElement hfit hid fun m' hl hfit' => .pure hl hfit'

/-- A new array of a given length is refused above the ceiling. -/
theorem fitsOrRefuses_make {x : Float} (hfit : m.ArraysFit) :
    FitsOrRefuses none m ((ArrayOperation.make x).exec ev line m) :=
  fitsOrRefuses_arrayLength fun _ hn =>
    (Machine.Arranges.makeArray rfl hfit ((Array.size_replicate ..).trans_le hn)).fits

/-- `Array.from` of an object with a `length` keeps within the ceiling. -/
theorem fitsOrRefuses_fromObject {source : ObjectId} {more : List Value} (hfit : m.ArraysFit)
    (hmore : m.heap.isCallable (argument more 0) = false) :
    FitsOrRefuses none m ((ArrayOperation.fromObject source more).exec ev line m) := by
  have hrest {items : Array Value} (hsize : items.size ≤ m.limits.maxLength) :
      FitsOrRefuses none m ((do
        if ← isCallable (argument more 0) then
          makeArray (← ev.mapPlaces (argument more 0) line 0 items.toList).toArray
        else makeArray items : Exec Value) m) := by
    refine .read (x := isCallable (argument more 0)) rfl ?_
    rw [hmore]
    exact (Machine.Arranges.makeArray rfl hfit hsize).fits
  change FitsOrRefuses none m ((sourceItems (.object source) line >>= fun items => do
        if ← isCallable (argument more 0) then
          makeArray (← ev.mapPlaces (argument more 0) line 0 items.toList).toArray
        else makeArray items : Exec Value) m)
  have hnone : FitsOrRefuses none m ((do
        if ← isCallable (argument more 0) then
          makeArray (← ev.mapPlaces (argument more 0) line 0 (#[] : Array Value).toList).toArray
        else makeArray #[] : Exec Value) m) := hrest (Nat.zero_le _)
  unfold sourceItems
  dsimp only
  rw [bind_assoc]
  refine .read (x := body? source) (b := m.heap.body? source) rfl ?_
  split
  · rename_i items hitems
    exact hrest (hfit source items hitems)
  · rename_i props _
    split
    · exact hnone
    · rename_i v _
      simp only [bind_assoc]
      refine .read (x := announcedLength v) rfl (.check fun hn => hrest ?_)
      rw [List.size_toArray, List.length_map, List.length_range]
      exact hn
  · exact hnone

/-- A call of a method on an array. -/
theorem fitsOrRefuses_call {method : String} (hfit : m.ArraysFit)
    (hop : (ArrayOperation.call id method args).Admits m) :
    FitsOrRefuses (some id) m ((ArrayOperation.call id method args).exec ev line m) := by
  obtain ⟨⟨items, hid⟩, hmethod, hend⟩ := hop
  have hx : (ArrayOperation.call id method args).exec ev line m =
      ev.arrayMethod id method args line m := by
    refine (Exec.bind_of_ok (x := body? id) (a := m.heap.body? id) rfl).trans ?_
    rw [hid]
  rw [hx]
  simp only [ArrayOperation.methods, List.mem_cons, List.not_mem_nil, or_false] at hmethod
  obtain rfl | rfl | rfl | rfl | rfl := hmethod
  · exact fitsOrRefuses_push hfit hid
  · exact fitsOrRefuses_unshift hfit hid
  · exact fitsOrRefuses_splice hfit hid
  · exact fitsOrRefuses_concat hfit hid
  · exact fitsOrRefuses_flat hfit hid (hend rfl)

end

/-- **Arrays stay below the ceiling, and a refusal changes nothing.**  Whatever an operation is
given, it succeeds and no array is longer than the ceiling, or it throws that the length is invalid,
or that its receiver is frozen, and every object is as it was. -/
theorem array_operation_fits_or_refuses (op : ArrayOperation) (ev : Evaluator) (m : Machine)
    (line : Nat) (hfit : m.ArraysFit) (hop : op.Admits m) :
    FitsOrRefuses op.receiver? m (op.exec ev line m) := by
  cases op with
  | call id method args => exact fitsOrRefuses_call hfit hop
  | write id key v =>
    obtain ⟨items, hid⟩ := hop
    exact fitsOrRefuses_write hfit hid
  | make n => exact fitsOrRefuses_make hfit
  | fromObject source more => exact fitsOrRefuses_fromObject hfit hop

/-- A machine with room for two elements, and an array that fills it. -/
def fullArrayUse : Machine :=
  { Machine.initial ⟨2000, 100, 2⟩ with heap := Heap.empty.add (.array #[.null, .null]) none }

/-- The machine has an array that is full. -/
theorem fullArrayUse_fits : fullArrayUse.ArraysFit := by
  have hnone : Machine.ArraysFit (.initial ⟨2000, 100, 2⟩) := fun _ _ h => by cases h
  refine hnone.add fun items h => ?_
  cases h
  exact le_rfl

/-- The array has no room for a third element. -/
def fullArrayPush : ArrayOperation := .call 0 "push" [.null]

theorem fullArrayPush_admitted : fullArrayPush.Admits fullArrayUse :=
  ⟨⟨#[.null, .null], rfl⟩, by decide, fun h => absurd h (by decide)⟩

/-- Nothing more goes into it. -/
theorem fullArrayPush_refuses :
    FitsOrRefuses (some 0) fullArrayUse (fullArrayPush.exec (.bounded 1) 1 fullArrayUse) ∧
    ((fullArrayPush.exec (.bounded 1) 1).faultOf fullArrayUse).any Fault.isThrown = true :=
  ⟨array_operation_fits_or_refuses fullArrayPush _ _ 1 fullArrayUse_fits fullArrayPush_admitted,
    rfl⟩

end ScriptTrace
