import ScriptTrace.Proofs.Action
import ScriptTrace.Proofs.Reading

/-!
# Proofs/Composition/Member — names, properties and operators

The operations on values that no evaluator takes part in, as compositions of elementary actions.
-/

namespace ScriptTrace

/-! ## Writing -/

namespace Writing

variable {W : World} {h : Heap} {id : ObjectId} {o : HeapObject}

theorem ite {c : Prop} [Decidable c] {x y : Exec Unit} (hx : c → Writing W h x)
    (hy : ¬ c → Writing W h y) : Writing W h (if c then x else y) := by
  split
  · exact hx ‹_›
  · exact hy ‹_›

theorem checkArrayLength {n line : Nat} {k : Unit → Exec Unit} (hk : Writing W h (k ())) :
    Writing W h (Exec.checkArrayLength n line >>= k) := by
  refine .withCeiling (k := fun limit => (if n > limit then _ else _) >>= k) fun limit => ?_
  split
  · exact .raise
  · exact hk

/-- A length is looked at before anything is written. -/
theorem arrayLength {v : Value} {line : Nat} {k : Nat → Exec Unit}
    (hk : ∀ n, Writing W h (k n)) : Writing W h (Exec.arrayLength v line >>= k) := by
  unfold Exec.arrayLength
  dsimp only
  split
  · rw [bind_assoc]
    exact .checkArrayLength (hk _)
  · exact .raise

/-- New elements for an array that is not frozen. -/
theorem items {items : Array Value} (hid : .object id ∈ W) (hi : Within W items)
    (ho : h.get? id = some o) (hopen : ¬ o.frozen = true) :
    Writing W h (Exec.change id (.items items)) := by
  refine .change hid hi rfl fun o' ho' => ?_
  cases ho.symm.trans ho'
  exact Bool.eq_false_iff.mpr hopen

/-- New properties for an object that is not frozen. -/
theorem props {props : Props} (hid : .object id ∈ W) (hp : Within W props)
    (ho : h.get? id = some o) (hopen : ¬ o.frozen = true) :
    Writing W h (Exec.change id (.props props)) := by
  refine .change hid hp rfl fun o' ho' => ?_
  cases ho.symm.trans ho'
  exact Bool.eq_false_iff.mpr hopen

/-- An element or the length of an array is written, unless the array is frozen. -/
theorem setElement {elements : Array Value} {key : String} {v : Value} {line : Nat}
    (hid : .object id ∈ W) (hi : Within W elements) (hv : Within W v)
    (ho : h.get? id = some o) (hopen : ¬ o.frozen = true) :
    Writing W h (Exec.setElement id elements key v line) := by
  unfold Exec.setElement
  refine .ite (fun _ => .arrayLength fun n => .items hid (hi.resize n) ho hopen) fun _ => ?_
  split
  · refine .checkArrayLength (.items hid ?_ ho hopen)
    refine Within.setElement ?_ hv _
    split
    · exact hi
    · exact hi.resize _
  · exact .skip

end Writing

namespace Plain

variable {l : Layer} {W : World}

/-! ## Conversions -/

theorem inspect {v : Value} : Plain l W (Exec.inspect v) Any :=
  withHeap fun _ _ => .pure trivial

theorem text {v : Value} : Plain l W (Exec.text v) Any :=
  withHeap fun _ _ => withCeiling fun _ => .pure trivial

theorem number {v : Value} : Plain l W (Exec.number v) Any :=
  withHeap fun _ _ => withCeiling fun _ => .pure trivial

theorem isCallable {v : Value} : Plain l W (Exec.isCallable v) Any :=
  withHeap fun _ _ => .pure trivial

theorem body? {id : ObjectId} : Plain l W (Exec.body? id) (Within W) :=
  withHeap fun _ hh => .pure hh.body?

theorem checkArrayLength {n line : Nat} :
    Plain l W (Exec.checkArrayLength n line) Any :=
  withCeiling fun _ => .ite (fun _ => never raise) fun _ => .pure trivial

theorem checkStringLength {n line : Nat} :
    Plain l W (Exec.checkStringLength n line) Any :=
  withCeiling fun _ => .ite (fun _ => never raise) fun _ => .pure trivial

/-! ## Names -/

theorem define [l.Binds] {scope : ScopeId} {name : String} {v : Value} {kind : BindingKind}
    (h : Sees W scope) (hv : Within W v) :
    Plain l W (Exec.define scope name v kind) Any := .elementary (.putIn h hv fun _ => ‹_›)

/-- The value of a name is held by one of the scopes that are seen. -/
theorem valueOf? {scope : ScopeId} {name : String} :
    Plain l W (Exec.valueOf? scope name) (Within W) := by
  refine .bind (.elementary .scopes) fun s hs => .pure ?_
  refine within_option.mpr fun v hv => ?_
  cases h : s.lookup? scope name with
  | some b =>
    rw [h] at hv
    cases hv
    exact within_option.mp hs.1.lookup? b h
  | none =>
    rw [h] at hv
    exact within_globalValue hv

theorem valueOf {scope : ScopeId} {name : String} {line : Nat} :
    Plain l W (Exec.valueOf scope name line) (Within W) := by
  refine .bind valueOf? fun v hv => ?_
  cases v with
  | some v => exact .pure hv
  | none => exact never unknownName

/-- What is assigned in the global scope is bound there. -/
theorem assignFrom {scope : ScopeId} {name : String} {v : Value} {line : Nat} (hv : Within W v)
    (hl : scope ≠ Scopes.globalId → l.Binds) :
    Plain l W (Exec.assign scope name v line) Any := by
  refine .bind (.elementary .scopes) fun s hs => ?_
  split
  · exact .elementary (.putIn sees_global hv (absurd rfl))
  · rename_i owner ho
    split
    · refine .ite (fun _ => never (misuse rfl)) fun _ => .elementary (.putIn ?_ hv fun hne => ?_)
      · exact hs.2 owner (Scopes.lt_size_of_binder ho)
      · refine hl fun heq => hne ?_
        subst heq
        exact Scopes.binder_global ho
    · exact .pure trivial

theorem assign [l.Binds] {scope : ScopeId} {name : String} {v : Value} {line : Nat}
    (hv : Within W v) : Plain l W (Exec.assign scope name v line) Any := assignFrom hv fun _ => ‹_›

/-! ## Properties -/

/-- A loop takes its items from the heap, or makes them of a text. -/
theorem iterate {v : Value} {line : Nat} : Plain l W (Exec.iterate v line) (Within W) := by
  refine withHeap fun h hh => ?_
  split
  · rename_i items hi
    exact .pure (within_some.mp (hi ▸ hh.items?))
  · refine .pure (within_toArray.mpr (within_list.mpr fun v hv => ?_))
    obtain ⟨c, -, rfl⟩ := List.mem_map.mp hv
    exact within_chars
  · exact never (misuse rfl)

theorem arrayLength {v : Value} {line : Nat} :
    Plain l W (Exec.arrayLength v line) Any := by
  unfold Exec.arrayLength
  dsimp only
  split
  · exact .bind checkArrayLength fun _ _ => .pure trivial
  · exact never raise

/-- A member is written to the receiver alone. -/
theorem setMember {receiver : Value} {key : String} {v : Value} {line : Nat}
    (hr : Within W receiver) (hv : Within W v) :
    Plain l W (Exec.setMember receiver key v line) Any := by
  unfold Exec.setMember
  split
  · exact .bind inspect fun _ _ => never (misuse rfl)
  · exact .bind inspect fun _ _ => never (misuse rfl)
  · exact assignFrom hv (absurd rfl)
  · refine write fun h hh => .withHeap ?_
    split
    · rename_i o ho
      have hb : Within W o := within_some.mp (ho ▸ hh.get?)
      refine .ite (fun _ => .skip) fun hopen => ?_
      split
      · rename_i items hi
        exact .setElement (within_object.mp hr) (hi ▸ hb : Within W (Body.array items)) hv ho hopen
      · rename_i props hp
        refine .props (within_object.mp hr) ?_ ho hopen
        exact Within.propsSet (hp ▸ hb : Within W (Body.plain props)) hv
      · exact .skip
    · exact .skip
  · exact .pure trivial

/-- A member is taken from the receiver alone. -/
theorem deleteMember {receiver : Value} {key : String} (hr : Within W receiver) :
    Plain l W (Exec.deleteMember receiver key) Any := by
  unfold Exec.deleteMember
  split
  · refine write fun h hh => .withHeap ?_
    split
    · rename_i o ho
      have hb : Within W o := within_some.mp (ho ▸ hh.get?)
      refine .ite (fun _ => .skip) fun hopen => ?_
      split
      · rename_i props hp
        refine .props (within_object.mp hr) ?_ ho hopen
        exact Within.propsErase (hp ▸ hb : Within W (Body.plain props))
      · rename_i items hi
        split
        · refine .ite (fun _ => .items (within_object.mp hr) ?_ ho hopen) fun _ => .skip
          exact Within.setElement (hi ▸ hb : Within W (Body.array items)) within_undefined _
        · exact .skip
      · exact .skip
    · exact .skip
  · exact .pure trivial

theorem hasProperty {key : String} {v : Value} {line : Nat} :
    Plain l W (Exec.hasProperty key v line) Any := by
  unfold Exec.hasProperty
  split
  · refine .bind body? fun b _ => ?_
    split
    all_goals exact .pure trivial
  · exact .map valueOf? fun _ _ => trivial
  · exact .pure trivial
  · exact .bind inspect fun _ _ => never (misuse rfl)

/-! ## Operators -/

theorem instanceOf {v constructor : Value} {line : Nat} :
    Plain l W (Exec.instanceOf v constructor line) Any := by
  refine withHeap fun h hh => .ite (fun _ => never (misuse rfl)) fun _ => ?_
  split
  · exact .pure trivial
  · split
    all_goals first | exact .pure trivial | skip
    split
    all_goals exact .pure trivial

theorem join {v w : Value} {line : Nat} : Plain l W (Exec.join v w line) (Within W) :=
  .bind text fun _ _ => .bind text fun _ _ => .bind checkStringLength fun _ _ => .pure within_string

theorem ordered {v w : Value} {holds : Ordering → Bool} :
    Plain l W (Exec.ordered v w holds) (Within W) :=
  withHeap fun _ _ => withCeiling fun _ => .pure within_bool

theorem numeric {v w : Value} {f : Float → Float → Float} :
    Plain l W (Exec.numeric v w f) (Within W) :=
  .bind number fun _ _ => .bind number fun _ _ => .pure within_number

theorem looseEquals {v w : Value} : Plain l W (Exec.looseEquals v w) Any :=
  withHeap fun _ _ => withCeiling fun _ => .pure trivial

/-- **Binary operators make nothing**: their results are numbers, texts and booleans. -/
theorem binary {op : Syntax.BinaryOperator} {v w : Value} {line : Nat} :
    Plain l W (Exec.binary op v w line) (Within W) := by
  cases op
  case add => exact .ite (fun _ => join) fun _ => numeric
  case subtract | multiply | divide | remainder | power => exact numeric
  case strictEqual | strictUnequal => exact .pure within_bool
  case looseEqual | looseUnequal => exact .map looseEquals fun _ _ => within_bool
  case less | greater | atMost | atLeast => exact ordered
  case instanceOf => exact .map instanceOf fun _ _ => within_bool
  case within => exact .bind text fun _ _ => .map hasProperty fun _ _ => within_bool

end Plain

namespace Action

variable {l : Layer} {W : World}

/-! ## Objects -/

theorem make {body : Body} (h : Within W body) (hf : body.isFresh = true)
    (hc : ∀ c, body = .closure c → l.Evaluates) : Action l W (fun _ => Exec.make body) Within :=
  .map (.allocate h hf hc) fun _ _ _ hid => within_object.mpr hid.1

theorem makeArray {items : Array Value} (h : Within W items) :
    Action l W (fun _ => Exec.makeArray items) Within := make (within_arrayBody.mpr h) rfl nofun

theorem makePlain {props : Props} (h : Within W props) :
    Action l W (fun _ => Exec.makePlain props) Within := make (within_plainBody.mpr h) rfl nofun

theorem makeError {c : ErrorClass} {message : String} :
    Action l W (fun _ => Exec.makeError c message) Within := by
  have hprops : Within W (Props.ofList [("name", .string c.name), ("message", .string message)]) :=
    Within.propsOfList (by simp)
  exact .map (.allocate (within_plainBody.mpr hprops) rfl nofun) fun _ _ _ hid =>
    within_object.mpr hid.1

theorem methodOf {receiver : Value} {name : String} (h : Within W receiver) :
    Action l W (fun _ => Exec.methodOf receiver name) Within :=
  make (within_methodBody.mpr h) rfl nofun

/-! ## Reading a property -/

theorem nameProperty {v : Value} : Action l W (fun _ => Exec.nameProperty v) Within :=
  .plain (P := Within W) (Plain.withHeap fun _ _ => .pure within_string) fun _ => id

theorem stringMember {s key : String} :
    Action l W (fun _ => Exec.stringMember s key) Within := by
  unfold Exec.stringMember
  refine .ite (fun _ => .pure within_count) fun _ => ?_
  split
  · refine .pure ?_
    rename_i i _
    cases s.toList[i]?
    · exact within_undefined
    · exact within_chars
  · exact .ite (fun _ => methodOf within_string) fun _ => .pure within_undefined

/-- A member is held by its object, or is a method bound to it. -/
theorem objectMember {id : ObjectId} {key : String} (hid : .object id ∈ W) :
    Action l W (fun _ => Exec.objectMember id key) Within := by
  have hmethod : Action l W (fun _ => Exec.methodOf (.object id) key) Within :=
    methodOf (within_object.mpr hid)
  refine .seq .body? fun b hb => ?_
  split
  · rename_i props
    split
    · rename_i v hv
      exact .pure (within_option.mp (Within.propsGet? hb) v hv)
    · exact .ite (fun _ => hmethod) fun _ => .pure within_undefined
  · rename_i items
    refine .ite (fun _ => .pure within_count) fun _ => ?_
    split
    · exact .pure (Within.getD hb _)
    · exact .ite (fun _ => hmethod) fun _ => .pure within_undefined
  · refine .ite (fun _ => .pure within_string) fun _ => ?_
    refine .ite (fun _ => .pure within_count) fun _ => ?_
    exact .ite (fun _ => hmethod) fun _ => .pure within_undefined
  · exact .ite (fun _ => hmethod) fun _ => .pure within_undefined
  · refine .ite (fun _ => nameProperty) fun _ => ?_
    exact .ite (fun _ => hmethod) fun _ => .pure within_undefined

/-- **Reading a property** makes at most a method. -/
theorem getMember {receiver : Value} {key : String} {line : Nat} (hr : Within W receiver) :
    Action l W (fun _ => Exec.getMember receiver key line) Within := by
  cases receiver with
  | undefined | null => exact .seq .inspect fun _ _ => .never (.misuse rfl)
  | string s => exact stringMember
  | number x => exact .ite (fun _ => methodOf hr) fun _ => .pure within_undefined
  | bool b => exact .pure within_undefined
  | host h => exact .pure (within_member h key)
  | function f =>
    refine .ite (fun _ => .pure within_string) fun _ => ?_
    exact .ite (fun _ => methodOf hr) fun _ => .pure within_undefined
  | globalThis =>
    refine .seq .valueOf? fun v hv => .pure ?_
    cases v with
    | none => exact within_undefined
    | some v => exact hv
  | object id => exact objectMember (within_object.mp hr)

end Action

end ScriptTrace
