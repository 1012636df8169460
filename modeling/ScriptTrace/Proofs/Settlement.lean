import ScriptTrace.Proofs.Outcome

/-!
# Proofs/Settlement — settling and registering in one piece

Registering a reaction and settling a promise read the record of the promise and then do one thing
to the machine.  What that is depends on the record alone; the labels of the tasks that are queued
do not matter and are left open.

No promise is ever settled with another one: the functions that settle promises do the same with
`settleFlat`, which refuses that.
-/

namespace ScriptTrace

theorem PromiseState.isPending_iff {s : PromiseState} : s.isPending = true ↔ s = .pending := by
  cases s <;> simp [isPending]

/-- What is recorded in the body of a promise. -/
def Body.record? : Body → Option PromiseRecord
  | .promise record => some record
  | _ => none

/-- The record of a promise. -/
def Heap.promise? (h : Heap) (id : ObjectId) : Option PromiseRecord :=
  (h.body? id).bind Body.record?

/-- The heap with another record for a promise. -/
abbrev Heap.setPromise (h : Heap) (id : ObjectId) (record : PromiseRecord) : Heap :=
  h.modify id (·.changed (.record record))

/-- Whether an outcome of a promise is anything but another promise. -/
def Heap.isFlat (h : Heap) (id : ObjectId) : PromiseState → Bool
  | .fulfilled v => (v.objectId?.filter fun other => other ≠ id && h.isPromise other).isNone
  | _ => true

/-- Settles a promise, but not with another promise. -/
def Exec.settleFlat (id : ObjectId) (outcome : PromiseState) (line : Nat) : Exec Unit := do
  if (← heap).isFlat id outcome then settle id outcome line

/-- **The tasks that reactions become** for an outcome. -/
def AreReactions (tasks : List Task) (rs : List Reaction) (outcome : PromiseState) : Prop :=
  tasks.map Task.job = rs.map (.reaction · outcome)

theorem Body.record?_eq_some {body : Body} {record : PromiseRecord} :
    body.record? = some record ↔ body = .promise record := by
  cases body <;> simp [record?]

/-- What has the record of a promise is one. -/
theorem Heap.promise?_eq_some {h : Heap} {id : ObjectId} {record : PromiseRecord} :
    h.promise? id = some record ↔ h.body? id = some (.promise record) := by
  rw [promise?, Option.bind_eq_some_iff]
  constructor
  · rintro ⟨body, hbody, hrecord⟩
    rw [hbody, Body.record?_eq_some.mp hrecord]
  · exact fun hbody => ⟨_, hbody, rfl⟩

/-- A promise is what has the record of one. -/
theorem Heap.isPromise_iff {h : Heap} {id : ObjectId} :
    h.isPromise id = true ↔ ∃ record, h.promise? id = some record := by
  unfold isPromise promise?
  cases h.body? id with
  | none => simp
  | some body => cases body <;> simp [Body.record?]

/-- A new object lies behind the others, which stay. -/
theorem Heap.body?_add (h : Heap) (body : Body) (className : Option String) (id : ObjectId) :
    (h.add body className).body? id = if id = h.size then some body else h.body? id := by
  change ((h.objects.push _)[id]?).map HeapObject.body = _
  rw [Array.getElem?_push]
  exact apply_ite (Option.map HeapObject.body) (id = h.objects.size) _ _

theorem Heap.isPromise_add {h : Heap} {body : Body} {className : Option String} {id : ObjectId}
    (hid : id ≠ h.size) : (h.add body className).isPromise id = h.isPromise id := by
  rw [isPromise, body?_add, if_neg hid, isPromise]

namespace Exec

variable {m : Machine} {id : ObjectId} {r : Reaction} {rs : List Reaction}
  {outcome : PromiseState} {line : Nat}

/-- To look at a promise changes nothing. -/
theorem promise?_eq : promise? id m = .ok (m.heap.promise? id) m := by
  have hbody : body? id m = .ok (m.heap.body? id) m := rfl
  refine (bind_of_ok hbody).trans ?_
  unfold Heap.promise?
  cases m.heap.body? id with
  | none => rfl
  | some body => cases body <;> rfl

/-- Reactions are queued in their order. -/
theorem queueReactions_eq (rs : List Reaction) (outcome : PromiseState) (m : Machine) :
    (rs.forM fun r => queueReaction r outcome) m =
      .ok () { m with microtasks := m.microtasks ++ rs.map (m.heap.reactionTask · outcome) } := by
  induction rs generalizing m with
  | nil =>
    simp only [List.map_nil, List.append_nil]
    rfl
  | cons r rs ih =>
    have hr : queueReaction r outcome m = .ok ()
        { m with microtasks := m.microtasks ++ [m.heap.reactionTask r outcome] } := rfl
    refine (bind_of_ok hr).trans ((ih _).trans ?_)
    rw [List.append_assoc, List.singleton_append, List.map_cons]

theorem areReactions_map (h : Heap) : AreReactions (rs.map (h.reactionTask · outcome)) rs outcome :=
  List.map_map

/-! ## Registering -/

/-- **Registering a reaction** does nothing without a promise, lets the reaction wait at a pending
promise and queues it at a settled one. -/
theorem addReaction_cases (id : ObjectId) (r : Reaction) (m : Machine) :
    (m.heap.promise? id = none ∧ addReaction id r m = .ok false m) ∨
    (∃ rs, m.heap.promise? id = some ⟨.pending, rs⟩ ∧ addReaction id r m =
      .ok false { m with heap := m.heap.setPromise id ⟨.pending, rs ++ [r]⟩ }) ∨
    ∃ outcome rs label, m.heap.promise? id = some ⟨outcome, rs⟩ ∧ outcome.isPending = false ∧
      addReaction id r m = .ok true
        { m with microtasks := m.microtasks ++ [⟨label, r.line, .reaction r outcome⟩] } := by
  have hadd : addReaction id r m = _ := bind_of_ok promise?_eq
  cases hrec : m.heap.promise? id with
  | none =>
    rw [hrec] at hadd
    exact .inl ⟨rfl, hadd⟩
  | some record =>
    rw [hrec] at hadd
    obtain ⟨state, rs⟩ := record
    cases state with
    | pending => exact .inr (.inl ⟨rs, rfl, hadd⟩)
    | fulfilled v => exact .inr (.inr ⟨_, rs, _, rfl, rfl, hadd⟩)
    | rejected v => exact .inr (.inr ⟨_, rs, _, rfl, rfl, hadd⟩)

/-! ## Settling -/

/-- **Settling** does nothing unless the promise is pending, and then queues what waits for it, all
at once. -/
theorem settle_cases (id : ObjectId) (line : Nat) (m : Machine) (ho : outcome.isPending = false) :
    ((∀ record, m.heap.promise? id = some record → record.state.isPending = false) ∧
      settle id outcome line m = .ok () m) ∨
    ∃ rs tasks description, m.heap.promise? id = some ⟨.pending, rs⟩ ∧
      AreReactions tasks rs outcome ∧
      settle id outcome line m =
        .ok () (Machine.recorded
          { m with
            heap := m.heap.setPromise id ⟨outcome, []⟩
            microtasks := m.microtasks ++ tasks } m.scope line .promise description) := by
  have hsettle : settle id outcome line m = _ := bind_of_ok promise?_eq
  cases hrec : m.heap.promise? id with
  | none =>
    rw [hrec] at hsettle
    exact .inl ⟨nofun, hsettle⟩
  | some record =>
    rw [hrec] at hsettle
    obtain ⟨state, rs⟩ := record
    cases state with
    | pending =>
      have hq := queueReactions_eq rs outcome { m with heap := m.heap.setPromise id ⟨outcome, []⟩ }
      have hsettle := hsettle.trans ((bind_of_ok rfl).trans (bind_of_ok hq))
      refine .inr ⟨rs, rs.map ((m.heap.setPromise id ⟨outcome, []⟩).reactionTask · outcome), ?_⟩
      cases outcome with
      | pending => cases ho
      | fulfilled v => exact ⟨_, rfl, areReactions_map _, hsettle⟩
      | rejected v => exact ⟨_, rfl, areReactions_map _, hsettle⟩
    | fulfilled | rejected =>
      refine .inl ⟨?_, hsettle⟩
      rintro record ⟨⟩
      rfl

/-! ## Settling with what is no other promise -/

theorem settleFlat_of_isFlat (h : m.heap.isFlat id outcome = true) :
    settleFlat id outcome line m = settle id outcome line m :=
  (bind_of_ok rfl).trans (by rw [if_pos h])

theorem settleFlat_of_not (h : m.heap.isFlat id outcome = false) :
    settleFlat id outcome line m = .ok () m :=
  (bind_of_ok rfl).trans (by rw [h]; rfl)

/-- What refuses other promises does nothing, or settles a pending promise. -/
theorem settleFlat_cases (id : ObjectId) (line : Nat) (m : Machine)
    (ho : outcome.isPending = false) :
    settleFlat id outcome line m = .ok () m ∨
    ∃ rs tasks description, m.heap.promise? id = some ⟨.pending, rs⟩ ∧
      m.heap.isFlat id outcome = true ∧ AreReactions tasks rs outcome ∧
      settleFlat id outcome line m =
        .ok () (Machine.recorded
          { m with
            heap := m.heap.setPromise id ⟨outcome, []⟩
            microtasks := m.microtasks ++ tasks } m.scope line .promise description) := by
  cases hflat : m.heap.isFlat id outcome with
  | false => exact .inl (settleFlat_of_not hflat)
  | true =>
    rw [settleFlat_of_isFlat hflat]
    rcases settle_cases id line m ho with ⟨-, h⟩ | ⟨rs, tasks, description, hrec, hjobs, h⟩
    · exact .inl h
    · exact .inr ⟨rs, tasks, description, hrec, rfl, hjobs, h⟩

/-- What fulfils a promise in the end is no other promise. -/
theorem resolvePromise_eq_flat (id : ObjectId) (v : Value) (line : Nat) :
    resolvePromise id v line = (do
      let h ← heap
      match v.objectId?.filter fun other => other ≠ id && h.isPromise other with
      | some other =>
        discard (addReaction other ⟨.adopt, none, none, id, line⟩)
        recordHere line .promise "Promise follows the returned promise"
      | none => settleFlat id (.fulfilled v) line) := by
  funext m
  refine (bind_of_ok rfl).trans (Eq.trans ?_ (bind_of_ok rfl).symm)
  cases hother : v.objectId?.filter fun other => other ≠ id && m.heap.isPromise other with
  | some other => rfl
  | none =>
    have hflat : m.heap.isFlat id (.fulfilled v) = true := by rw [Heap.isFlat, hother]; rfl
    exact (settleFlat_of_isFlat hflat).symm

/-- A promise made for a value is no part of that value. -/
theorem promiseResolve_eq_flat (v : Value) (line : Nat) :
    promiseResolve v line = (do
      let h ← heap
      if v.objectId?.any h.isPromise then return v
      else
        let id ← makePromise
        settleFlat id (.fulfilled v) line
        return .object id) := by
  funext m
  refine (bind_of_ok rfl).trans (Eq.trans ?_ (bind_of_ok rfl).symm)
  by_cases hv : v.objectId?.any m.heap.isPromise = true
  · rw [if_pos hv, if_pos hv]
  rw [if_neg hv, if_neg hv]
  refine (bind_of_ok rfl).trans (Eq.trans ?_ (bind_of_ok rfl).symm)
  have hflat : (m.heap.add (.promise ⟨.pending, []⟩) none).isFlat m.heap.size (.fulfilled v) =
      true := by
    rw [Heap.isFlat, Option.isNone_iff_eq_none, Option.filter_eq_none_iff]
    rintro other hother
    by_cases hid : other = m.heap.size
    · simp [hid]
    · simpa [Heap.isPromise_add hid, hid, hother] using hv
  exact bind_congr (settleFlat_of_isFlat hflat).symm

/-! ## Machines with the same heap -/

variable {m' : Machine}

/-- **Registering a reaction looks at the heap only**: in machines with the same heap it does the
same… -/
theorem addReaction_both (id : ObjectId) (r : Reaction) (h : m'.heap = m.heap) :
    ∃ (queued : Bool) (heap : Heap) (tasks : List Task),
      addReaction id r m = .ok queued { m with heap, microtasks := m.microtasks ++ tasks } ∧
      addReaction id r m' = .ok queued { m' with heap, microtasks := m'.microtasks ++ tasks } := by
  have hm : addReaction id r m = _ := bind_of_ok promise?_eq
  have hm' : addReaction id r m' = _ := bind_of_ok promise?_eq
  rw [h] at hm'
  cases hrec : m.heap.promise? id with
  | none =>
    rw [hrec] at hm hm'
    refine ⟨false, m.heap, [], ?_⟩
    simp only [List.append_nil, ← h]
    exact ⟨hm.trans (h ▸ rfl), hm'⟩
  | some record =>
    obtain ⟨state, rs⟩ := record
    rw [hrec] at hm hm'
    cases state with
    | pending =>
      refine ⟨false, m.heap.setPromise id ⟨.pending, rs ++ [r]⟩, [], ?_⟩
      simp only [List.append_nil]
      exact ⟨hm, hm'.trans (h ▸ rfl)⟩
    | fulfilled v =>
      exact ⟨true, m.heap, [m.heap.reactionTask r (.fulfilled v)], hm, hm'.trans (h ▸ rfl)⟩
    | rejected v =>
      exact ⟨true, m.heap, [m.heap.reactionTask r (.rejected v)], hm, hm'.trans (h ▸ rfl)⟩

/-- …and so does settling a promise, which then shows what it did. -/
theorem settle_both (id : ObjectId) (line : Nat) (ho : outcome.isPending = false)
    (h : m'.heap = m.heap) : ∃ (heap : Heap) (tasks : List Task) (shown : Option String),
      let settled (m : Machine) : Machine :=
        let m' := { m with heap, microtasks := m.microtasks ++ tasks }
        shown.elim m' (m'.recorded m.scope line .promise)
      settle id outcome line m = .ok () (settled m) ∧
      settle id outcome line m' = .ok () (settled m') := by
  have hm : settle id outcome line m = _ := bind_of_ok promise?_eq
  have hm' : settle id outcome line m' = _ := bind_of_ok promise?_eq
  rw [h] at hm'
  cases hrec : m.heap.promise? id with
  | none =>
    rw [hrec] at hm hm'
    refine ⟨m.heap, [], none, ?_⟩
    simp only [List.append_nil, Option.elim, ← h]
    exact ⟨hm.trans (h ▸ rfl), hm'⟩
  | some record =>
    obtain ⟨state, rs⟩ := record
    rw [hrec] at hm hm'
    cases state with
    | pending =>
      have hq := queueReactions_eq rs outcome { m with heap := m.heap.setPromise id ⟨outcome, []⟩ }
      have hq' := queueReactions_eq rs outcome
        { m' with heap := m'.heap.setPromise id ⟨outcome, []⟩ }
      have hm := hm.trans ((bind_of_ok rfl).trans (bind_of_ok hq))
      have hm' := hm'.trans ((bind_of_ok rfl).trans (bind_of_ok hq'))
      refine ⟨m.heap.setPromise id ⟨outcome, []⟩,
        rs.map ((m.heap.setPromise id ⟨outcome, []⟩).reactionTask · outcome), ?_⟩
      cases outcome with
      | pending => cases ho
      | fulfilled v => exact ⟨some _, hm, hm'.trans (h ▸ rfl)⟩
      | rejected v => exact ⟨some _, hm, hm'.trans (h ▸ rfl)⟩
    | fulfilled | rejected =>
      refine ⟨m.heap, [], none, ?_⟩
      simp only [List.append_nil, Option.elim, ← h]
      exact ⟨hm.trans (h ▸ rfl), hm'⟩

/-- Whether another promise is refused depends on the heap only, too. -/
theorem settleFlat_both (id : ObjectId) (line : Nat) (ho : outcome.isPending = false)
    (h : m'.heap = m.heap) : ∃ (heap : Heap) (tasks : List Task) (shown : Option String),
      let settled (m : Machine) : Machine :=
        let m' := { m with heap, microtasks := m.microtasks ++ tasks }
        shown.elim m' (m'.recorded m.scope line .promise)
      settleFlat id outcome line m = .ok () (settled m) ∧
      settleFlat id outcome line m' = .ok () (settled m') := by
  cases hflat : m.heap.isFlat id outcome with
  | true =>
    rw [settleFlat_of_isFlat hflat, settleFlat_of_isFlat (h ▸ hflat)]
    exact settle_both id line ho h
  | false =>
    refine ⟨m.heap, [], none, ?_⟩
    simp only [List.append_nil, Option.elim, ← h]
    exact ⟨(settleFlat_of_not hflat).trans (h ▸ rfl), settleFlat_of_not (h ▸ hflat)⟩

end Exec

end ScriptTrace
