import ScriptTrace.Proofs.EventLoop.Reactions
import ScriptTrace.Proofs.Growth

/-!
# Proofs/EventLoop/Flat — promises are fulfilled with no other promise

A promise that is resolved with another one follows it, so nothing is ever fulfilled with another
promise, and a reaction that hands its outcome on has nothing to follow: it settles the promise that
it was given (`fulfilled_with_no_other_promise`).

A promise that is resolved with itself is fulfilled with itself.  A reaction that hands this outcome
on follows the promise, which is settled, and is queued once more with the same outcome, again and
again (`selfUse_fulfilled_with_itself`).
-/

namespace ScriptTrace

/-! ## Values that are no promise -/

namespace Heap

variable {h h' h'' : Heap} {v : Value} {id : ObjectId} {record new : PromiseRecord}
  {outcome : PromiseState}

/-- A value that is no promise, now or later. -/
def NoPromise (h : Heap) (v : Value) : Prop :=
  ∀ other, v = .object other → other < h.size ∧ h.promise? other = none

/-- The outcome of a promise. -/
def Bears (h : Heap) (outcome : PromiseState) : Prop :=
  ∃ id record, h.promise? id = some record ∧ record.state = outcome ∧ outcome.isPending = false

/-- **Promises in a later heap, fulfilled with no other promise**: what is a promise stays one,
what is none never becomes one, and what a promise was fulfilled with in between is no promise, or
the promise itself. -/
structure Fulfils (h h' : Heap) : Prop where
  size : h.size ≤ h'.size
  later : h.Later h'
  none : ∀ id < h.size, h.promise? id = none → h'.promise? id = none
  values : ∀ {id v rs}, h'.promise? id = some ⟨.fulfilled v, rs⟩ →
    (∃ rs, h.promise? id = some ⟨.fulfilled v, rs⟩) ∨ v = .object id ∨ h'.NoPromise v

namespace Fulfils

theorem noPromise (hh : h.Fulfils h') (hv : h.NoPromise v) : h'.NoPromise v :=
  fun other ho => ⟨(hv other ho).1.trans_le hh.size, hh.none other (hv other ho).1 (hv other ho).2⟩

/-- What an outcome bears is borne later on. -/
theorem bears (hh : h.Fulfils h') (ho : h.Bears outcome) : h'.Bears outcome := by
  obtain ⟨id, record, hr, rfl, hs⟩ := ho
  obtain ⟨record', hr', hsame⟩ := hh.later id record hr
  exact ⟨id, record', hr', by rw [hsame hs], hs⟩

/-- Promises that are fulfilled stay so through two stretches. -/
theorem trans (hh : h.Fulfils h') (hh' : h'.Fulfils h'') : h.Fulfils h'' where
  size := hh.size.trans hh'.size
  later := hh.later.trans hh'.later
  none id hid hnone := hh'.none id (hid.trans_le hh.size) (hh.none id hid hnone)
  values hr := by
    obtain ⟨rs, hr⟩ | hself | hv := hh'.values hr
    · exact (hh.values hr).imp_right (Or.imp_right hh'.noPromise)
    · exact .inr (.inl hself)
    · exact .inr (.inr hv)

/-- No promise changes. -/
theorem of_eq (hsize : h.size ≤ h'.size) (heq : ∀ id, h'.promise? id = h.promise? id) :
    h.Fulfils h' where
  size := hsize
  later id record hr := ⟨record, (heq id).trans hr, fun _ => rfl⟩
  none id _ hnone := (heq id).trans hnone
  values hr := .inl ⟨_, (heq _).symm.trans hr⟩

theorem refl (h : Heap) : h.Fulfils h := of_eq le_rfl fun _ => rfl

/-- A new promise is pending. -/
theorem add {body : Body} {className : Option String} (hf : body.isFresh = true) :
    h.Fulfils (h.add body className) where
  size := by
    change h.objects.size ≤ (h.objects.push _).size
    rw [Array.size_push]
    exact Nat.le_succ _
  later id record hr := by
    obtain heq | ⟨hnone, -⟩ := promise?_add hf
    · exact ⟨record, heq.trans hr, fun _ => rfl⟩
    · cases hnone.symm.trans hr
  none id hid hnone := by
    rw [← hnone]
    exact promise?_congr (by rw [body?_add, if_neg hid.ne])
  values {id v rs} hr := by
    have hadd : (h.add body className).promise? id = h.promise? id ∨ _ := promise?_add hf
    obtain heq | ⟨-, hpending⟩ := hadd
    · exact .inl ⟨rs, heq.symm.trans hr⟩
    · cases hpending.symm.trans hr

/-- **A pending promise takes another record**, of an outcome that is no other promise. -/
theorem setPromise {rs : List Reaction} (hr : h.promise? id = some ⟨.pending, rs⟩)
    (hv : ∀ v, new.state = .fulfilled v → v = .object id ∨ h.NoPromise v) :
    h.Fulfils (h.setPromise id new) := by
  have hset (id' : ObjectId) : (h.setPromise id new).promise? id' =
      if id' = id then some new else h.promise? id' := promise?_setPromise h hr
  have hnone : ∀ id', h.promise? id' = Option.none →
      (h.setPromise id new).promise? id' = Option.none := by
    intro id' hid'
    rw [hset, if_neg, hid']
    rintro rfl
    cases hr.symm.trans hid'
  have hsize : (h.setPromise id new).size = h.size := Array.size_modify
  refine ⟨hsize.ge, .setPromise hr, fun id' _ => hnone id', fun {id' v rs'} hr' => ?_⟩
  rw [hset] at hr'
  split at hr'
  · rename_i hid
    subst hid
    cases hr'
    exact .inr ((hv v rfl).imp_right fun hv other ho =>
      ⟨(hv other ho).1.trans_le hsize.ge, hnone other (hv other ho).2⟩)
  · exact .inl ⟨rs', hr'⟩

end Fulfils

end Heap

/-! ## Machines between which promises were fulfilled with no other promise -/

/-- Between two machines promises were fulfilled with no other promise, and all reactions that were
put in the queue carry the outcomes of promises. -/
structure Machine.Fulfils (m m' : Machine) : Prop where
  heap : m.heap.Fulfils m'.heap
  queue : ∀ task ∈ m'.microtasks, ∀ {r outcome}, task.job = .reaction r outcome →
    task ∈ m.microtasks ∨ m'.heap.Bears outcome

namespace Machine.Fulfils

variable {m m₁ m' : Machine} {α : Type} {x : Exec α}

theorem trans (h : m.Fulfils m₁) (h₁ : m₁.Fulfils m') : m.Fulfils m' where
  heap := h.heap.trans h₁.heap
  queue task htask r outcome hj := by
    obtain hmem | hbears := h₁.queue task htask hj
    · exact (h.queue task hmem hj).imp_right h₁.heap.bears
    · exact .inr hbears

theorem of_heap (hh : m.heap.Fulfils m'.heap) (hq : m'.microtasks = m.microtasks) :
    m.Fulfils m' := ⟨hh, fun _ htask _ _ _ => .inl (hq ▸ htask)⟩

theorem of_eq (hh : m'.heap = m.heap) (hq : m'.microtasks = m.microtasks) : m.Fulfils m' :=
  of_heap (hh ▸ .refl _) hq

theorem refl (m : Machine) : m.Fulfils m := of_eq rfl rfl

theorem recorded (h : m.Fulfils m') {scope : ScopeId} {line : Nat} {kind : StepKind}
    {description : String} : m.Fulfils (m'.recorded scope line kind description) :=
  h.trans (of_eq rfl rfl)

theorem of_ok {a : α} (hx : x m = .ok a m') (h : m.Fulfils m') : m.Fulfils (x.after m) := by
  rwa [Exec.after_of_ok hx]

theorem tick (m : Machine) : m.Fulfils (Exec.tick.after m) := Exec.after_tick m ▸ of_eq rfl rfl

/-- What writes values without references to objects keeps promises fulfilled as they are. -/
theorem writing {W : World} {y : Exec Unit} (h : Writing W m.heap y) : m.Fulfils (y.after m) := by
  induction h with
  | skip | misuse => exact refl m
  | change _ _ hc =>
    refine of_heap (.of_eq ?_ fun id => Heap.promise?_changed hc) rfl
    exact Array.size_modify.ge
  | raise => exact of_heap (.add rfl) rfl
  | withHeap _ ih => exact ih
  | withCeiling _ ih => exact ih m.limits.maxLength

/-- A reaction that is registered waits, or carries the outcome of its promise. -/
theorem addReaction (id : ObjectId) (r : Reaction) (m : Machine) :
    m.Fulfils ((Exec.addReaction id r).after m) := by
  rcases Exec.addReaction_cases id r m with
    ⟨-, hadd⟩ | ⟨rs, hrec, hadd⟩ | ⟨outcome, rs, label, hrec, ho, hadd⟩
  · exact .of_ok hadd (refl m)
  · exact .of_ok hadd (of_heap (.setPromise hrec nofun) rfl)
  · refine .of_ok hadd ⟨.refl _, fun task htask r' outcome' hj => ?_⟩
    obtain hmem | hmem := List.mem_append.mp htask
    · exact .inl hmem
    · obtain rfl := List.mem_singleton.mp hmem
      cases hj
      exact .inr ⟨id, _, hrec, rfl, ho⟩

/-- **What a promise is settled with** is no other promise. -/
theorem settle {id : ObjectId} {outcome : PromiseState} {line : Nat}
    (hw : Within m.world outcome) (ho : outcome.isPending = false) :
    m.Fulfils ((Exec.settleFlat id outcome line).after m) := by
  rcases Exec.settleFlat_cases id line m ho with
    hsettle | ⟨rs, tasks, description, hrec, hflat, hjobs, hsettle⟩
  · exact .of_ok hsettle (refl m)
  have hvalue : ∀ v, outcome = .fulfilled v → v = .object id ∨ m.heap.NoPromise v := by
    rintro v rfl
    by_cases hself : v = .object id
    · exact .inl hself
    refine .inr fun other hother => ?_
    subst hother
    have hlt : other < m.heap.size := within_object.mp (within_fulfilled.mp hw)
    have hne : other ≠ id := fun heq => hself (congrArg Value.object heq)
    refine ⟨hlt, Option.eq_none_iff_forall_ne_some.mpr fun record hr => ?_⟩
    have hpromise : m.heap.isPromise other = true := Heap.isPromise_iff.mpr ⟨record, hr⟩
    simp [Heap.isFlat, Value.objectId?, hne, hpromise] at hflat
  have hset : m.heap.Fulfils (m.heap.setPromise id ⟨outcome, []⟩) := .setPromise hrec hvalue
  refine .of_ok hsettle (Machine.Fulfils.recorded ⟨hset, fun task htask r outcome' hj => ?_⟩)
  obtain hmem | hmem := List.mem_append.mp htask
  · exact .inl hmem
  · have hjob : task.job ∈ rs.map (.reaction · outcome) := hjobs ▸ List.mem_map_of_mem hmem
    obtain ⟨r', -, hjob⟩ := List.mem_map.mp hjob
    cases hjob.trans hj
    exact .inr ⟨id, _, (Heap.promise?_setPromise _ hrec).trans (if_pos rfl), rfl, ho⟩

theorem takes {task : Task} {rest : List Task} (h : m.microtasks = task :: rest) :
    m.Fulfils { m with microtasks := rest } :=
  ⟨.refl _, fun _ hmem _ _ _ => .inl (h ▸ List.mem_cons_of_mem _ hmem)⟩

/-- **Every elementary action** fulfils promises with no other promise. -/
theorem elementary {l : Layer} {P : α → Prop} (h : Elementary l m.world x P) (hm : m.Closed) :
    m.Fulfils (x.after m) := by
  cases h with
  | tick => exact .tick m
  | write h => exact .writing (h m.heap hm.heap)
  | addReaction => exact .addReaction ..
  | settle _ hw ho => exact .settle hw ho
  | putIn =>
    refine of_heap (.of_eq ?_ fun id => Heap.promise?_label _ _ _ _) rfl
    exact (Heap.size_label ..).ge
  | raise => exact of_heap (.add rfl) rfl
  | addMicrotask =>
    refine ⟨.refl _, fun task htask r outcome hj => ?_⟩
    obtain hmem | hmem := List.mem_append.mp htask
    · exact .inl hmem
    · obtain rfl := List.mem_singleton.mp hmem
      cases hj
  | flattened => exact of_eq (by rw [Exec.after_flattened]) (by rw [Exec.after_flattened])
  | nextMicrotask? =>
    cases hq : m.microtasks with
    | nil => exact .of_ok (Exec.nextMicrotask_of_nil hq) (refl m)
    | cons => exact .of_ok (Exec.nextMicrotask_of_cons hq) (takes hq)
  | nextCallback? =>
    cases hq : m.callbacks with
    | nil => exact .of_ok (Exec.nextCallback_of_nil hq) (refl m)
    | cons => exact .of_ok (Exec.nextCallback_of_cons hq) (of_eq rfl rfl)
  | _ => exact of_eq rfl rfl

theorem makes {l : Layer} (h : Makes l m.world m m') : m.Fulfils m' := by
  cases h with
  | object _ hf => exact of_heap (.add hf) rfl
  | scope | copy => exact of_eq rfl rfl

theorem call {f : Option Fault} (h : CallEffect m.world m f m') : m.Fulfils m' := by
  cases h <;> exact of_eq rfl rfl

end Machine.Fulfils

/-- Every effect fulfils promises with what is no other promise. -/
theorem fulfils_stepwise : (Invariant.closed fun m _ m' => m.Fulfils m').Stepwise .loop where
  safe := Invariant.safe_closed _
  refl _ := .refl _
  trans := .trans
  caught := id
  acts h hm hW := .elementary (hW ▸ h) hm
  makes _ := .makes
  exhausts _ := .refl _
  call _ := .call
  shown h _ _ := h.recorded

/-! ## Every machine of a run -/

/-- An outcome that is no promise. -/
def Heap.PlainOutcome (h : Heap) (outcome : PromiseState) : Prop :=
  ∀ v, outcome = .fulfilled v → h.NoPromise v

/-- A promise that is fulfilled with itself. -/
def Heap.HoldsItself (h : Heap) (id : ObjectId) : Prop :=
  ∃ rs, h.promise? id = some ⟨.fulfilled (.object id), rs⟩

/-- **A machine in which promises are fulfilled with no other promise**, and the reactions in the
queue carry the outcomes of promises. -/
structure Machine.Flat (m : Machine) : Prop where
  promises : ∀ {id record}, m.heap.promise? id = some record →
    m.heap.PlainOutcome record.state ∨ m.heap.HoldsItself id
  queue : ∀ task ∈ m.microtasks, ∀ {r outcome}, task.job = .reaction r outcome →
    outcome.isPending = false ∧ (m.heap.PlainOutcome outcome ∨
      ∃ id, outcome = .fulfilled (.object id) ∧ m.heap.HoldsItself id)

/-- From the empty heap on no promise is fulfilled with another one. -/
theorem Machine.Fulfils.flat {limits : Limits} {m : Machine}
    (h : (Machine.initial limits).Fulfils m) : m.Flat := by
  have hpromises : ∀ {id record}, m.heap.promise? id = some record →
      m.heap.PlainOutcome record.state ∨
        record.state = .fulfilled (.object id) ∧ m.heap.HoldsItself id := by
    rintro id ⟨state, rs⟩ hr
    by_cases hself : state = .fulfilled (.object id)
    · exact .inr ⟨hself, rs, hself ▸ hr⟩
    refine .inl fun v hv => ?_
    obtain rfl : state = .fulfilled v := hv
    obtain ⟨_, hinitial⟩ | rfl | hv := h.heap.values hr
    · cases hinitial
    · exact absurd rfl hself
    · exact hv
  refine ⟨fun hr => (hpromises hr).imp_right And.right, fun task htask r outcome hj => ?_⟩
  obtain ⟨id, record, hr, rfl, ho⟩ :=
    (h.queue task htask hj).resolve_left List.not_mem_nil
  exact ⟨ho, (hpromises hr).imp_right fun ⟨hself, hholds⟩ => ⟨id, hself, hholds⟩⟩

/-- What an action of the run does to promises, however it ends. -/
theorem Action.fulfils {α : Type} {x : Evaluator → Exec α} {Q : World → α → Prop} {m : Machine}
    (hx : Action .loop m.world x Q) (hm : m.Closed) (fuel : Nat) :
    m.Fulfils ((x (.bounded fuel)).after m) := by
  have hI := fulfils_stepwise.lawful
  have hkeeps := hx.keeps hI (Evaluator.keeps_bounded hI fuel)
  cases heq : x (.bounded fuel) m with
  | ok a m' =>
    rw [Exec.after_of_ok heq]
    exact (hkeeps.ok hm rfl heq).1.moves
  | error f m' =>
    rw [Exec.after_of_error heq]
    exact (hkeeps.error hm rfl heq).moves

/-- **At the end of a run no promise is fulfilled with another one.** -/
theorem flat_finalMachine (limits : Limits) (program : Syntax.Program) (fuel : Nat) :
    (finalMachine limits fuel program).Flat := by
  have hend := Action.fulfils (x := fun ev => ev.runProgram program) (m := .initial limits)
    .runProgram (.initial limits) fuel
  unfold finalMachine
  split
  · rename_i m heq
    rw [Exec.after_of_ok heq] at hend
    exact hend.flat
  · rename_i f m heq
    rw [Exec.after_of_error heq] at hend
    exact hend.recorded.flat

/-- Nothing nested in a run begins or ends with a promise fulfilled with another one. -/
theorem Nested.flat {limits : Limits} {program : Syntax.Program} {fuel k : Nat} {β : Type}
    {w : Work β} {m : Machine}
    (h : Nested (fun ev => ev.runProgram program) fuel (.initial limits) w k m) :
    m.Flat ∧ ((w.exec k).after m).Flat := by
  obtain ⟨hlead, hfit, -⟩ := Action.nested fulfils_stepwise .runProgram (.initial limits) h
  have hend := Action.fulfils (x := fun ev => ev.run w) (.eval hfit) hlead.state k
  exact ⟨hlead.moves.flat, (hlead.moves.trans hend).flat⟩

/-! ## Resolving, and handing on an outcome -/

section

variable {m m₁ m' : Machine} {id other derived : ObjectId} {record : PromiseRecord}
  {outcome : PromiseState} {v : Value} {line : Nat}

/-- What is no promise never becomes one. -/
theorem Heap.NoPromise.later (h : m.heap.NoPromise v) (hm : m.Grows m₁) :
    m₁.heap.NoPromise v := by
  intro other hother
  obtain ⟨hlt, hnone⟩ := h other hother
  obtain ⟨o, ho⟩ : ∃ o, m.heap.get? other = some o := ⟨_, Array.getElem?_eq_getElem hlt⟩
  obtain ⟨o', ho', hlater⟩ := hm.objects.getElem?_later (Array.getElem?_toList.trans ho)
  have hget : m₁.heap.get? other = some o' := Array.getElem?_toList.symm.trans ho'
  refine ⟨(Array.getElem?_eq_some_iff.mp hget).1, ?_⟩
  rw [promise?, body?, ho] at hnone
  rw [promise?, body?, hget]
  have hbody : o.body.record? = none := hnone
  have hway := hlater.body
  change o'.body.record? = none
  generalize o.body = body, o'.body = body' at hway hbody
  cases hway with
  | promise => cases hbody
  | plain | array => rfl
  | function => exact hbody

namespace Exec

/-- **A promise that is resolved with another one** stays as it is and registers there. -/
theorem resolvePromise_follows (hne : other ≠ id) (hr : m.heap.promise? other = some record)
    (line : Nat) :
    ∃ queued m₁ m', addReaction other ⟨.adopt, none, none, id, line⟩ m = .ok queued m₁ ∧
      resolvePromise id (.object other) line m = .ok () m' ∧ m'.heap = m₁.heap ∧
      m'.microtasks = m₁.microtasks ∧ m'.heap.promise? id = m.heap.promise? id := by
  have hother : ((Value.object other).objectId?.filter
      fun other => other ≠ id && m.heap.isPromise other) = some other := by
    simp [Value.objectId?, hne, Heap.isPromise_iff.mpr ⟨record, hr⟩]
  have hresolve {queued : Bool} {m₁ : Machine}
      (hadd : addReaction other ⟨.adopt, none, none, id, line⟩ m = .ok queued m₁) :
      resolvePromise id (.object other) line m = .ok ()
        (m₁.recorded m₁.scope line .promise "Promise follows the returned promise") := by
    have hdiscard : (discard (addReaction other ⟨.adopt, none, none, id, line⟩) : Exec PUnit) m =
        .ok () m₁ := bind_of_ok hadd
    refine (bind_of_ok rfl).trans ?_
    rw [hother]
    exact bind_of_ok hdiscard
  rcases addReaction_cases other ⟨.adopt, none, none, id, line⟩ m with
    ⟨-, hadd⟩ | ⟨rs, hrec, hadd⟩ | ⟨outcome, rs, label, hrec, ho, hadd⟩
  · exact ⟨_, _, _, hadd, hresolve hadd, rfl, rfl, rfl⟩
  · refine ⟨_, _, _, hadd, hresolve hadd, rfl, rfl, ?_⟩
    exact (Heap.promise?_setPromise _ hrec).trans (if_neg hne.symm)
  · exact ⟨_, _, _, hadd, hresolve hadd, rfl, rfl, rfl⟩

/-- **What is handed on settles**, unless it is a promise. -/
theorem passOn_of_plain (ho : outcome.isPending = false) (hv : m.heap.PlainOutcome outcome) :
    passOn derived outcome line m = settle derived outcome line m := by
  cases outcome with
  | pending => cases ho
  | rejected v => rfl
  | fulfilled v => exact resolvePromise_eq fun other hother _ => (hv v rfl other hother).2

/-- A promise that is settled is no longer pending, and what waited for it is put in the queue. -/
theorem settle_settles (hr : m.heap.promise? id = some record) (ho : outcome.isPending = false)
    (line : Nat) :
    ∃ tasks m' record', settle id outcome line m = .ok () m' ∧
      m'.heap.promise? id = some record' ∧ record'.state.isPending = false ∧
      m'.microtasks = m.microtasks ++ tasks ∧
      AreReactions tasks (if record.state.isPending then record.reactions else []) outcome := by
  rcases settle_cases id line m ho with
    ⟨hsettled, hsettle⟩ | ⟨rs, tasks, description, hrec, hjobs, hsettle⟩
  · refine ⟨[], m, record, hsettle, hr, hsettled record hr, (List.append_nil _).symm, ?_⟩
    rw [if_neg (Bool.eq_false_iff.mp (hsettled record hr))]
    rfl
  · cases hrec.symm.trans hr
    refine ⟨tasks, _, ⟨outcome, []⟩, hsettle, ?_, ho, rfl, hjobs⟩
    exact (Heap.promise?_setPromise _ hrec).trans (if_pos rfl)

/-- The outcome of a promise that is fulfilled with itself is handed on by one more reaction with
the same outcome. -/
theorem passOn_itself (hself : m.heap.HoldsItself id) (hne : id ≠ derived) (line : Nat) :
    ∃ task m', passOn derived (.fulfilled (.object id)) line m = .ok () m' ∧
      task.job = .reaction ⟨.adopt, none, none, derived, line⟩ (.fulfilled (.object id)) ∧
      m'.microtasks = m.microtasks ++ [task] ∧ m'.heap = m.heap := by
  obtain ⟨rs, hr⟩ := hself
  obtain ⟨queued, m₁, m', hadd, hresolve, hheap, hqueue, -⟩ := resolvePromise_follows hne hr line
  rcases addReaction_cases id ⟨.adopt, none, none, derived, line⟩ m with
    ⟨hnone, -⟩ | ⟨rs', hrec, -⟩ | ⟨outcome, rs', label, hrec, -, hadd'⟩
  · cases hnone.symm.trans hr
  · cases hrec.symm.trans hr
  · cases hrec.symm.trans hr
    cases hadd'.symm.trans hadd
    exact ⟨_, m', hresolve, rfl, hqueue, hheap⟩

end Exec

end

/-- **What resolving a promise does**: another promise is followed, and the promise stays as it is;
every other value, also the promise itself, settles it. -/
structure Machine.Resolving (m : Machine) (id : ObjectId) (line : Nat) : Prop where
  follows : ∀ {other record}, other ≠ id → m.heap.promise? other = some record →
    ∃ queued m₁ m', Exec.addReaction other ⟨.adopt, none, none, id, line⟩ m = .ok queued m₁ ∧
      Exec.resolvePromise id (.object other) line m = .ok () m' ∧ m'.heap = m₁.heap ∧
      m'.microtasks = m₁.microtasks ∧ m'.heap.promise? id = m.heap.promise? id
  settles : ∀ {v}, (∀ other, v = .object other → other ≠ id → m.heap.promise? other = none) →
    Exec.resolvePromise id v line m = Exec.settle id (.fulfilled v) line m

/-- **A reaction that hands its outcome on settles its promise**, with what it hands on: if it has
no handler, and behind the handler of a `finally`. -/
structure Machine.PassesThrough (m : Machine) (fuel : Nat) (r : Reaction) (outcome : PromiseState) :
    Prop where
  absent : Evaluator.handlerOf r outcome = none →
    (Evaluator.bounded fuel).react r outcome m = Exec.settle r.derived outcome r.line m
  behind : ∀ {f v m₁}, r.kind = .finally → r.onFulfilled = some f →
    (Evaluator.bounded fuel).apply f .undefined [] r.line m = .ok v m₁ →
    (Evaluator.bounded fuel).react r outcome m = Exec.settle r.derived outcome r.line m₁

/-- A reaction without a function hands the outcome on as it is. -/
theorem Machine.passesThrough {m : Machine} {outcome : PromiseState} (fuel : Nat) (r : Reaction)
    (ho : outcome.isPending = false) (hv : m.heap.PlainOutcome outcome) :
    m.PassesThrough fuel r outcome where
  absent hnone := by
    rw [Evaluator.react, hnone]
    exact Exec.passOn_of_plain ho hv
  behind {f v m₁} hkind hf hcall := by
    have hgrows : m.Grows m₁ := by
      rw [← Exec.after_of_ok hcall]
      exact (Evaluation.work (.apply f .undefined [] r.line)).grows fuel m
    have hhandler : Evaluator.handlerOf r outcome = some f := by
      unfold Evaluator.handlerOf
      rw [hkind]
      exact hf
    have hargs : Evaluator.handlerArguments r outcome = [] := by
      unfold Evaluator.handlerArguments
      rw [hkind]
    rw [Evaluator.react, hhandler, hargs]
    refine (Exec.bind_of_ok (Exec.catchThrown_of_ok hcall)).trans ?_
    dsimp only
    rw [if_pos hkind]
    exact Exec.passOn_of_plain ho fun v hout => (hv v hout).later hgrows

/-- **A promise is fulfilled with no other promise.**  Whatever a run evaluates begins and ends in a
machine in which each promise is fulfilled with a value that is no promise, or with itself, and so
does the run; the reactions in the queue carry such outcomes.  Resolving with another promise leaves
a promise pending.  A reaction that hands on an outcome that is no promise settles its promise, and
puts only reactions in the queue that waited there.  What a promise that holds itself is handed on
to follows it instead, by another reaction of the same kind. -/
theorem fulfilled_with_no_other_promise (limits : Limits) (program : Syntax.Program) :
    (∀ {fuel k : Nat} {β : Type} {w : Work β} {m : Machine},
      Nested (fun ev => ev.runProgram program) fuel (.initial limits) w k m →
        m.Flat ∧ ((w.exec k).after m).Flat) ∧
    (∀ fuel, (finalMachine limits fuel program).Flat) ∧
    (∀ (m : Machine) id line, m.Resolving id line) ∧
    (∀ (m : Machine) fuel r {outcome}, outcome.isPending = false →
      m.heap.PlainOutcome outcome → m.PassesThrough fuel r outcome) ∧
    (∀ {m : Machine} {id record outcome}, m.heap.promise? id = some record →
      outcome.isPending = false → ∀ line,
      ∃ tasks m' record', Exec.settle id outcome line m = .ok () m' ∧
        m'.heap.promise? id = some record' ∧ record'.state.isPending = false ∧
        m'.microtasks = m.microtasks ++ tasks ∧
        AreReactions tasks (if record.state.isPending then record.reactions else []) outcome) ∧
    ∀ {m : Machine} {id derived}, m.heap.HoldsItself id → id ≠ derived → ∀ line,
      ∃ task m', Exec.passOn derived (.fulfilled (.object id)) line m = .ok () m' ∧
        task.job = .reaction ⟨.adopt, none, none, derived, line⟩ (.fulfilled (.object id)) ∧
        m'.microtasks = m.microtasks ++ [task] ∧ m'.heap = m.heap :=
  ⟨Nested.flat, flat_finalMachine limits program,
    fun _ _ line => ⟨fun hne hr => Exec.resolvePromise_follows hne hr line, Exec.resolvePromise_eq⟩,
    fun _ fuel r _ => Machine.passesThrough fuel r, Exec.settle_settles, Exec.passOn_itself⟩

/-- A machine with a promise that is fulfilled with itself. -/
def holdingItself : Machine :=
  { Machine.initial .default with
    heap := Heap.empty.add (.promise ⟨.fulfilled (.object 0), []⟩) none }

/-- A program with promises that follow one another. -/
def adoptUse : Syntax.Program :=
  (Syntax.readProgram ("const p = Promise.resolve(1); const q = p.then(() => p); " ++
    "q.finally(() => p).then(console.log)")).toOption.getD []

/-- Promises that adopt one another, and one that is resolved with itself. -/
theorem adoptUse_flat :
    (∃ m, Nested (fun ev => ev.runProgram adoptUse) 60 (.initial .default)
      (.statement Scopes.globalId none (adoptUse.headD default)) 60 m ∧ m.Flat) ∧
    ((finalMachine .default 60 adoptUse).Flat ∧
      (List.range 6).filter (finalMachine .default 60 adoptUse).heap.isPromise = [0, 2, 4, 5]) ∧
    (∃ m', Exec.resolvePromise 1 (.object 0) 1 holdingItself = .ok () m' ∧
      m'.heap.promise? 1 = none) ∧
    (Machine.initial .default).PassesThrough 9 ⟨.catch, none, none, 0, 1⟩
      (.fulfilled (.bool true)) ∧
    (∃ m', Exec.settle 0 (.fulfilled .null) 1 holdingItself = .ok () m' ∧ m'.microtasks = []) ∧
    ∃ task m', Exec.passOn 1 (.fulfilled (.object 0)) 1 holdingItself = .ok () m' ∧
      task.job = .reaction ⟨.adopt, none, none, 1, 1⟩ (.fulfilled (.object 0)) ∧
      m'.microtasks = [task] := by
  obtain ⟨hnested, hfinal, hresolving, hpasses, hsettles, hitself⟩ :=
    fulfilled_with_no_other_promise .default adoptUse
  have hpromise : holdingItself.heap.promise? 0 = some ⟨.fulfilled (.object 0), []⟩ := rfl
  obtain ⟨hne, hpromises⟩ : adoptUse.isEmpty = false ∧ (List.range 6).filter
      (finalMachine .default 60 adoptUse).heap.isPromise = [0, 2, 4, 5] := by decide +kernel
  refine ⟨?_, ⟨hfinal 60, hpromises⟩, ?_, hpasses _ 9 _ rfl fun v hv => ?_, ?_, ?_⟩
  · cases hprogram : adoptUse with
    | nil =>
      rw [hprogram] at hne
      cases hne
    | cons s ss =>
      rw [hprogram] at hnested
      have hfirst : Nested (fun ev => ev.runProgram (s :: ss)) 60 (.initial .default) _ 60 _ :=
        Nested.first (hoistBody_initial .default (s :: ss))
      exact ⟨_, hfirst, (hnested hfirst).1⟩
  · obtain ⟨-, -, m', -, hresolve, -, -, hsame⟩ :=
      (hresolving holdingItself 1 1).follows (by decide) hpromise
    exact ⟨m', hresolve, hsame⟩
  · cases hv
    exact nofun
  · obtain ⟨tasks, m', -, hsettle, -, -, hqueue, hjobs⟩ :=
      hsettles hpromise (rfl : (PromiseState.fulfilled .null).isPending = false) 1
    exact ⟨m', hsettle, by rw [hqueue, List.map_eq_nil_iff.mp hjobs]; rfl⟩
  · obtain ⟨task, m', hpass, hjob, hqueue, -⟩ :=
      hitself ⟨[], hpromise⟩ (by decide : (0 : ObjectId) ≠ 1) 1
    exact ⟨task, m', hpass, hjob, hqueue⟩

/-- A promise that is resolved with itself, and a handler for its rejection. -/
def selfUse : String :=
  "let r; const p = new Promise(f => \x7b r = f \x7d); r(p); " ++
  "p.catch(() => console.log(\"rejected\"))"

/-- The promise with this number is fulfilled with itself at the end of the run of a source. -/
def endsHoldingItself (limits : Limits) (source : String) (id : ObjectId) : Bool :=
  match Syntax.readProgram source with
  | .ok program =>
    match (finalMachine limits (fuelFor limits source.length) program).heap.promise? id with
    | some ⟨.fulfilled (.object other), _⟩ => other = id
    | _ => false
  | .error _ => false

/-- What is found by running a source is so. -/
theorem holdsItself_of_ends {limits : Limits} {source : String} {id : ObjectId}
    (h : endsHoldingItself limits source id = true) :
    ∃ program, Syntax.readProgram source = .ok program ∧
      (finalMachine limits (fuelFor limits source.length) program).heap.HoldsItself id := by
  unfold endsHoldingItself at h
  split at h
  · rename_i program hread
    refine ⟨program, hread, ?_⟩
    split at h
    · rename_i other rs hr
      obtain rfl : other = id := of_decide_eq_true h
      exact ⟨rs, hr⟩
    · cases h
  · cases h

/-- A promise that is resolved with itself is neither rejected nor pending: it is fulfilled with
itself, and the reaction to it is queued again and again, until the run is cut short. -/
theorem selfUse_fulfilled_with_itself :
    (∃ program id, Syntax.readProgram selfUse = .ok program ∧
      (finalMachine ⟨40, 10, 100⟩ (fuelFor ⟨40, 10, 100⟩ selfUse.length) program).heap.HoldsItself
        id) ∧
    ((run ⟨40, 10, 100⟩ selfUse).consoleTexts, (run ⟨40, 10, 100⟩ selfUse).error) =
      ([], some "Execution exceeded 40 steps (possible infinite loop)") := by
  have hends : endsHoldingItself ⟨40, 10, 100⟩ selfUse 1 = true ∧
      ((run ⟨40, 10, 100⟩ selfUse).consoleTexts, (run ⟨40, 10, 100⟩ selfUse).error) =
        ([], some "Execution exceeded 40 steps (possible infinite loop)") := by decide +kernel
  obtain ⟨program, hread, hself⟩ := holdsItself_of_ends hends.1
  exact ⟨⟨program, 1, hread, hself⟩, hends.2⟩

end ScriptTrace
