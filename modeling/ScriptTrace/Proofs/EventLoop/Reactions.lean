import ScriptTrace.Proofs.EventLoop.Log

/-!
# Proofs/EventLoop/Reactions — where reactions are

A reaction that is registered on a promise waits there until the promise is settled; then it is put
in the queue of microtasks with the outcome, and from there it is taken.  Nothing else moves
reactions.  Each law here is a balance that every event keeps (`Occurs`), and so every history
(`History`): of the queue, of the reactions at a promise and of its outcomes.  A settled promise
stays as it is, so the outcome that a reaction in the queue carries is that of its promise.
-/

namespace ScriptTrace

/-! ## What a log says of microtasks and promises -/

/-- **The tasks that an event puts in the queue of microtasks**, those of reactions with their
promise. -/
def Event.pushes : Event → List (Option ObjectId × Task)
  | .queued task => [(none, task)]
  | .registered id _ tasks | .settled id _ tasks => tasks.map (some id, ·)
  | _ => []

/-- **All tasks that were put in the queue of microtasks**, in their order. -/
def pushed (es : List Event) : List (Option ObjectId × Task) := es.flatMap Event.pushes

/-- **The reactions registered on a promise**, in their order. -/
def registeredOn (id : ObjectId) (es : List Event) : List Reaction :=
  es.filterMap fun
    | .registered id' r _ => if id' = id then some r else none
    | _ => none

/-- The outcomes that a promise was settled with. -/
def settlements (id : ObjectId) (es : List Event) : List PromiseState :=
  es.filterMap fun
    | .settled id' outcome _ => if id' = id then some outcome else none
    | _ => none

/-- The reaction that a job runs. -/
def Job.reaction? : Job → Option Reaction
  | .reaction r _ => some r
  | .callback .. => none

/-- The reactions to one promise among tasks. -/
def reactionsTo (id : ObjectId) (ps : List (Option ObjectId × Task)) : List Reaction :=
  ps.filterMap fun p => if p.1 = some id then p.2.job.reaction? else none

namespace Heap

/-- The reactions that wait at a promise. -/
def waiting (h : Heap) (id : ObjectId) : List Reaction :=
  (h.promise? id).elim [] PromiseRecord.reactions

/-- The outcome of a promise, if it is settled. -/
def outcomes (h : Heap) (id : ObjectId) : List PromiseState :=
  (h.promise? id).elim [] fun record => if record.state.isPending then [] else [record.state]

/-- No settled promise stores reactions. -/
def Tidy (h : Heap) : Prop :=
  ∀ id record, h.promise? id = some record → record.state.isPending = false → record.reactions = []

/-- A settled promise. -/
def Settled (h : Heap) (id : ObjectId) (outcome : PromiseState) : Prop :=
  h.promise? id = some ⟨outcome, []⟩ ∧ outcome.isPending = false

end Heap

section

variable {id id' : ObjectId} {es es' : List Event} {ps ps' : List (Option ObjectId × Task)}

@[simp] theorem pushed_append : pushed (es ++ es') = pushed es ++ pushed es' := List.flatMap_append

@[simp] theorem registeredOn_append :
    registeredOn id (es ++ es') = registeredOn id es ++ registeredOn id es' :=
  List.filterMap_append

@[simp] theorem settlements_append :
    settlements id (es ++ es') = settlements id es ++ settlements id es' := List.filterMap_append

@[simp] theorem reactionsTo_append :
    reactionsTo id (ps ++ ps') = reactionsTo id ps ++ reactionsTo id ps' := List.filterMap_append

theorem pushed_singleton (e : Event) : pushed [e] = e.pushes := List.append_nil _

/-- The tasks that reactions become are the reactions to their promise, in the same order. -/
theorem reactionsTo_map {tasks : List Task} {rs : List Reaction} {outcome : PromiseState}
    (h : AreReactions tasks rs outcome) :
    reactionsTo id' (tasks.map (some id, ·)) = if id = id' then rs else [] := by
  rw [reactionsTo, List.filterMap_map]
  split
  · rename_i hid
    subst hid
    have hjob : (fun p : Option ObjectId × Task =>
        if p.1 = some id then p.2.job.reaction? else none) ∘ (some id, ·) =
          Job.reaction? ∘ Task.job := by
      funext task
      exact if_pos rfl
    have hsome : Job.reaction? ∘ (Job.reaction · outcome) = some := rfl
    rw [hjob, ← List.filterMap_map, h, List.filterMap_map, hsome, List.filterMap_some]
  · rename_i hid
    refine List.filterMap_eq_nil_iff.mpr fun task _ => if_neg ?_
    exact fun heq => hid (Option.some.inj heq)

end

/-! ## Promises after an event -/

namespace Heap

variable {h : Heap} {id id' : ObjectId} {record new : PromiseRecord} {outcome : PromiseState}

/-- Only the reactions of the promise itself are other ones. -/
theorem waiting_setPromise (hr : h.promise? id = some record) :
    (h.setPromise id new).waiting id' = if id' = id then new.reactions else h.waiting id' := by
  rw [waiting, promise?_setPromise h hr]
  split <;> rfl

/-- Only the outcome of the promise itself is another one. -/
theorem outcomes_setPromise (hr : h.promise? id = some record) :
    (h.setPromise id new).outcomes id' =
      if id' = id then (if new.state.isPending then [] else [new.state]) else h.outcomes id' := by
  rw [outcomes, promise?_setPromise h hr]
  split <;> rfl

theorem waiting_of_some (hr : h.promise? id = some record) : h.waiting id = record.reactions := by
  rw [waiting, hr]
  rfl

theorem Settled.waiting_eq (hs : h.Settled id outcome) : h.waiting id = [] := waiting_of_some hs.1

theorem tidy_initial {limits : Limits} : (Machine.initial limits).heap.Tidy := by
  intro id record h
  cases h

end Heap

/-- In a machine in which nothing happened promises are as they were. -/
theorem Machine.Still.waiting_eq {m m' : Machine} (h : m.Still m') (id : ObjectId) :
    m'.heap.waiting id = m.heap.waiting id := by
  rcases h.promises id with heq | ⟨hnone, hmade⟩
  · rw [Heap.waiting, heq, Heap.waiting]
  · rw [Heap.waiting, Heap.waiting, hnone, hmade]
    rfl

theorem Machine.Still.outcomes_eq {m m' : Machine} (h : m.Still m') (id : ObjectId) :
    m'.heap.outcomes id = m.heap.outcomes id := by
  rcases h.promises id with heq | ⟨hnone, hmade⟩
  · rw [Heap.outcomes, heq, Heap.outcomes]
  · rw [Heap.outcomes, Heap.outcomes, hnone, hmade]
    rfl

/-! ## Promises in later heaps -/

/-- **What stays of promises**: a promise is one in every later heap, and once it is settled it
stays as it is. -/
def Heap.Later (h h' : Heap) : Prop :=
  ∀ id record, h.promise? id = some record →
    ∃ record', h'.promise? id = some record' ∧ (record.state.isPending = false → record' = record)

namespace Heap.Later

variable {h h' h'' : Heap} {id : ObjectId} {outcome : PromiseState}

theorem refl (h : Heap) : h.Later h := fun _ _ hr => ⟨_, hr, fun _ => rfl⟩

/-- Promises only get on, also through two stretches. -/
theorem trans (h₁ : h.Later h') (h₂ : h'.Later h'') : h.Later h'' := by
  intro id record hr
  obtain ⟨record', hr', hsame⟩ := h₁ id record hr
  obtain ⟨record'', hr'', hsame'⟩ := h₂ id record' hr'
  refine ⟨record'', hr'', fun ho => ?_⟩
  obtain rfl := hsame ho
  exact hsame' ho

/-- Only the record of a pending promise is ever written. -/
theorem setPromise {rs : List Reaction} {new : PromiseRecord}
    (hr : h.promise? id = some ⟨.pending, rs⟩) : h.Later (h.setPromise id new) := by
  intro id' record hr'
  rw [promise?_setPromise h hr]
  split
  · rename_i hid
    subst hid
    cases hr.symm.trans hr'
    exact ⟨new, rfl, fun ho => by cases ho⟩
  · exact ⟨record, hr', fun _ => rfl⟩

/-- A promise that is settled stays settled in the same way. -/
theorem settled (hh : h.Later h') (hs : h.Settled id outcome) : h'.Settled id outcome := by
  obtain ⟨record', hr', hsame⟩ := hh id _ hs.1
  obtain rfl := hsame hs.2
  exact ⟨hr', hs.2⟩

end Heap.Later

theorem Machine.Still.later {m m' : Machine} (h : m.Still m') : m.heap.Later m'.heap := by
  intro id record hr
  rcases h.promises id with heq | ⟨hnone, -⟩
  · exact ⟨record, heq.trans hr, fun _ => rfl⟩
  · cases hnone.symm.trans hr

theorem Occurs.later {l : Layer} {e : Event} {m m' : Machine} (h : Occurs l m e m') :
    m.heap.Later m'.heap := by
  cases h with
  | waits hr => exact .setPromise hr
  | settled hr => exact .setPromise hr
  | _ => exact .refl _

/-- **A settled promise stays as it is.** -/
theorem History.later {l : Layer} {es : List Event} {m m' : Machine} (h : History l m es m') :
    m.heap.Later m'.heap := by
  induction h with
  | refl => exact .refl _
  | still _ hs ih => exact ih.trans hs.later
  | event _ he ih => exact ih.trans he.later

/-! ## Tasks in the queue -/

/-- **A task in the queue of microtasks** is a function that the program queued, or a reaction with
the outcome of its promise. -/
inductive Reports (h : Heap) : Option ObjectId × Task → Prop
  | callback {task : Task} {f : Value} {args : List Value} (hj : task.job = .callback f args) :
    Reports h (none, task)
  | reaction {id : ObjectId} {task : Task} {r : Reaction} {outcome : PromiseState}
    (hj : task.job = .reaction r outcome) (hs : h.Settled id outcome) : Reports h (some id, task)

/-- What reports an outcome reports it later on. -/
theorem Reports.mono {h h' : Heap} {p : Option ObjectId × Task} (hp : Reports h p)
    (hh : h.Later h') : Reports h' p := by
  cases hp with
  | callback hj => exact .callback hj
  | reaction hj hs => exact .reaction hj (hh.settled hs)

/-! ## What one event does -/

namespace Occurs

variable {l : Layer} {e : Event} {m m' : Machine} (he : Occurs l m e m')

include he

/-- An event puts its tasks at the end of the queue and takes from the front. -/
theorem microtasks_eq :
    takenFrom .microtasks [e] ++ m'.microtasks = m.microtasks ++ e.pushes.map Prod.snd := by
  have hsnd (id : ObjectId) (tasks : List Task) :
      (tasks.map fun t => (some id, t)).map Prod.snd = tasks := by
    rw [List.map_map]
    exact List.map_id _
  cases he with
  | takesMicrotask _ hm => exact hm.symm.trans (List.append_nil _).symm
  | queued | joins => rfl
  | settled => exact congrArg (m.microtasks ++ ·) (hsnd _ _).symm
  | _ => exact (List.append_nil _).symm

/-- A reaction that is registered waits or is queued, and what waits at a promise is queued when it
is settled. -/
theorem waiting_eq (hm : m.heap.Tidy) (id : ObjectId) :
    reactionsTo id e.pushes ++ m'.heap.waiting id =
      m.heap.waiting id ++ registeredOn id [e] := by
  have hregistered (id' : ObjectId) (r : Reaction) (tasks : List Task) :
      registeredOn id [.registered id' r tasks] = if id' = id then [r] else [] := by
    by_cases hid : id' = id <;> simp [registeredOn, hid]
  cases he with
  | @waits id' r rs hr =>
    rw [hregistered, Heap.waiting_setPromise hr]
    by_cases hid : id = id'
    · subst hid
      rw [if_pos rfl, if_pos rfl, Heap.waiting_of_some hr]
      rfl
    · rw [if_neg hid, if_neg (Ne.symm hid), List.append_nil]
      rfl
  | @joins id' r outcome rs task hr ho ht =>
    rw [hregistered, Event.pushes, reactionsTo_map ht]
    by_cases hid : id' = id
    · subst hid
      have hnone : m.heap.waiting id' = [] :=
        (Heap.waiting_of_some hr).trans (hm _ _ hr ho)
      rw [if_pos rfl]
      change [r] ++ m.heap.waiting id' = m.heap.waiting id' ++ [r]
      rw [hnone]
      rfl
    · rw [if_neg hid, List.append_nil]
      rfl
  | @settled id' outcome rs tasks hr ho ht =>
    rw [Event.pushes, reactionsTo_map ht, Heap.waiting_setPromise hr]
    by_cases hid : id = id'
    · subst hid
      rw [if_pos rfl, if_pos rfl, Heap.waiting_of_some hr]
      rfl
    · rw [if_neg hid, if_neg (Ne.symm hid)]
      exact (List.append_nil _).symm
  | _ => exact (List.append_nil _).symm

/-- A promise has the outcome that it is settled with. -/
theorem outcomes_eq (id : ObjectId) :
    m'.heap.outcomes id = m.heap.outcomes id ++ settlements id [e] := by
  have hpending {id : ObjectId} {rs : List Reaction}
      (hr : m.heap.promise? id = some ⟨.pending, rs⟩) : m.heap.outcomes id = [] := by
    rw [Heap.outcomes, hr]
    rfl
  cases he with
  | waits hr =>
    rw [Heap.outcomes_setPromise hr]
    split
    · rename_i hid
      rw [hid, hpending hr]
      rfl
    · exact (List.append_nil _).symm
  | @settled id' outcome rs tasks hr ho =>
    rw [Heap.outcomes_setPromise hr, ho]
    by_cases hid : id = id'
    · subst hid
      rw [if_pos rfl, hpending hr]
      simp [settlements]
    · rw [if_neg hid]
      simp [settlements, Ne.symm hid]
  | _ => exact (List.append_nil _).symm

/-- An event keeps reactions with promises that wait. -/
theorem keeps_tidy (hm : m.heap.Tidy) : m'.heap.Tidy := by
  intro id record hr hp
  cases he with
  | waits h =>
    rw [Heap.promise?_setPromise _ h] at hr
    split at hr
    · cases hr
      cases hp
    · exact hm id record hr hp
  | settled h =>
    rw [Heap.promise?_setPromise _ h] at hr
    split at hr
    · cases hr
      rfl
    · exact hm id record hr hp
  | _ => exact hm id record hr hp

/-- Each task that an event puts in the queue reports an outcome that is there. -/
theorem reports (hm : m.heap.Tidy) :
    ∀ p ∈ e.pushes, Reports m'.heap p := by
  have hreaction {id : ObjectId} {tasks : List Task} {rs : List Reaction} {outcome : PromiseState}
      (ht : AreReactions tasks rs outcome) (hs : m'.heap.Settled id outcome) :
      ∀ p ∈ tasks.map fun t => (some id, t), Reports m'.heap p := by
    intro p hp
    obtain ⟨task, htask, rfl⟩ := List.mem_map.mp hp
    have hjob : task.job ∈ rs.map (.reaction · outcome) := ht ▸ List.mem_map_of_mem htask
    obtain ⟨r, -, hjob⟩ := List.mem_map.mp hjob
    exact .reaction hjob.symm hs
  cases he with
  | queued hj =>
    intro p hp
    obtain rfl := List.mem_singleton.mp hp
    exact .callback hj
  | @joins id r outcome rs task hr ho ht =>
    obtain rfl : rs = [] := hm _ _ hr ho
    exact hreaction ht ⟨hr, ho⟩
  | settled hr ho ht =>
    exact hreaction ht ⟨by rw [Heap.promise?_setPromise _ hr, if_pos rfl], ho⟩
  | _ => exact fun p hp => absurd hp List.not_mem_nil

end Occurs

/-! ## Histories -/

namespace History

variable {l : Layer} {es : List Event} {m m' : Machine}

/-- Through a history the stored reactions stay those of promises that are pending. -/
theorem keeps_tidy (h : History l m es m') (hm : m.heap.Tidy) : m'.heap.Tidy := by
  induction h with
  | refl => exact hm
  | still _ hs ih =>
    intro id record hr hp
    rcases hs.promises id with heq | ⟨-, hmade⟩
    · exact ih id record (heq ▸ hr) hp
    · cases hmade.symm.trans hr
      rfl
  | event _ he ih => exact he.keeps_tidy ih

/-- **The queue of microtasks**: what is put there comes behind, what is taken leaves in front. -/
theorem microtasks_eq (h : History l m es m') :
    takenFrom .microtasks es ++ m'.microtasks = m.microtasks ++ (pushed es).map Prod.snd := by
  induction h with
  | refl => exact (List.append_nil _).symm
  | still _ hs ih => rw [hs.microtasks, ih]
  | event _ he ih =>
    rw [takenFrom_append, List.append_assoc, he.microtasks_eq, ← List.append_assoc, ih,
      List.append_assoc, ← List.map_append, pushed_append, pushed_singleton]

/-- **The reactions that wait at a promise**: those that are registered come behind, and what is put
in the queue leaves in front. -/
theorem waiting_eq (h : History l m es m') (hm : m.heap.Tidy) (id : ObjectId) :
    reactionsTo id (pushed es) ++ m'.heap.waiting id =
      m.heap.waiting id ++ registeredOn id es := by
  induction h with
  | refl => exact (List.append_nil _).symm
  | still _ hs ih => rw [hs.waiting_eq, ih]
  | event h he ih =>
    rw [pushed_append, reactionsTo_append, pushed_singleton, List.append_assoc,
      he.waiting_eq (h.keeps_tidy hm), ← List.append_assoc, ih, List.append_assoc,
      registeredOn_append]

/-- **The outcome of a promise** is what it was settled with. -/
theorem outcomes_eq (h : History l m es m') (id : ObjectId) :
    m'.heap.outcomes id = m.heap.outcomes id ++ settlements id es := by
  induction h with
  | refl => exact (List.append_nil _).symm
  | still _ hs ih => rw [hs.outcomes_eq, ih]
  | event _ he ih => rw [he.outcomes_eq, ih, List.append_assoc, settlements_append]

/-- **The outcomes that queued reactions carry** are those of their promises. -/
theorem reports (h : History l m es m') (hm : m.heap.Tidy) :
    ∀ p ∈ pushed es, Reports m'.heap p := by
  induction h with
  | refl => exact fun p hp => absurd hp List.not_mem_nil
  | still _ hs ih => exact fun p hp => (ih p hp).mono hs.later
  | event h he ih =>
    intro p hp
    rw [pushed_append, pushed_singleton] at hp
    rcases List.mem_append.mp hp with hp | hp
    · exact (ih p hp).mono he.later
    · exact he.reports (h.keeps_tidy hm) p hp

end History

/-! ## What is logged -/

namespace Exec

variable {m : Machine} {id other : ObjectId} {r : Reaction} {rs : List Reaction} {v : Value}
  {outcome : PromiseState} {record : PromiseRecord} {args : List Value} {line : Nat}

/-- A function that is queued as a microtask is logged. -/
theorem queueMicrotask_history (h : m.heap.isCallable (argument args 0) = true) :
    ∃ task m', task.job = .callback (argument args 0) [] ∧
      queueMicrotask args line m = .ok .undefined m' ∧ History .script m [.queued task] m' := by
  have hcallable : isCallable (argument args 0) m = .ok true m := by
    rw [← h]
    rfl
  refine ⟨⟨"queueMicrotask(" ++ m.heap.functionName (argument args 0) ++ ")", line, _⟩, _, rfl,
    (bind_of_ok hcallable).trans rfl, ?_⟩
  exact .still (.ofEvent (.queued rfl)) (.recorded (.refl _) _ _ _ _)

/-- A reaction that is registered is logged, with its task if the promise is settled. -/
theorem addReaction_history (hr : m.heap.promise? id = some record) :
    ∃ b tasks m', addReaction id r m = .ok b m' ∧
      History .script m [.registered id r tasks] m' ∧
      AreReactions tasks (if record.state.isPending then [] else [r]) record.state := by
  rcases addReaction_cases id r m with
    ⟨hnone, -⟩ | ⟨rs, hrec, hadd⟩ | ⟨outcome, rs, label, hrec, ho, hadd⟩
  · cases hnone.symm.trans hr
  · cases hrec.symm.trans hr
    exact ⟨_, _, _, hadd, .ofEvent (.waits hrec), rfl⟩
  · cases hrec.symm.trans hr
    refine ⟨_, _, _, hadd, .ofEvent (.joins hrec ho rfl), ?_⟩
    rw [ho]
    rfl

/-- A promise that is settled is logged with the tasks of all that waited for it. -/
theorem settle_history (hr : m.heap.promise? id = some ⟨.pending, rs⟩)
    (ho : outcome.isPending = false) (line : Nat) :
    ∃ tasks m', settle id outcome line m = .ok () m' ∧
      History .script m [.settled id outcome tasks] m' ∧ AreReactions tasks rs outcome ∧
      m'.heap.Settled id outcome := by
  rcases settle_cases id line m ho with ⟨hsettled, -⟩ | ⟨rs', tasks, description, hrec, ht, hsettle⟩
  · cases hsettled _ hr
  · cases hrec.symm.trans hr
    refine ⟨tasks, _, hsettle, ?_, ht, ?_, ho⟩
    · exact .still (.ofEvent (.settled hrec ho ht)) (.recorded (.refl _) _ _ _ _)
    · exact (Heap.promise?_setPromise _ hrec).trans (if_pos rfl)

/-- A promise that follows another one registers a reaction there. -/
theorem resolvePromise_history (hne : other ≠ id) (hr : m.heap.promise? other = some record)
    (line : Nat) :
    ∃ tasks m', resolvePromise id (.object other) line m = .ok () m' ∧
      History .script m [.registered other ⟨.adopt, none, none, id, line⟩ tasks] m' ∧
      AreReactions tasks
        (if record.state.isPending then [] else [⟨.adopt, none, none, id, line⟩]) record.state := by
  obtain ⟨b, tasks, m', hadd, hes, ht⟩ :=
    addReaction_history (r := ⟨.adopt, none, none, id, line⟩) hr
  have hother : ((Value.object other).objectId?.filter
      fun other => other ≠ id && m.heap.isPromise other) = some other := by
    simp [Value.objectId?, hne, Heap.isPromise_iff.mpr ⟨record, hr⟩]
  refine ⟨tasks, _, ?_, .still hes (.recorded (.refl _) m'.scope line .promise
    "Promise follows the returned promise"), ht⟩
  refine (bind_of_ok rfl).trans ?_
  rw [hother]
  have hdiscard : (discard (addReaction other ⟨.adopt, none, none, id, line⟩) : Exec PUnit) m =
      .ok () m' := bind_of_ok hadd
  exact bind_of_ok hdiscard

/-- Every other value settles the promise. -/
theorem resolvePromise_eq (h : ∀ other, v = .object other → other ≠ id →
    m.heap.promise? other = none) :
    resolvePromise id v line m = settle id (.fulfilled v) line m := by
  have hnone : (v.objectId?.filter fun other => other ≠ id && m.heap.isPromise other) = none := by
    refine Option.filter_eq_none_iff.mpr fun other hother => ?_
    have hv : v = .object other := by
      cases v <;> first | cases hother; rfl | cases hother
    intro hp
    obtain ⟨hne, hpromise⟩ := Bool.and_eq_true_iff.mp hp
    obtain ⟨record, hr⟩ := Heap.isPromise_iff.mp hpromise
    cases (h other hv (of_decide_eq_true hne)).symm.trans hr
  refine (bind_of_ok rfl).trans ?_
  rw [hnone]

end Exec

end ScriptTrace
