import ScriptTrace.Proofs.EventLoop.Microtasks

/-!
# Proofs/EventLoop/Promises — the life of a promise

A promise is pending until it is settled, and from then on stays as it is.  A reaction is in one
place at a time:

    registered ─▸ at the promise ─▸ in the queue ─▸ started
         └───────────────────────────▴

No arrow changes the order, so the list of all reactions that were registered on a promise is cut
into the three places.  What a reaction leaves behind is a promise that is settled or that awaits
another one; for that, everything that a task names has to be there (`Course.closed`).
-/

namespace ScriptTrace

/-- The microtasks that the event loop has taken from the queue, those of reactions with their
promise.  Only the ceiling on work can then still keep one from its first step. -/
def started (es : List Event) : List (Option ObjectId × Task) :=
  (pushed es).take (takenFrom .microtasks es).length

/-- The microtasks in the queue, those of reactions with their promise. -/
def enqueued (es : List Event) : List (Option ObjectId × Task) :=
  (pushed es).drop (takenFrom .microtasks es).length

/-- **A promise awaits another one** if it is the target of a reaction that waits there, or is among
these tasks, and that passes the outcome on. -/
structure Awaits (ps : List (Option ObjectId × Task)) (m : Machine) (id other : ObjectId) :
    Prop where
  ne : other ≠ id
  adopts : ∃ r : Reaction, r.kind = .adopt ∧ r.derived = id ∧
    (r ∈ m.heap.waiting other ∨ r ∈ reactionsTo other ps)

/-- **What becomes of a promise** that a reaction settles: it is settled, or awaits another one. -/
def Answered (ps : List (Option ObjectId × Task)) (m : Machine) (id : ObjectId) : Prop :=
  (∃ outcome, m.heap.Settled id outcome) ∨ ∃ other, Awaits ps m id other

/-! ## Promises and reactions at a stage -/

/-- **Promises at a stage of a run.** -/
structure PromiseLife (es : List Event) (s : Stage) (m : Machine) : Prop where
  /-- A promise is pending as long as it was not settled, and it is settled at most once; then it
  has that state and stores no reactions. -/
  state : ∀ {id record}, m.heap.promise? id = some record →
    (settlements id es = [] ∧ record.state = .pending) ∨
      (settlements id es = [record.state] ∧ m.heap.Settled id record.state)
  /-- The reactions in the queue carry the outcomes of their promises, which are settled. -/
  queue : m.microtasks = (enqueued es).map Prod.snd ∧ ∀ p ∈ enqueued es, Reports m.heap p
  /-- Every reaction is in one place. -/
  places : ∀ id, registeredOn id es =
    reactionsTo id (started es) ++ (reactionsTo id (enqueued es) ++ m.heap.waiting id)
  /-- The tasks that have started are those that began, unless the run ends there. -/
  began : begun .microtasks es <+: (started es).map Prod.snd ∧
    ((∀ f, s ≠ .over (some f)) → begun .microtasks es = (started es).map Prod.snd)
  /-- At the end of a run without a fault all reactions to settled promises have started. -/
  ran : s = .over none → ∀ {id outcome}, m.heap.Settled id outcome →
    reactionsTo id (started es) = registeredOn id es

namespace History

variable {l : Layer} {limits : Limits} {es : List Event} {m : Machine} {id : ObjectId}

/-- The tasks that were started are those that were taken from the queue. -/
theorem started_eq (h : History l (.initial limits) es m) :
    (started es).map Prod.snd = takenFrom .microtasks es := by
  have hqueue : _ = (pushed es).map Prod.snd := h.microtasks_eq
  rw [started, List.map_take, ← hqueue, List.take_left]

/-- The tasks that wait are those that were put in and not taken. -/
theorem enqueued_eq (h : History l (.initial limits) es m) :
    m.microtasks = (enqueued es).map Prod.snd := by
  have hqueue : _ = (pushed es).map Prod.snd := h.microtasks_eq
  rw [enqueued, List.map_drop, ← hqueue, List.drop_left]

/-- What is put in the queue stays there as long as nothing is taken. -/
theorem enqueued_append (h : History l (.initial limits) es m) {es' : List Event}
    (hes : takenFrom .microtasks es' = []) : enqueued (es ++ es') = enqueued es ++ pushed es' := by
  have hlength := congrArg List.length h.started_eq
  rw [List.length_map, started, List.length_take] at hlength
  rw [enqueued, enqueued, takenFrom_append, hes, List.append_nil, pushed_append]
  exact List.drop_append_of_le_length (by omega)

/-- **Every reaction is in one place.** -/
theorem places (h : History l (.initial limits) es m) (id : ObjectId) : registeredOn id es =
    reactionsTo id (started es) ++ (reactionsTo id (enqueued es) ++ m.heap.waiting id) := by
  have hwaiting : _ = registeredOn id es := h.waiting_eq Heap.tidy_initial id
  rw [← List.append_assoc, ← reactionsTo_append, started, enqueued, List.take_append_drop, hwaiting]

/-- The log says how often a promise was settled. -/
theorem state (h : History l (.initial limits) es m) {record : PromiseRecord}
    (hr : m.heap.promise? id = some record) :
    (settlements id es = [] ∧ record.state = .pending) ∨
      (settlements id es = [record.state] ∧ m.heap.Settled id record.state) := by
  have houtcome : m.heap.outcomes id = settlements id es := h.outcomes_eq id
  rw [Heap.outcomes, hr] at houtcome
  obtain ⟨outcome, rs⟩ := record
  cases ho : outcome.isPending with
  | true =>
    obtain rfl := PromiseState.isPending_iff.mp ho
    exact .inl ⟨houtcome.symm, rfl⟩
  | false =>
    obtain rfl : rs = [] := h.keeps_tidy Heap.tidy_initial id _ hr ho
    simp only [Option.elim_some, ho, Bool.false_eq_true, ↓reduceIte] at houtcome
    exact .inr ⟨houtcome.symm, hr, ho⟩

end History

namespace Course

variable {limits : Limits} {program : Syntax.Program} {es es' : List Event} {s s' : Stage}
  {m m' : Machine}

/-- A promise that is settled is so at every later stage. -/
theorem settled_later (h : Course limits program es s m)
    (h' : Course limits program (es ++ es') s' m') {id : ObjectId} {outcome : PromiseState}
    (hs : m.heap.Settled id outcome) : m'.heap.Settled id outcome := by
  have hlog : settlements id es = [outcome] := by
    rcases h.history.state hs.1 with ⟨-, hp⟩ | ⟨hlog, -⟩
    · exact absurd (PromiseState.isPending_iff.mpr hp) (Bool.eq_false_iff.mp hs.2)
    · exact hlog
  have houtcome : m'.heap.outcomes id = settlements id (es ++ es') := h'.history.outcomes_eq id
  rw [settlements_append, hlog, Heap.outcomes] at houtcome
  cases hr : m'.heap.promise? id with
  | none => rw [hr] at houtcome; cases houtcome
  | some record =>
    rcases h'.history.state hr with ⟨hnone, -⟩ | ⟨hsome, hs'⟩
    · rw [settlements_append, hlog] at hnone
      cases hnone
    · rw [settlements_append, hlog, List.singleton_append, List.cons_eq_cons] at hsome
      rwa [hsome.1]

/-- **A promise is settled at most once**, by one of the three places that do so. -/
theorem promiseLife (h : Course limits program es s m) : PromiseLife es s m where
  state := h.history.state
  queue := by
    refine ⟨h.history.enqueued_eq, fun p hp => ?_⟩
    exact h.history.reports Heap.tidy_initial p (List.mem_of_mem_drop hp)
  places := h.history.places
  began := h.history.started_eq ▸ h.begun_eq .microtasks
  ran := by
    rintro rfl id outcome hs
    obtain ⟨m₀, -, hempty⟩ := h.emptied_of_over
    have hstarted := (h.begun_eq .microtasks).2 nofun
    rw [hempty.begun_of_drained rfl] at hstarted
    have hnone : enqueued es = [] := by
      rw [enqueued, ← hstarted, List.length_map, List.drop_length]
    rw [h.history.places id, hnone, hs.waiting_eq]
    exact (List.append_nil _).symm

end Course

/-! ## What there is between activities -/

section

variable {limits : Limits} {program : Syntax.Program} {es : List Event} {s : Stage} {m m' : Machine}
  {t : Task} {rest : List Task}

/-- An action ends in a closed machine if it began in one. -/
theorem Action.closed {α : Type} {x : Evaluator → Exec α} {Q : World → α → Prop}
    (hx : Action .loop m.world x Q) (hm : m.Closed) (fuel : Nat) :
    ((x (.bounded fuel)).after m).Closed := by
  have hI := (reaching_stepwise m.limits).lawful
  have hkeeps := hx.keeps hI (Evaluator.keeps_bounded hI fuel)
  cases heq : x (.bounded fuel) m with
  | ok a m' =>
    rw [Exec.after_of_ok heq]
    exact (hkeeps.ok hm rfl heq).1.state
  | error f m' =>
    rw [Exec.after_of_error heq]
    exact (hkeeps.error hm rfl heq).state

namespace Machine.Closed

theorem entering (hm : m.Closed) (phase : Phase) (description : String) :
    (m.entering phase description).Closed := (hm.enterPhase phase).recorded sees_global _ _ _

theorem takeMicrotask (hm : m.Closed) (hq : m.microtasks = t :: rest) :
    Machine.Closed { m with microtasks := rest, work := m.work + 1 } :=
  { hm.effect (.takeMicrotask rfl hq) with }

theorem takeCallback (hm : m.Closed) (hq : m.callbacks = t :: rest) :
    Machine.Closed { m with callbacks := rest, work := m.work + 1 } :=
  { hm.effect (.takeCallback rfl hq) with }

theorem beginMicrotask (hm : m.Closed) (hq : m.microtasks = t :: rest) :
    (m.beginMicrotask t rest).Closed := by
  have hentered : Machine.Closed
      { m with microtasks := rest, work := m.work + 1, scope := Scopes.globalId } :=
    { hm.takeMicrotask hq with scope := sees_global }
  exact hentered.recorded sees_global _ _ _

theorem beginMacrotask (hm : m.Closed) (hq : m.callbacks = t :: rest) :
    (m.beginMacrotask t rest).Closed := by
  have hpicked : (m.picking t rest).Closed := (hm.takeCallback hq).entering .macrotasks _
  have hentered : Machine.Closed { m.picking t rest with scope := Scopes.globalId } :=
    { hpicked with scope := sees_global }
  exact hentered.recorded sees_global _ _ _

theorem refilled (hm : m.Closed) : m.refilled.Closed :=
  (hm.effect (.moveTimers rfl)).recorded sees_global _ _ _

end Machine.Closed

/-- **Where nothing names what is not there**: everywhere but inside of activities, of which a
course says too little. -/
def Stage.Closed (m : Machine) : Stage → Prop
  | .begins (.task _ t) => m.Closed ∧ Within m.world t
  | .inside _ => True
  | _ => m.Closed

theorem Stage.Closed.next {a : Activity} (hm : m.Closed) : a.next.Closed m := by
  rcases a with _ | ⟨_ | _, t⟩
  all_goals exact hm

/-- Each activity leaves the machine closed. -/
theorem Stage.Closed.activity {a : Activity} (h : Stage.Closed m (.begins a))
    (program : Syntax.Program) (fuel : Nat) :
    ((a.exec program (.bounded fuel)).after m).Closed := by
  have hm : m.Closed := by
    cases a with
    | script => exact h
    | task => exact h.1
  refine (a.action_within program ?_).closed hm fuel
  rintro q t rfl
  exact h.2

/-- **Between activities nothing names what is not there**, and neither does the task that is about
to run. -/
theorem Course.closed (h : Course limits program es s m) : s.Closed m := by
  induction h with
  | start h =>
    have hm := Action.closed (x := fun _ => Exec.hoistBody Scopes.globalId program)
      (m := .initial limits) (.hoistBody sees_global) (.initial limits) 0
    rw [Exec.after_of_ok h] at hm
    exact hm.entering _ _
  | inside => trivial
  | @ends _ _ _ fuel _ _ _ h _ ih =>
    have hm := ih.activity program fuel
    rw [Exec.after_of_ok h] at hm
    exact .next hm
  | @fails _ _ _ fuel _ _ _ _ h _ ih =>
    have hm := ih.activity program fuel
    rw [Exec.after_of_error h] at hm
    exact hm
  | drains _ _ ih | idle _ ih => exact Machine.Closed.entering ih _ _
  | drained _ _ ih | noMicrotask _ _ ih | emptied _ _ _ ih => exact ih
  | exhausted _ hloop ih =>
    rcases hloop with rfl | rfl
    all_goals exact ih
  | microtask _ hq _ ih =>
    have hm : Machine.Closed _ := ih
    exact ⟨hm.beginMicrotask hq, (within_cons.mp (hq ▸ hm.microtasks)).1⟩
  | macrotask _ hq _ ih =>
    have hm : Machine.Closed _ := ih
    exact ⟨hm.beginMacrotask hq, (within_cons.mp (hq ▸ hm.callbacks)).1⟩
  | overrunMicrotask _ hq _ ih => exact Machine.Closed.takeMicrotask ih hq
  | overrunMacrotask _ hq _ ih => exact Machine.Closed.takeCallback ih hq
  | refill _ _ _ ih => exact Machine.Closed.refilled ih

end

/-! ## What a reaction leaves -/

section

variable {l : Layer} {limits : Limits} {program : Syntax.Program} {es : List Event}
  {m m₁ m' : Machine} {id other : ObjectId} {r : Reaction} {v : Value} {outcome : PromiseState}
  {record : PromiseRecord} {line : Nat}

/-- A reaction that has been answered stays so. -/
theorem Answered.append {ps : List (Option ObjectId × Task)} (h : Answered ps m id)
    (ps' : List (Option ObjectId × Task)) : Answered (ps' ++ ps) m id := by
  rcases h with hs | ⟨other, hne, r, hk, hd, hr⟩
  · exact .inl hs
  · refine .inr ⟨other, hne, r, hk, hd, hr.imp_right fun hr => ?_⟩
    rw [reactionsTo_append]
    exact List.mem_append_right _ hr

namespace Exec

/-- A promise is answered between two machines. -/
def Answers (m : Machine) (id : ObjectId) (m' : Machine) : Prop :=
  ∃ es, History .script m es m' ∧ Answered (pushed es) m' id

/-- What answers a promise further on answers it from here. -/
theorem Answers.after (hes : History .script m es m₁) (h : Answers m₁ id m') : Answers m id m' := by
  obtain ⟨es', hes', ha⟩ := h
  refine ⟨es ++ es', hes.trans hes', ?_⟩
  rw [pushed_append]
  exact ha.append _

/-- A promise that is settled is answered. -/
theorem settle_answers (hm : m.heap.Tidy) (hr : m.heap.promise? id = some record)
    (ho : outcome.isPending = false) (h : settle id outcome line m = .ok () m') :
    Answers m id m' := by
  cases hp : record.state.isPending with
  | true =>
    obtain ⟨state, rs⟩ := record
    obtain rfl := PromiseState.isPending_iff.mp hp
    obtain ⟨tasks, m₁, hsettle, hes, -, hs⟩ := settle_history hr ho line
    cases hsettle.symm.trans h
    exact ⟨_, hes, .inl ⟨outcome, hs⟩⟩
  | false =>
    -- A promise that is settled already stays as it is.
    rcases settle_cases id line m ho with ⟨-, hsettle⟩ | ⟨rs, tasks, description, hrec, -⟩
    · cases hsettle.symm.trans h
      refine ⟨[], .refl, .inl ⟨record.state, ?_, hp⟩⟩
      rw [hr, ← hm id record hr hp]
    · cases hrec.symm.trans hr
      cases hp

/-- A promise that is resolved is answered: it is settled, or awaits the promise that it follows. -/
theorem resolvePromise_answers (hm : m.heap.Tidy) (hr : m.heap.promise? id = some record)
    (h : resolvePromise id v line m = .ok () m') : Answers m id m' := by
  by_cases hv : ∃ other record', v = .object other ∧ other ≠ id ∧
      m.heap.promise? other = some record'
  · obtain ⟨other, record', rfl, hne, hother⟩ := hv
    obtain ⟨tasks, m₁, hresolve, hes, ht⟩ := resolvePromise_history hne hother line
    cases hresolve.symm.trans h
    refine ⟨_, hes, .inr ⟨other, hne, ⟨.adopt, none, none, id, line⟩, rfl, rfl, ?_⟩⟩
    cases hp : record'.state.isPending with
    | true =>
      rw [hp, if_pos rfl] at ht
      obtain rfl := List.map_eq_nil_iff.mp ht
      have hwaiting : m'.heap.waiting other = m.heap.waiting other ++ _ := hes.waiting_eq hm other
      refine .inl (hwaiting ▸ List.mem_append_right _ ?_)
      simp [registeredOn]
    | false =>
      rw [hp, if_neg Bool.false_ne_true] at ht
      rw [pushed_singleton, Event.pushes, reactionsTo_map ht, if_pos rfl]
      exact .inr List.mem_cons_self
  · rw [resolvePromise_eq fun other hother hne => ?_] at h
    · exact settle_answers hm hr rfl h
    · refine Option.eq_none_iff_forall_ne_some.mpr fun record' hrec => ?_
      exact hv ⟨other, record', hother, hne, hrec⟩

/-- A promise that takes over an outcome is answered. -/
theorem passOn_answers (hm : m.heap.Tidy) (hr : m.heap.promise? id = some record)
    (ho : outcome.isPending = false) (h : passOn id outcome line m = .ok () m') :
    Answers m id m' := by
  cases outcome with
  | pending => cases ho
  | fulfilled v => exact resolvePromise_answers hm hr h
  | rejected v => exact settle_answers hm hr rfl h

/-- **A reaction that ends without a fault answers its promise.** -/
theorem react_answers (hm : m.heap.Tidy) (hr : m.heap.promise? r.derived = some record)
    (ho : outcome.isPending = false) {fuel : Nat}
    (h : (Evaluator.bounded fuel).react r outcome m = .ok () m') : Answers m r.derived m' := by
  unfold Evaluator.react at h
  cases hhandler : Evaluator.handlerOf r outcome with
  | none =>
    rw [hhandler] at h
    exact passOn_answers hm hr ho h
  | some handler =>
    rw [hhandler] at h
    obtain ⟨result, m₁, hcall, h⟩ := bind_eq_ok h
    obtain ⟨es, hes⟩ := Action.history (l := .script)
      (.catchThrown (.apply (within_univ handler) within_undefined (within_univ _))) fuel m
    rw [after_of_ok hcall] at hes
    obtain ⟨record', hr', -⟩ := hes.later _ _ hr
    refine .after hes ?_
    have hm₁ := hes.keeps_tidy hm
    cases result with
    | ok v =>
      dsimp only at h
      by_cases hk : r.kind = .finally
      · rw [if_pos hk] at h
        exact passOn_answers hm₁ hr' ho h
      · rw [if_neg hk] at h
        exact resolvePromise_answers hm₁ hr' h
    | error t => exact settle_answers hm₁ hr' rfl h

end Exec

/-- The promise that a reaction is to settle is there. -/
theorem Course.derived {q : Queue} {t : Task}
    (h : Course limits program es (.begins (.task q t)) m) (hj : t.job = .reaction r outcome) :
    ∃ record, m.heap.promise? r.derived = some record := by
  obtain ⟨hm, ht⟩ : m.Closed ∧ Within m.world t := h.closed
  have hreaction := (within_reactionJob.mp (hj ▸ within_task.mp ht)).1
  obtain ⟨record, hbody⟩ := (within_reaction.mp hreaction).2.2.2
  exact ⟨record, Heap.promise?_eq_some.mpr hbody⟩

/-- A reaction that is about to run was registered on a promise that has its outcome. -/
theorem Course.source {t : Task} (h : Course limits program es (.begins (.task .microtasks t)) m)
    (hj : t.job = .reaction r outcome) :
    ∃ id, (some id, t) ∈ pushed es ∧ m.heap.Settled id outcome := by
  have hbegun := List.mem_of_getLast? h.running_begins
  rw [h.promiseLife.began.2 fun _ => Stage.noConfusion] at hbegun
  obtain ⟨p, hp, rfl⟩ := List.mem_map.mp hbegun
  have hreports := h.history.reports Heap.tidy_initial p (List.mem_of_mem_take hp)
  cases hreports with
  | callback hj' => cases hj.symm.trans hj'
  | reaction hj' hs =>
    cases hj.symm.trans hj'
    exact ⟨_, List.mem_of_mem_take hp, hs⟩

/-- **A reaction that ends without a fault leaves its promise settled, or awaiting another one.** -/
theorem Course.answered {t : Task} (h : Course limits program es (.begins (.task .microtasks t)) m)
    (hj : t.job = .reaction r outcome) {fuel : Nat}
    (ht : (Evaluator.bounded fuel).runTask t m = .ok () m') :
    ∃ es', Course limits program (es ++ es') .microtasks m' ∧
      Answered (enqueued (es ++ es')) m' r.derived := by
  have hm := h.history.keeps_tidy Heap.tidy_initial
  obtain ⟨record, hr⟩ := h.derived hj
  obtain ⟨-, -, -, ho⟩ := h.source hj
  have hreact : (Evaluator.bounded fuel).react r outcome m = .ok () m' := by
    rw [← ht, Evaluator.runTask, hj]
  obtain ⟨es', hes, hanswered⟩ := Exec.react_answers hm hr ho hreact
  refine ⟨es', .ends h ht hes, ?_⟩
  rw [h.history.enqueued_append (takenFrom_of_script hes.isTurn_eq_false)]
  exact hanswered.append _

end

/-- **The life of a promise.**  At every stage of a run a promise has been settled at most once and
stores no reactions from then on, the reactions in the queue carry the outcomes of their promises,
and every reaction that was registered waits at its promise, is in the queue or has started.  What
is settled stays as it is.  A reaction that ends without a fault leaves its promise settled, or
awaiting another one. -/
theorem promise_life_cycle (limits : Limits) (program : Syntax.Program) :
    (∀ {es : List Event} {s : Stage} {m : Machine}, Course limits program es s m →
      PromiseLife es s m) ∧
    (∀ {es es' : List Event} {s s' : Stage} {m m' : Machine}, Course limits program es s m →
      Course limits program (es ++ es') s' m' →
      ∀ {id outcome}, m.heap.Settled id outcome → m'.heap.Settled id outcome) ∧
    (∀ {l : Layer} {es : List Event} {m m' : Machine}, History l m es m' →
      m.heap.Later m'.heap) ∧
    (∀ {es : List Event} {t : Task} {r : Reaction} {outcome : PromiseState} {fuel : Nat}
      {m m' : Machine}, Course limits program es (.begins (.task .microtasks t)) m →
      t.job = .reaction r outcome → (Evaluator.bounded fuel).runTask t m = .ok () m' →
      ∃ es', Course limits program (es ++ es') .microtasks m' ∧
        Answered (enqueued (es ++ es')) m' r.derived) ∧
    Covers limits program ∧ ∀ ev m, QueuesTasks ev m :=
  ⟨fun h => h.promiseLife, fun h h' => h.settled_later h', fun h => h.later,
    fun h hj ht => h.answered hj ht, course_covers limits program, queuesTasks⟩

/-- Runs the first microtask, if that is a reaction and ends without a fault: the promise that it
settles, and the machine behind it. -/
def Machine.afterReaction? (m : Machine) : Option (ObjectId × Machine) :=
  match m.microtasks with
  | [] => none
  | t :: rest =>
    match t.job, (Evaluator.bounded 12).runTask t (m.beginMicrotask t rest) with
    | .reaction r _, .ok _ m' => if m.work < m.limits.maxSteps then some (r.derived, m') else none
    | _, _ => none

/-- What such a machine has gone through. -/
theorem Machine.exists_of_afterReaction {m m' : Machine} {id : ObjectId}
    (h : m.afterReaction? = some (id, m')) : ∃ t rest r outcome, m.microtasks = t :: rest ∧
      t.job = .reaction r outcome ∧ r.derived = id ∧ m.work < m.limits.maxSteps ∧
      (Evaluator.bounded 12).runTask t (m.beginMicrotask t rest) = .ok () m' := by
  unfold afterReaction? at h
  split at h
  · cases h
  · rename_i t rest hq
    split at h
    · rename_i r outcome _ m₁ hj ht
      split at h
      · rename_i hw
        cases h
        exact ⟨t, rest, r, outcome, hq, hj, rfl, hw, ht⟩
      · cases h
    · cases h

/-- A program that registers two reactions on a settled promise. -/
def reactionUse : Syntax.Program :=
  (Syntax.readProgram "const p = Promise.resolve(1); p.then(String); p.then(Number)").toOption.getD []

/-- Two reactions run, one behind the other, and answer their promises. -/
theorem reactionUse_answers : ∃ es m es' m', Course .default reactionUse es .microtasks m ∧
    Answered (enqueued es) m 1 ∧ Course .default reactionUse (es ++ es') .microtasks m' ∧
    Answered (enqueued (es ++ es')) m' 2 := by
  generalize hf : (Activity.script.exec reactionUse (.bounded 20)).faultOf
    (Machine.hoisted .default reactionUse).beginScript = f
  generalize hm : (Activity.script.exec reactionUse (.bounded 20)).after
    (Machine.hoisted .default reactionUse).beginScript = m
  obtain ⟨hnone, hqueue, hboth⟩ : f.isNone = true ∧ m.microtasks.isEmpty = false ∧
      (m.draining.afterReaction?.bind fun p => p.2.afterReaction?.map fun q => (p.1, q.1)) =
        some (1, 2) := by
    rw [← hf, ← hm]
    decide +kernel
  obtain rfl := Option.isNone_iff_eq_none.mp hnone
  obtain ⟨⟨id₁, m₁⟩, hfirst, hboth⟩ := Option.bind_eq_some_iff.mp hboth
  obtain ⟨⟨id₂, m₂⟩, hsecond, hids⟩ := Option.map_eq_some_iff.mp hboth
  obtain ⟨rfl, rfl⟩ : id₁ = 1 ∧ id₂ = 2 := Prod.ext_iff.mp hids
  obtain ⟨es, hdrain, -⟩ := Course.scriptEnded hf hm
  have hdrains := hdrain.drains (List.isEmpty_eq_false_iff.mp hqueue)
  obtain ⟨t₁, rest₁, r₁, outcome₁, hq₁, hj₁, hid₁, hw₁, ht₁⟩ :=
    Machine.exists_of_afterReaction hfirst
  obtain ⟨es₁, hc₁, hanswered₁⟩ := (promise_life_cycle .default reactionUse).2.2.2.1
    (hdrains.microtask hq₁ hw₁) hj₁ ht₁
  obtain ⟨t₂, rest₂, r₂, outcome₂, hq₂, hj₂, hid₂, hw₂, ht₂⟩ :=
    Machine.exists_of_afterReaction hsecond
  obtain ⟨es₂, hc₂, hanswered₂⟩ := (promise_life_cycle .default reactionUse).2.2.2.1
    (hc₁.microtask hq₂ hw₂) hj₂ ht₂
  rw [hid₁] at hanswered₁
  rw [hid₂] at hanswered₂
  rw [List.append_assoc] at hc₂ hanswered₂
  exact ⟨_, m₁, _, m₂, hc₁, hanswered₁, hc₂, hanswered₂⟩

end ScriptTrace
