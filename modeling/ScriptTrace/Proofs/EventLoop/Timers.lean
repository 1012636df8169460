import ScriptTrace.Proofs.EventLoop.Log

/-!
# Proofs/EventLoop/Timers — timers fire in the order in which they are set

A timer is in one of three places: it waits, its callback is in the queue, or the callback was taken
from there.  Whatever a run does, the list of all timers that were set is cut into these three, the
latest timers last; moving the timers that wait and taking a callback only shift the two cuts.
-/

namespace ScriptTrace

/-- **The timers that were set**, in the order in which they were. -/
def timersSet (es : List Event) : List Timer :=
  es.filterMap fun
    | .set t => some t
    | _ => none

@[simp] theorem timersSet_append {es es' : List Event} :
    timersSet (es ++ es') = timersSet es ++ timersSet es' := List.filterMap_append

/-- **Numbered timers**: the number of a timer and its place in the order are its place among all
timers, counted from one. -/
def Numbered (ts : List Timer) : Prop :=
  ∀ k (hk : k < ts.length), ts[k].id = k + 1 ∧ ts[k].registrationOrder = k + 1

namespace Numbered

variable {ts : List Timer} {t : Timer}

/-- A timer with the next number goes to the end. -/
theorem append (h : Numbered ts) (hid : t.id = ts.length + 1)
    (ho : t.registrationOrder = ts.length + 1) : Numbered (ts ++ [t]) := by
  intro k hk
  rw [List.length_append, List.length_singleton] at hk
  rcases Nat.lt_succ_iff_lt_or_eq.mp hk with hlt | rfl
  · rw [List.getElem_append_left hlt]
    exact h k hlt
  · simpa using ⟨hid, ho⟩

/-- Timers that are left in the order of their numbers fire in that order. -/
theorem inOrder_drop (h : Numbered ts) (c : Nat) : Timer.inOrder (ts.drop c) = ts.drop c := by
  refine List.mergeSort_of_pairwise (List.Pairwise.sublist (List.drop_sublist c ts) ?_)
  refine List.pairwise_iff_getElem.mpr fun i j hi hj hij => ?_
  rw [(h i hi).2, (h j hj).2, decide_eq_true_iff]
  omega

end Numbered

/-! ## The three places of timers -/

/-- **Every timer is in one place**: the first ones have been taken, the next ones are in the queue,
the others wait. -/
structure TimersPlaced (es : List Event) (m : Machine) : Prop where
  numbered : Numbered (timersSet es)
  next : m.nextTimer = (timersSet es).length + 1
  places : ∃ c ≤ (timersSet es).length,
    takenFrom .macrotasks es ++ m.callbacks = ((timersSet es).take c).map Timer.task ∧
      m.timers = (timersSet es).drop c

namespace TimersPlaced

variable {l : Layer} {es : List Event} {e : Event} {m m' : Machine}

/-- At first there is no timer. -/
theorem initial (limits : Limits) : TimersPlaced [] (.initial limits) where
  numbered _ hk := absurd hk (Nat.not_lt_zero _)
  next := rfl
  places := ⟨0, Nat.le_refl 0, rfl, rfl⟩

/-- Whatever leaves timers and callbacks alone leaves the timers in their places. -/
theorem idle (h : TimersPlaced es m) (hset : timersSet [e] = [])
    (htaken : takenFrom .macrotasks [e] = []) (hn : m'.nextTimer = m.nextTimer)
    (ht : m'.timers = m.timers) (hc : m'.callbacks = m.callbacks) :
    TimersPlaced (es ++ [e]) m' where
  numbered := by simpa [hset] using h.numbered
  next := by simpa [hset, hn] using h.next
  places := by simpa [hset, htaken, ht, hc] using h.places

/-- **No event takes a timer out of its place** in the order. -/
theorem event (h : TimersPlaced es m) (he : Occurs l m e m') : TimersPlaced (es ++ [e]) m' := by
  obtain ⟨hnum, hnext, c, hc, hqueue, htimers⟩ := h
  cases he with
  | @set t hid ho =>
    have hset : timersSet (es ++ [.set t]) = timersSet es ++ [t] := timersSet_append
    have htaken : takenFrom .macrotasks (es ++ [.set t]) = takenFrom .macrotasks es := by
      rw [takenFrom_append]
      exact List.append_nil _
    refine ⟨?_, ?_, c, ?_⟩
    · rw [hset]
      exact hnum.append (hid.trans hnext) (ho.trans hnext)
    · rw [hset, List.length_append, hnext]
      rfl
    · rw [hset, htaken, List.length_append, List.take_append_of_le_length hc,
        List.drop_append_of_le_length hc, htimers]
      exact ⟨Nat.le_succ_of_le hc, hqueue, rfl⟩
  | due =>
    have hset : timersSet (es ++ [.due]) = timersSet es :=
      timersSet_append.trans (List.append_nil _)
    have htaken : takenFrom .macrotasks (es ++ [.due]) = takenFrom .macrotasks es :=
      takenFrom_append.trans (List.append_nil _)
    refine ⟨hset.symm ▸ hnum, hset.symm ▸ hnext, (timersSet es).length, ?_⟩
    rw [hset, htaken, htimers, hnum.inOrder_drop, List.take_length, List.drop_length,
      ← List.append_assoc, hqueue, ← List.map_append, List.take_append_drop]
    exact ⟨le_rfl, rfl, rfl⟩
  | @takesCallback task rest _ hm =>
    have hset : timersSet (es ++ [.taken .macrotasks task]) = timersSet es :=
      timersSet_append.trans (List.append_nil _)
    have htaken : takenFrom .macrotasks (es ++ [.taken .macrotasks task]) =
        takenFrom .macrotasks es ++ [task] := takenFrom_append
    refine ⟨hset.symm ▸ hnum, hset.symm ▸ hnext, c, ?_⟩
    rw [hset, htaken, List.append_assoc, List.singleton_append, ← hm]
    exact ⟨hc, hqueue, htimers⟩
  | _ => exact idle ⟨hnum, hnext, c, hc, hqueue, htimers⟩ rfl rfl rfl rfl rfl

end TimersPlaced

/-- **All through a run every timer is in one place.** -/
theorem History.timersPlaced {l : Layer} {limits : Limits} {es : List Event} {m : Machine}
    (h : History l (.initial limits) es m) : TimersPlaced es m := by
  induction h with
  | refl => exact .initial limits
  | still _ hs ih =>
    refine ⟨ih.numbered, hs.nextTimer.trans ih.next, ?_⟩
    rw [hs.timers, hs.callbacks]
    exact ih.places
  | event _ he ih => exact ih.event he

/-! ## Calls that set timers -/

namespace Exec

variable (name : String) {args : List Value} (line : Nat) {m : Machine}

/-- A call with a function sets one timer with its arguments and gives its number. -/
theorem setTimer_eq (h : m.heap.isCallable (argument args 0) = true) :
    ∃ t description, t.id = m.nextTimer ∧ t.registrationOrder = m.nextTimer ∧
      t.callback = argument args 0 ∧ t.args = args.drop 2 ∧
      setTimer name args line m = .ok (.count m.nextTimer)
        (Machine.recorded
          { m with nextTimer := m.nextTimer + 1, timers := m.timers ++ [t] } m.scope line .timer
          description) := by
  have hcallable : isCallable (argument args 0) m = .ok true m := by
    rw [← h]
    rfl
  exact ⟨⟨m.nextTimer, _, _, m.nextTimer, _, _, line⟩, _, rfl, rfl, rfl, rfl,
    (bind_of_ok hcallable).trans rfl⟩

/-- A call without a function changes nothing. -/
theorem setTimer_refused (h : m.heap.isCallable (argument args 0) = false) :
    setTimer name args line m =
      .error (.misuse (.timerCallback name (m.inspect (argument args 0))) line) m := by
  have hcallable : isCallable (argument args 0) m = .ok false m := by
    rw [← h]
    rfl
  exact (bind_of_ok hcallable).trans rfl

/-- To clear a timer records a step and takes it off the list. -/
theorem clearTimer_eq (args : List Value) (m : Machine) :
    ∃ description, clearTimer name args line m =
      .ok .undefined (m.recorded m.scope line .timer description) := by
  cases args <;> exact ⟨_, rfl⟩

end Exec

/-! ## The order of timers in a run -/

/-- **Timers at a stage of a run.**  With `f` the number of macrotasks that have begun: these are
the first `f` timers, up to some `c` they are in the queue of callbacks, the others wait. -/
structure TimersInOrder (es : List Event) (s : Stage) (m : Machine) : Prop where
  numbered : Numbered (timersSet es)
  next : m.nextTimer = (timersSet es).length + 1
  ran : begun .macrotasks es =
    ((timersSet es).take (begun .macrotasks es).length).map Timer.task
  left : (∀ g, s ≠ .over (some g)) → ∃ c, (begun .macrotasks es).length ≤ c ∧
    c ≤ (timersSet es).length ∧
    m.callbacks = (((timersSet es).take c).drop (begun .macrotasks es).length).map Timer.task ∧
    m.timers = (timersSet es).drop c
  all : s = .over none → (begun .macrotasks es).length = (timersSet es).length

/-- **Timers fire in the order in which they were set**, each at most once. -/
theorem Course.timersInOrder {limits : Limits} {program : Syntax.Program} {es : List Event}
    {s : Stage} {m : Machine} (h : Course limits program es s m) : TimersInOrder es s m := by
  have hleft {s : Stage} {m : Machine} (h : Course limits program es s m)
      (hs : ∀ g, s ≠ .over (some g)) : ∃ c, (begun .macrotasks es).length ≤ c ∧
      c ≤ (timersSet es).length ∧
      m.callbacks = (((timersSet es).take c).drop (begun .macrotasks es).length).map Timer.task ∧
      m.timers = (timersSet es).drop c := by
    obtain ⟨-, -, c, hc, hqueue, htimers⟩ := h.history.timersPlaced
    rw [← (h.begun_eq .macrotasks).2 hs] at hqueue
    refine ⟨c, ?_, hc, ?_, htimers⟩
    · have hlength := congrArg List.length hqueue
      rw [List.length_append, List.length_map, List.length_take] at hlength
      omega
    · rw [List.map_drop, ← hqueue, List.drop_left]
  have hplaced := h.history.timersPlaced
  refine ⟨hplaced.numbered, hplaced.next, ?_, hleft h, ?_⟩
  · obtain ⟨c, -, hqueue, -⟩ := hplaced.places
    rw [List.map_take]
    refine List.prefix_iff_eq_take.mp ((h.begun_eq .macrotasks).1.trans ?_)
    refine (List.prefix_append _ m.callbacks).trans (hqueue ▸ ?_)
    exact (List.take_prefix c _).map _
  · rintro rfl
    obtain ⟨m₀, -, hempty⟩ := h.emptied_of_over
    obtain ⟨c, hf, hc, hcallbacks, htimers⟩ := hleft hempty fun _ => Stage.noConfusion
    obtain ⟨hcnil, htnil⟩ := hempty.emptied_queues
    have hall := List.drop_eq_nil_iff.mp (htimers.symm.trans htnil)
    have hran := List.drop_eq_nil_iff.mp (List.map_eq_nil_iff.mp (hcallbacks.symm.trans hcnil))
    rw [List.length_take] at hran
    omega

/-- **Timers fire exactly once, in the order in which they are set.**  At every stage of a run the
macrotasks that have begun are the first timers, each once and with its own function and arguments,
the callbacks in the queue are the next ones and those that wait the last; the task that runs is the
latest of those that have begun.  At the end of a run without a fault all have fired.  A call of
`setTimeout` or `setInterval` with a function sets one timer, with that function and the arguments
behind the delay, and gives its number; a call of `clearTimeout` or `clearInterval` changes
nothing. -/
theorem timers_fire_once_in_order (limits : Limits) (program : Syntax.Program) :
    (∀ {es : List Event} {s : Stage} {m : Machine}, Course limits program es s m →
      TimersInOrder es s m) ∧
    (∀ {es : List Event} {t : Task} {m : Machine},
      (Course limits program es (.begins (.task .macrotasks t)) m ∨
        Course limits program es (.inside (.task .macrotasks t)) m) →
      (begun .macrotasks es).getLast? = some t) ∧
    Covers limits program ∧
    ∀ (ev : Evaluator) (f : HostFunction) (args : List Value) (line : Nat) (m : Machine),
      ((f = .setTimeout ∨ f = .setInterval) →
        (m.heap.isCallable (argument args 0) = true → ∃ t m',
          t.callback = argument args 0 ∧ t.args = args.drop 2 ∧
          ev.callHost f args line m = .ok (.count t.id) m' ∧ History .script m [.set t] m') ∧
        (m.heap.isCallable (argument args 0) = false →
          ∃ g, ev.callHost f args line m = .error g m)) ∧
      ((f = .clearTimeout ∨ f = .clearInterval) →
        ∃ m', ev.callHost f args line m = .ok .undefined m' ∧ m.Still m') := by
  refine ⟨fun h => h.timersInOrder, fun h => h.elim Course.running_begins Course.running_inside,
    course_covers limits program,
    fun ev f args line m => ⟨fun hf => ⟨fun hc => ?_, fun hc => ?_⟩, ?_⟩⟩
  · obtain ⟨name, hcall⟩ : ∃ name, ev.callHost f args line = Exec.setTimer name args line := by
      rcases hf with rfl | rfl <;> exact ⟨_, rfl⟩
    obtain ⟨t, description, hid, ho, hcallback, hargs, hset⟩ :=
      Exec.setTimer_eq name line hc
    refine ⟨t, _, hcallback, hargs, by rw [hcall, hset, hid], ?_⟩
    exact .still (.ofEvent (.set hid ho)) (.recorded (.refl _) _ _ _ _)
  · rcases hf with rfl | rfl <;> exact ⟨_, Exec.setTimer_refused _ _ hc⟩
  · intro hf
    obtain ⟨name, hcall⟩ : ∃ name, ev.callHost f args line = Exec.clearTimer name args line := by
      rcases hf with rfl | rfl <;> exact ⟨_, rfl⟩
    obtain ⟨description, hclear⟩ :=
      Exec.clearTimer_eq name line args m
    exact ⟨_, by rw [hcall, hclear], .recorded (.refl _) _ _ _ _⟩

/-- A timer with a long delay, and behind it one with a short delay. -/
def timerUse : Syntax.Program :=
  (Syntax.readProgram "setTimeout(String, 9); setTimeout(Number, 1)").toOption.getD []

/-- The first of two timers fires first. -/
theorem timerUse_fires : ∃ es t₁ t₂ m,
    Course .default timerUse es (.begins (.task .macrotasks t₁.task)) m ∧
      timersSet es = [t₁, t₂] ∧ (t₁.id, t₂.id) = (1, 2) ∧
      begun .macrotasks es = [t₁.task] ∧ m.callbacks = [t₂.task] := by
  generalize hf : (Activity.script.exec timerUse (.bounded 20)).faultOf
    (Machine.hoisted .default timerUse).beginScript = f
  generalize hm : (Activity.script.exec timerUse (.bounded 20)).after
    (Machine.hoisted .default timerUse).beginScript = m
  obtain ⟨hnone, hmicrotasks, hcallbacks, htimers, hnext, hw⟩ : f.isNone = true ∧
      m.microtasks.isEmpty = true ∧ m.callbacks.isEmpty = true ∧ m.timers.isEmpty = false ∧
      m.nextTimer = 3 ∧ m.work < m.limits.maxSteps := by
    rw [← hf, ← hm]
    decide +kernel
  obtain rfl := Option.isNone_iff_eq_none.mp hnone
  obtain ⟨es, t, rest, hc, hbegun⟩ := Course.first_macrotask hf hm (List.isEmpty_iff.mp hmicrotasks)
    (List.isEmpty_iff.mp hcallbacks) (List.isEmpty_eq_false_iff.mp htimers) hw
  have horder := (timers_fire_once_in_order .default timerUse).1 hc
  obtain ⟨t₁, t₂, hset⟩ :=
    List.length_eq_two.mp (Nat.succ_injective (horder.next.symm.trans hnext))
  -- All timers were moved, so none is behind the callbacks.
  obtain ⟨c, -, hle, hleft, hdrop⟩ := horder.left nofun
  have hran := horder.ran
  have hnumbered := horder.numbered
  rw [hset] at hnumbered hdrop hleft hran hle
  rw [hbegun] at hran hleft
  obtain rfl : c = 2 := le_antisymm hle (List.drop_eq_nil_iff.mp hdrop.symm)
  obtain rfl := (List.cons.inj hran).1
  exact ⟨es, t₁, t₂, _, hc, hset,
    Prod.ext (hnumbered 0 Nat.two_pos).1 (hnumbered 1 Nat.one_lt_two).1, hbegun, hleft⟩

end ScriptTrace
