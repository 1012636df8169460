import ScriptTrace.Proofs.EventLoop.Reactions

/-!
# Proofs/EventLoop/Microtasks — microtasks run in their order and before every macrotask

The queue of microtasks is the part of all tasks ever put there that has not been taken yet, so
tasks run in the order in which they were put in the queue.  A macrotask begins only where the queue
is empty.
-/

namespace ScriptTrace

/-- The stages that a run reaches only when no microtask is left. -/
def Stage.isDrained : Stage → Bool
  | .macrotasks | .emptied | .begins (.task .macrotasks _) => true
  | _ => false

/-- **Microtasks at a stage of a run.** -/
structure MicrotasksInOrder (es : List Event) (s : Stage) (m : Machine) : Prop where
  /-- Those that have begun are the first that were put in the queue. -/
  ran : begun .microtasks es <+: (pushed es).map Prod.snd
  /-- The others are in the queue. -/
  left : (∀ f, s ≠ .over (some f)) →
    m.microtasks = ((pushed es).drop (begun .microtasks es).length).map Prod.snd
  /-- All have begun at the end of a run without a fault… -/
  all : s = .over none → begun .microtasks es = (pushed es).map Prod.snd
  /-- …and before every macrotask. -/
  before : ∀ {es₁ t es₂}, es = es₁ ++ .began .macrotasks t :: es₂ →
    begun .microtasks es₁ = (pushed es₁).map Prod.snd
  /-- The reactions to one promise that have begun are the first that were registered on it. -/
  reactions : ∀ id, reactionsTo id ((pushed es).take (begun .microtasks es).length) <+:
    registeredOn id es

namespace Course

variable {limits : Limits} {program : Syntax.Program} {es : List Event} {s : Stage} {m : Machine}

/-- No microtask waits where they have been drained. -/
theorem microtasks_eq_nil (h : Course limits program es s m) (hs : s.isDrained = true) :
    m.microtasks = [] := by
  induction h with
  | drained _ h | noMicrotask _ h => exact h
  | refill _ _ _ ih | macrotask _ _ _ ih | emptied _ _ _ ih => exact ih rfl
  | @ends _ _ a => rcases a with _ | ⟨_ | _, _⟩ <;> cases hs
  | _ => cases hs

/-- Where no microtask is left all have begun. -/
theorem begun_of_drained (h : Course limits program es s m) (hs : s.isDrained = true) :
    begun .microtasks es = (pushed es).map Prod.snd := by
  have hqueue := h.history.microtasks_eq
  rw [h.microtasks_eq_nil hs, List.append_nil] at hqueue
  refine Eq.trans ?_ hqueue
  refine (h.begun_eq .microtasks).2 fun f => ?_
  rintro rfl
  cases hs

/-- **Microtasks begin in the order in which they were put in the queue.** -/
theorem microtasksInOrder (h : Course limits program es s m) : MicrotasksInOrder es s m where
  ran := by
    have hqueue : _ = (pushed es).map Prod.snd := h.history.microtasks_eq
    exact (h.begun_eq .microtasks).1.trans (hqueue ▸ List.prefix_append _ _)
  left hs := by
    have hqueue : _ = (pushed es).map Prod.snd := h.history.microtasks_eq
    rw [List.map_drop, ← hqueue, (h.begun_eq .microtasks).2 hs, List.drop_left]
  all := by
    rintro rfl
    obtain ⟨m₀, -, hempty⟩ := h.emptied_of_over
    exact hempty.begun_of_drained rfl
  before hes := by
    obtain ⟨m', hbegins⟩ := h.stage_of_began hes
    simpa [begun, pushed, Event.pushes] using hbegins.begun_of_drained rfl
  reactions id := by
    have hwaiting : _ = registeredOn id es := h.history.waiting_eq Heap.tidy_initial id
    rw [← hwaiting]
    exact ((List.take_prefix _ _).filterMap _).trans (List.prefix_append _ _)

end Course

/-- **What puts a task in the queue of microtasks**: a call of `queueMicrotask`, a reaction that is
registered on a settled promise, a promise that is settled while reactions wait for it, and a
promise that follows a settled one. -/
structure QueuesTasks (ev : Evaluator) (m : Machine) : Prop where
  callback : ∀ {args : List Value} {line : Nat}, m.heap.isCallable (argument args 0) = true →
    ∃ task m', task.job = .callback (argument args 0) [] ∧
      ev.callHost .queueMicrotask args line m = .ok .undefined m' ∧
      History .script m [.queued task] m'
  registers : ∀ {id : ObjectId} {record : PromiseRecord}, m.heap.promise? id = some record →
    ∀ r, ∃ b tasks m', Exec.addReaction id r m = .ok b m' ∧
      History .script m [.registered id r tasks] m' ∧
      AreReactions tasks (if record.state.isPending then [] else [r]) record.state
  settles : ∀ {id : ObjectId} {rs : List Reaction} {outcome : PromiseState},
    m.heap.promise? id = some ⟨.pending, rs⟩ → outcome.isPending = false → ∀ line,
    ∃ tasks m', Exec.settle id outcome line m = .ok () m' ∧
      History .script m [.settled id outcome tasks] m' ∧ AreReactions tasks rs outcome ∧
      m'.heap.Settled id outcome
  follows : ∀ {id other : ObjectId} {record : PromiseRecord}, other ≠ id →
    m.heap.promise? other = some record → ∀ line,
    ∃ tasks m', Exec.resolvePromise id (.object other) line m = .ok () m' ∧
      History .script m [.registered other ⟨.adopt, none, none, id, line⟩ tasks] m' ∧
      AreReactions tasks
        (if record.state.isPending then [] else [⟨.adopt, none, none, id, line⟩]) record.state

/-- **Tasks are put in the queue** by a callback, a reaction, a settled promise and one that is
followed. -/
theorem queuesTasks (ev : Evaluator) (m : Machine) : QueuesTasks ev m where
  callback h := Exec.queueMicrotask_history h
  registers hr _ := Exec.addReaction_history hr
  settles hr ho line := Exec.settle_history hr ho line
  follows hne hr line := Exec.resolvePromise_history hne hr line

/-- **Microtasks run first in, first out, each once and before the next macrotask.**  At every stage
of a run the microtasks that have begun are the first that were put in the queue; all have begun
whenever a macrotask begins and at the end of a run without a fault.  The reactions to one promise
begin in the order in which they were registered. -/
theorem microtasks_first_in_first_out (limits : Limits) (program : Syntax.Program) :
    (∀ {es : List Event} {s : Stage} {m : Machine}, Course limits program es s m →
      MicrotasksInOrder es s m) ∧
    Covers limits program ∧ ∀ ev m, QueuesTasks ev m :=
  ⟨fun h => h.microtasksInOrder, course_covers limits program, queuesTasks⟩

/-- A program that leaves a microtask and a reaction to a promise. -/
def microtaskUse : Syntax.Program :=
  (Syntax.readProgram "queueMicrotask(String); Promise.resolve().then(Number)").toOption.getD []

/-- Two microtasks are in the queue, of which the first has begun. -/
theorem microtaskUse_begins : ∃ es t₁ t₂ m,
    Course .default microtaskUse es (.begins (.task .microtasks t₁)) m ∧
      (t₁.label, t₂.label) = ("queueMicrotask(String)", "then(Number)") ∧
      (pushed es).map Prod.snd = [t₁, t₂] ∧ begun .microtasks es = [t₁] ∧ m.microtasks = [t₂] := by
  generalize hf : (Activity.script.exec microtaskUse (.bounded 20)).faultOf
    (Machine.hoisted .default microtaskUse).beginScript = f
  generalize hm : (Activity.script.exec microtaskUse (.bounded 20)).after
    (Machine.hoisted .default microtaskUse).beginScript = m
  obtain ⟨hnone, hlabels, hw⟩ : f.isNone = true ∧ m.microtasks.map Task.label =
      ["queueMicrotask(String)", "then(Number)"] ∧ m.work < m.limits.maxSteps := by
    rw [← hf, ← hm]
    decide +kernel
  obtain rfl := Option.isNone_iff_eq_none.mp hnone
  have hqueue : m.microtasks.length = 2 := by simpa using congrArg List.length hlabels
  obtain ⟨t₁, t₂, hq⟩ := List.length_eq_two.mp hqueue
  rw [hq] at hlabels
  obtain ⟨es, hc, hbegun⟩ := Course.first_microtask hf hm hq hw
  have horder := (microtasks_first_in_first_out .default microtaskUse).1 hc
  have hleft := horder.left nofun
  rw [hbegun] at hleft
  refine ⟨es, t₁, t₂, _, hc, by simpa using hlabels, ?_, hbegun, rfl⟩
  have hran := horder.ran
  rw [hbegun, List.prefix_iff_eq_take] at hran
  rw [← List.take_append_drop [t₁].length ((pushed es).map Prod.snd), ← hran, ← List.map_drop,
    ← hleft]
  rfl

end ScriptTrace
