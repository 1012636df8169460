import ScriptTrace.Proofs.Closed

/-!
# Proofs/EventLoop/History — what happens to timers, queues and promises

A history lists, between two machines, all that happened to the timers, the two queues and the
promises, in the order in which it happened.  Everything that an evaluation does is a history
(`Action.history`), so a fact that each event of a history keeps holds all through a run.

An event is no trace of what a program asked for but a change of the machine: whatever else changes
from one machine to the next is `Still`.
-/

namespace ScriptTrace

/-! ## Promises in a heap -/

namespace Heap

variable {h h' : Heap} {id id' : ObjectId} {record new : PromiseRecord}

theorem promise?_congr (hb : h'.body? id = h.body? id) : h'.promise? id = h.promise? id := by
  rw [promise?, hb, promise?]

theorem promise?_label (h : Heap) (v : Value) (name : String) (id : ObjectId) :
    (h.label v name).promise? id = h.promise? id := promise?_congr (body?_label h v name id)

/-- No change but one of its record touches a promise. -/
theorem promise?_changed {c : Change} (hc : c.isRecord = false) :
    (h.modify id (·.changed c)).promise? id' = h.promise? id' := by
  have hbody (o : HeapObject) : (o.changed c).body.record? = o.body.record? := by
    obtain ⟨body, label, className, frozen⟩ := o
    cases c <;> cases body <;> first | rfl | cases hc
  rw [promise?, body?_modify]
  split
  · rw [promise?, body?]
    cases h.get? id' with
    | none => rfl
    | some o => exact hbody o
  · rfl

/-- The record of a promise is all that changes. -/
theorem promise?_setPromise (h : Heap) (hr : h.promise? id = some record) :
    (h.setPromise id new).promise? id' = if id' = id then some new else h.promise? id' := by
  split
  · rename_i hid
    subst hid
    obtain ⟨o, ho, hbody⟩ := Option.map_eq_some_iff.mp (promise?_eq_some.mp hr)
    rw [promise?_eq_some, body?_modify, if_pos rfl, ho, Option.map_some]
    unfold HeapObject.changed
    rw [hbody]
  · rename_i hid
    exact promise?_congr (by rw [body?_modify, if_neg fun heq => hid heq.symm])

/-- A new object that is a promise is pending and nothing waits for it. -/
theorem promise?_add {body : Body} {className : Option String} (hf : body.isFresh = true) :
    (h.add body className).promise? id = h.promise? id ∨
      h.promise? id = none ∧ (h.add body className).promise? id = some ⟨.pending, []⟩ := by
  by_cases hid : id = h.size
  · subst hid
    have hnone : h.body? h.size = none := by simp [body?, get?, size]
    rw [promise?, body?_add, if_pos rfl, promise?, hnone]
    cases body with
    | promise record =>
      obtain ⟨state, reactions⟩ := record
      obtain ⟨hs, hr⟩ := Bool.and_eq_true_iff.mp hf
      obtain rfl := PromiseState.isPending_iff.mp hs
      obtain rfl := List.isEmpty_iff.mp hr
      exact .inr ⟨rfl, rfl⟩
    | _ => exact .inl rfl
  · exact .inl (promise?_congr (by rw [body?_add, if_neg hid]))

end Heap

/-! ## Machines in which nothing happened -/

/-- **Nothing happened** to timers, queues and promises; a promise may be made. -/
structure Machine.Still (m m' : Machine) : Prop where
  timers : m'.timers = m.timers
  nextTimer : m'.nextTimer = m.nextTimer
  callbacks : m'.callbacks = m.callbacks
  microtasks : m'.microtasks = m.microtasks
  promises : ∀ id, m'.heap.promise? id = m.heap.promise? id ∨
    m.heap.promise? id = none ∧ m'.heap.promise? id = some ⟨.pending, []⟩

namespace Machine.Still

variable {m m₁ m' : Machine}

theorem refl (m : Machine) : m.Still m := ⟨rfl, rfl, rfl, rfl, fun _ => .inl rfl⟩

theorem recorded (h : m.Still m') (scope : ScopeId) (line : Nat) (kind : StepKind)
    (description : String) : m.Still (m'.recorded scope line kind description) := { h with }

theorem ofHeap {h : Heap} (hh : ∀ id, h.promise? id = m.heap.promise? id ∨
    m.heap.promise? id = none ∧ h.promise? id = some ⟨.pending, []⟩) :
    m.Still { m with heap := h } := ⟨rfl, rfl, rfl, rfl, hh⟩

end Machine.Still

/-! ## Events -/

/-- The two queues of the event loop. -/
inductive Queue where
  | microtasks | macrotasks
  deriving DecidableEq

/-- **What can happen to timers, queues and promises.** -/
inductive Event where
  /-- A timer is set. -/
  | set (t : Timer)
  /-- All timers are due. -/
  | due
  /-- A function is queued as a microtask. -/
  | queued (task : Task)
  /-- A reaction is registered on a promise and becomes these tasks: none as long as it waits. -/
  | registered (id : ObjectId) (r : Reaction) (tasks : List Task)
  /-- A promise is settled, and what waited for it becomes these tasks. -/
  | settled (id : ObjectId) (outcome : PromiseState) (tasks : List Task)
  /-- The next task is taken from its queue. -/
  | taken (q : Queue) (task : Task)
  /-- The work of a task begins. -/
  | began (q : Queue) (task : Task)

/-- **What an event does to the machine.**  Only the event loop takes tasks and begins them. -/
inductive Occurs (l : Layer) (m : Machine) : Event → Machine → Prop
  | set {t : Timer} (hid : t.id = m.nextTimer) (ho : t.registrationOrder = m.nextTimer) :
    Occurs l m (.set t) { m with nextTimer := m.nextTimer + 1, timers := m.timers ++ [t] }
  | due (h : l = .loop) :
    Occurs l m .due
      { m with timers := [], callbacks := m.callbacks ++ (Timer.inOrder m.timers).map Timer.task }
  | queued {task : Task} {f : Value} {args : List Value} (h : task.job = .callback f args) :
    Occurs l m (.queued task) { m with microtasks := m.microtasks ++ [task] }
  | waits {id : ObjectId} {r : Reaction} {rs : List Reaction}
    (h : m.heap.promise? id = some ⟨.pending, rs⟩) :
    Occurs l m (.registered id r [])
      { m with heap := m.heap.setPromise id ⟨.pending, rs ++ [r]⟩ }
  | joins {id : ObjectId} {r : Reaction} {outcome : PromiseState} {rs : List Reaction} {task : Task}
    (h : m.heap.promise? id = some ⟨outcome, rs⟩) (ho : outcome.isPending = false)
    (ht : AreReactions [task] [r] outcome) :
    Occurs l m (.registered id r [task]) { m with microtasks := m.microtasks ++ [task] }
  | settled {id : ObjectId} {outcome : PromiseState} {rs : List Reaction} {tasks : List Task}
    (h : m.heap.promise? id = some ⟨.pending, rs⟩) (ho : outcome.isPending = false)
    (ht : AreReactions tasks rs outcome) :
    Occurs l m (.settled id outcome tasks)
      { m with
        heap := m.heap.setPromise id ⟨outcome, []⟩
        microtasks := m.microtasks ++ tasks }
  | takesMicrotask {task : Task} {rest : List Task} (h : l = .loop)
    (hm : m.microtasks = task :: rest) :
    Occurs l m (.taken .microtasks task) { m with microtasks := rest }
  | takesCallback {task : Task} {rest : List Task} (h : l = .loop)
    (hm : m.callbacks = task :: rest) :
    Occurs l m (.taken .macrotasks task) { m with callbacks := rest }
  | began {q : Queue} {task : Task} (h : l = .loop) : Occurs l m (.began q task) m

/-- **Histories**: machines in which nothing happened, with events between them. -/
inductive History (l : Layer) (m : Machine) : List Event → Machine → Prop
  | refl : History l m [] m
  | still {es : List Event} {m₁ m' : Machine} (h : History l m es m₁) (hs : m₁.Still m') :
    History l m es m'
  | event {es : List Event} {e : Event} {m₁ m' : Machine} (h : History l m es m₁)
    (he : Occurs l m₁ e m') : History l m (es ++ [e]) m'

namespace History

variable {l : Layer} {m m₁ m₂ m' : Machine} {es es' : List Event} {e : Event}

theorem ofStill (h : m.Still m') : History l m [] m' := .still .refl h

theorem ofEvent (h : Occurs l m e m') : History l m [e] m' := .event .refl h

/-- Two histories one behind the other are one. -/
theorem trans (h₁ : History l m es m₁) (h₂ : History l m₁ es' m₂) :
    History l m (es ++ es') m₂ := by
  induction h₂ with
  | refl => rwa [List.append_nil]
  | still _ hs ih => exact .still ih hs
  | event _ he ih =>
    rw [← List.append_assoc]
    exact .event ih he

/-- What happens inside a program happens in the run of it. -/
theorem toLoop (h : History .script m es m') : History .loop m es m' := by
  induction h with
  | refl => exact .refl
  | still _ hs ih => exact .still ih hs
  | event _ he ih =>
    refine .event ih ?_
    cases he with
    | set hid ho => exact .set hid ho
    | queued h => exact .queued h
    | waits h => exact .waits h
    | joins h ho ht => exact .joins h ho ht
    | settled h ho ht => exact .settled h ho ht
    | due h | takesMicrotask h | takesCallback h | began h => cases h

end History

/-! ## Every evaluation is a history -/

/-- What happened between a machine and a later one is a history. -/
def Recounts (l : Layer) (m : Machine) (_ : Option Fault) (m' : Machine) : Prop :=
  ∃ es, History l m es m'

namespace Recounts

variable {l : Layer} {m m' : Machine} {f : Option Fault} {W : World} {α : Type} {x : Exec α}

theorem ofStill (h : m.Still m') : Recounts l m f m' := ⟨[], .ofStill h⟩

theorem ofEvent {e : Event} (h : Occurs l m e m') : Recounts l m f m' := ⟨[e], .ofEvent h⟩

/-- What an action does is a history if its result in this machine is one. -/
theorem of_ok {a : α} (hx : x m = .ok a m') (h : Recounts l m none m') :
    Recounts l m (x.faultOf m) (x.after m) := by
  rw [Exec.after_of_ok hx]
  exact h

/-- What writes to the heap is recounted. -/
theorem writing {y : Exec Unit} (h : Writing W m.heap y) :
    Recounts l m (y.faultOf m) (y.after m) := by
  induction h with
  | skip | misuse => exact .ofStill (.refl m)
  | change _ _ hc => exact .ofStill (.ofHeap fun _ => .inl (Heap.promise?_changed hc))
  | raise => exact .ofStill (.ofHeap fun _ => Heap.promise?_add rfl)
  | withHeap _ ih => exact ih
  | withCeiling _ ih => exact ih m.limits.maxLength

/-- **Every elementary action is recounted.** -/
theorem elementary {P : α → Prop} (h : Elementary l Set.univ x P) (m : Machine) :
    Recounts l m (x.faultOf m) (x.after m) := by
  cases h with
  | tick =>
    rcases Nat.lt_or_ge m.work m.limits.maxSteps with hw | hw
    · exact .of_ok (Exec.tick_of_lt hw) (.ofStill ⟨rfl, rfl, rfl, rfl, fun _ => .inl rfl⟩)
    · rw [Exec.after_of_error (Exec.tick_of_le hw)]
      exact .ofStill ⟨rfl, rfl, rfl, rfl, fun _ => .inl rfl⟩
  | write h => exact .writing (h m.heap (within_univ _))
  | flattened => exact .ofStill (Exec.after_flattened .. ▸ .refl m)
  | @addReaction id r =>
    rcases Exec.addReaction_cases id r m with
      ⟨-, hadd⟩ | ⟨rs, hrec, hadd⟩ | ⟨outcome, rs, label, hrec, ho, hadd⟩
    · exact .of_ok hadd (.ofStill (.refl m))
    · exact .of_ok hadd (.ofEvent (.waits hrec))
    · exact .of_ok hadd (.ofEvent (.joins hrec ho rfl))
  | @settle id outcome line _ _ ho =>
    rcases Exec.settleFlat_cases id line m ho with
      hsettle | ⟨rs, tasks, description, hrec, -, hjobs, hsettle⟩
    · exact .of_ok hsettle (.ofStill (.refl m))
    · exact .of_ok hsettle
        ⟨_, .still (.ofEvent (.settled hrec ho hjobs)) (.recorded (.refl _) _ _ _ _)⟩
  | putIn => exact .ofStill ⟨rfl, rfl, rfl, rfl, fun _ => .inl (Heap.promise?_label _ _ _ _)⟩
  | raise => exact .ofStill (.ofHeap fun _ => Heap.promise?_add rfl)
  | addTimer => exact .ofEvent (.set rfl rfl)
  | addMicrotask => exact .ofEvent (.queued rfl)
  | nextMicrotask? h =>
    cases hm : m.microtasks with
    | nil => exact .of_ok (Exec.nextMicrotask_of_nil hm) (.ofStill (.refl m))
    | cons => exact .of_ok (Exec.nextMicrotask_of_cons hm) (.ofEvent (.takesMicrotask h hm))
  | nextCallback? h =>
    cases hm : m.callbacks with
    | nil => exact .of_ok (Exec.nextCallback_of_nil hm) (.ofStill (.refl m))
    | cons => exact .of_ok (Exec.nextCallback_of_cons hm) (.ofEvent (.takesCallback h hm))
  | moveTimers h => exact .ofEvent (.due h)
  | _ => exact .ofStill ⟨rfl, rfl, rfl, rfl, fun _ => .inl rfl⟩

theorem makes (h : Makes l W m m') : Recounts l m none m' := by
  cases h with
  | object _ hf => exact .ofStill (.ofHeap fun _ => Heap.promise?_add hf)
  | scope | copy => exact .ofStill ⟨rfl, rfl, rfl, rfl, fun _ => .inl rfl⟩

theorem call (h : CallEffect W m f m') : Recounts l m f m' := by
  cases h
  all_goals exact .ofStill ⟨rfl, rfl, rfl, rfl, fun _ => .inl rfl⟩

end Recounts

/-- What happens step by step is recounted as a whole. -/
theorem recounts_stepwise (l : Layer) : (Invariant.ofMoves (Recounts l)).Stepwise l where
  safe := Invariant.safe_ofMoves _
  refl _ := ⟨[], .refl⟩
  trans := fun ⟨_, h₁⟩ ⟨_, h₂⟩ => ⟨_, h₁.trans h₂⟩
  caught := id
  acts h _ hW := .elementary (by exact hW ▸ h) _
  makes _ := .makes
  exhausts _ := ⟨[], .refl⟩
  call _ := .call
  shown := fun ⟨_, h⟩ _ _ => ⟨_, .still h (.recorded (.refl _) _ _ _ _)⟩

/-- **What an action does is a history**, however it ends. -/
theorem Action.history {l : Layer} [l.Executes] {α : Type} {x : Evaluator → Exec α}
    {Q : World → α → Prop} (hx : Action l Set.univ x Q) (fuel : Nat) (m : Machine) :
    ∃ es, History l m es ((x (.bounded fuel)).after m) :=
  hx.moves (recounts_stepwise l).lawful m

/-- What is nested in an action begins behind a history, and inside a program it is no work of the
event loop. -/
theorem Action.history_nested {l : Layer} [l.Executes] {α β : Type} {x : Evaluator → Exec α}
    {Q : World → α → Prop} {fuel k : Nat} {m m₁ : Machine} {w : Work β}
    (hx : Action l Set.univ x Q) (h : Nested x fuel m w k m₁) :
    (∃ es, History l m es m₁) ∧ w.Fits l Set.univ :=
  have ⟨hlead, hfit, _⟩ := Action.nested (recounts_stepwise l) hx trivial h
  ⟨hlead.moves, hfit⟩

end ScriptTrace
