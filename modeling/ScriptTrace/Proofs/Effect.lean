import ScriptTrace.Proofs.Action
import ScriptTrace.Proofs.Reading
import ScriptTrace.Proofs.Settlement

/-!
# Proofs/Effect — what one action does to the machine

`Effect` lists everything that can happen to a machine at once, calls apart; `CallEffect` lists what
a call does beyond that.  No other part of the evaluator looks into the machine, so an invariant is
an invariant of these two relations.

An elementary action is one effect or several (`Elementary.effects`): settling a promise writes its
record, queues what waits for it and shows that.
-/

namespace ScriptTrace

/-- **What an action other than a call can do**, with the fault that it ends in.  The numbers that
it writes lie in the world `W`. -/
inductive Effect (l : Layer) (W : World) (m : Machine) : Option Fault → Machine → Prop
  | still : Effect l W m none m
  | fail {f : Fault} (h : f.isLocal = true) (hd : f.isDefensive = true → l.Evaluates) :
    Effect l W m (some f) m
  | throw {t : Thrown} (h : Within W t) : Effect l W m (some t.fault) m
  | tick (h : m.work < m.limits.maxSteps) : Effect l W m none { m with work := m.work + 1 }
  | overrun (h : m.limits.maxSteps ≤ m.work) :
    Effect l W m (some (.stepLimit m.limits.maxSteps)) { m with work := m.work + 1 }
  | enter {scope : ScopeId} (h : Sees W scope) (hr : l.Roams) : Effect l W m none { m with scope }
  | allocate {body : Body} {className : Option String} (h : Within W body)
    (hc : ∀ c, body = .closure c → l.Evaluates) :
    Effect l W m none { m with heap := m.heap.add body className }
  /-- Makes an error object and throws it. -/
  | raise {props : Props} {className text : String} {line : Nat} (h : Within W props) :
    Effect l W m (some (.thrown (.object m.heap.size) text line))
      { m with heap := m.heap.add (.plain props) (some className) }
  | change {id : ObjectId} {c : Change} (h : .object id ∈ W) (hc : Within W c) :
    Effect l W m none { m with heap := m.heap.modify id (·.changed c) }
  | newScope {parent : ScopeId} {kind : ScopeKind} {receiver : Option Value} (h : Sees W parent)
    (hk : kind ≠ .global) (hr : Within W receiver) :
    Effect l W m none { m with scopes := m.scopes.push ⟨some parent, kind, [], receiver⟩ }
  | copyScope {scope : ScopeId} (h : .scope scope ∈ W) :
    Effect l W m none { m with scopes := m.scopes.push (m.scopes.getD scope default) }
  | putIn {scope : ScopeId} {name : String} {b : Binding} (h : Sees W scope) (hb : Within W b) :
    Effect l W m none
      { m with
        heap := m.heap.label b.value name
        scopes := m.scopes.modify scope (·.put name b) }
  | record {scope : ScopeId} {line : Nat} {kind : StepKind} {description : String}
    (h : Sees W scope) (hk : kind.isFree = true) (hr : l.Roams) :
    Effect l W m none (m.recorded scope line kind description)
  | recordHere {line : Nat} {kind : StepKind} {description : String} (hk : kind.isFree = true) :
    Effect l W m none (m.recorded m.scope line kind description)
  | print {e : ConsoleEntry} {line : Nat} :
    Effect l W m none
      ({ m with console := m.console.push e }.recorded m.scope line .console
        ("console." ++ e.method ++ ": " ++ e.text))
  | addTimer {label : String} {delay : Float} {callback : Value} {args : List Value} {line : Nat}
    (hc : Within W callback) (ha : Within W args) :
    Effect l W m none
      { m with
        nextTimer := m.nextTimer + 1
        timers := m.timers ++ [⟨m.nextTimer, label, delay, m.nextTimer, callback, args, line⟩] }
  | addMicrotask {task : Task} (h : Within W task) :
    Effect l W m none { m with microtasks := m.microtasks ++ [task] }
  | random : Effect l W m none { m with random := nextRandom m.random }
  | enterPhase {phase : Phase} {description : String} (h : l = .loop) :
    Effect l W m none
      ({ m with phase }.recorded Scopes.globalId 0 .eventLoop description)
  | showMacrotask {line : Nat} {description : String} (h : l = .loop) :
    Effect l W m none (m.recorded m.scope line .macrotask description)
  | takeMicrotask {task : Task} {rest : List Task} (h : l = .loop)
    (hm : m.microtasks = task :: rest) : Effect l W m none { m with microtasks := rest }
  | takeCallback {task : Task} {rest : List Task} (h : l = .loop)
    (hm : m.callbacks = task :: rest) : Effect l W m none { m with callbacks := rest }
  | moveTimers (h : l = .loop) :
    Effect l W m none
      { m with timers := [], callbacks := m.callbacks ++ (Timer.inOrder m.timers).map Timer.task }

/-- **What a call does beside its parts.** -/
inductive CallEffect (W : World) (m : Machine) : Option Fault → Machine → Prop
  | push {name : String} {line : Nat} (h : m.frames.length < m.limits.maxCallDepth) :
    CallEffect W m none { m with frames := ⟨name, line⟩ :: m.frames }
  | tooDeep (h : m.limits.maxCallDepth ≤ m.frames.length) : CallEffect W m (some .callDepth) m
  | showCall {scope : ScopeId} {line : Nat} {description : String} (h : Sees W scope) :
    CallEffect W m none (m.recorded scope line .functionCall description)
  | pop : CallEffect W m none { m with frames := m.frames.tail }
  | showReturn {scope : ScopeId} {line : Nat} {description : String} (h : Sees W scope) :
    CallEffect W m none (m.recorded scope line .functionReturn description)

/-! ## Elementary actions -/

namespace Exec

variable {m : Machine} {task : Task} {rest : List Task}

/-- From an empty queue no microtask is taken. -/
theorem nextMicrotask_of_nil (h : m.microtasks = []) : nextMicrotask? m = .ok none m := by
  cases m
  cases h
  rfl

/-- The first microtask is taken from the queue. -/
theorem nextMicrotask_of_cons (h : m.microtasks = task :: rest) :
    nextMicrotask? m = .ok (some task) { m with microtasks := rest } := by
  cases m
  cases h
  rfl

/-- From an empty queue no callback is taken. -/
theorem nextCallback_of_nil (h : m.callbacks = []) : nextCallback? m = .ok none m := by
  cases m
  cases h
  rfl

/-- The first callback is taken from the queue. -/
theorem nextCallback_of_cons (h : m.callbacks = task :: rest) :
    nextCallback? m = .ok (some task) { m with callbacks := rest } := by
  cases m
  cases h
  rfl

end Exec

/-! ## Effects one after another -/

/-- What is possible in a world is possible in a larger one. -/
theorem Effect.mono {l : Layer} {W W' : World} {m m' : Machine} {f : Option Fault}
    (h : Effect l W m f m') (hW : W ⊆ W') : Effect l W' m f m' := by
  cases h with
  | still => exact .still
  | fail h hd => exact .fail h hd
  | throw h => exact .throw (h.mono hW)
  | tick h => exact .tick h
  | overrun h => exact .overrun h
  | enter h hr => exact .enter (h.mono hW) hr
  | allocate h hc => exact .allocate (h.mono hW) hc
  | raise h => exact .raise (h.mono hW)
  | change h hc => exact .change (hW h) (hc.mono hW)
  | newScope h hk hr => exact .newScope (h.mono hW) hk (hr.mono hW)
  | copyScope h => exact .copyScope (hW h)
  | putIn h hb => exact .putIn (h.mono hW) (hb.mono hW)
  | record h hk hr => exact .record (h.mono hW) hk hr
  | recordHere hk => exact .recordHere hk
  | print => exact .print
  | addTimer hc ha => exact .addTimer (hc.mono hW) (ha.mono hW)
  | addMicrotask h => exact .addMicrotask (h.mono hW)
  | random => exact .random
  | enterPhase h => exact .enterPhase h
  | showMacrotask h => exact .showMacrotask h
  | takeMicrotask h hm => exact .takeMicrotask h hm
  | takeCallback h hm => exact .takeCallback h hm
  | moveTimers h => exact .moveTimers h

/-- **Effects one after another**; only the last one may end in a fault. -/
inductive Effects (l : Layer) (W : World) : Machine → Option Fault → Machine → Prop
  | one {m m' : Machine} {f : Option Fault} (h : Effect l W m f m') : Effects l W m f m'
  | more {m m₁ m' : Machine} {f : Option Fault} (h : Effect l W m none m₁)
    (hs : Effects l W m₁ f m') : Effects l W m f m'

namespace Effects

variable {l : Layer} {W : World} {α : Type} {x : Exec α} {m m' : Machine}

theorem of_ok {a : α} (hx : x m = .ok a m') (h : Effects l W m none m') :
    Effects l W m (x.faultOf m) (x.after m) := by
  rw [Exec.faultOf_of_ok hx, Exec.after_of_ok hx]
  exact h

theorem of_error {f : Fault} (hx : x m = .error f m') (h : Effects l W m (some f) m') :
    Effects l W m (x.faultOf m) (x.after m) := by
  rw [Exec.faultOf_of_error hx, Exec.after_of_error hx]
  exact h

/-- Tasks are queued one by one. -/
theorem addMicrotasks {f : Option Fault} {tasks : List Task} (ht : Within W tasks)
    (h : Effects l W { m with microtasks := m.microtasks ++ tasks } f m') :
    Effects l W m f m' := by
  induction tasks generalizing m with
  | nil => simpa only [List.append_nil] using h
  | cons task tasks ih =>
    obtain ⟨htask, htasks⟩ := within_cons.mp ht
    refine .more (.addMicrotask htask) (ih htasks ?_)
    simpa only [List.append_assoc, List.singleton_append] using h

end Effects

/-- The tasks of reactions hold what the reactions and the outcome held. -/
theorem Within.reactions {W : World} {tasks : List Task} {rs : List Reaction}
    {outcome : PromiseState} (h : AreReactions tasks rs outcome) (hr : Within W rs)
    (ho : Within W outcome) : Within W tasks := by
  refine within_list.mpr fun task htask => ?_
  have hjob : task.job ∈ rs.map (.reaction · outcome) := h ▸ List.mem_map_of_mem htask
  obtain ⟨r, hmem, hjob⟩ := List.mem_map.mp hjob
  exact within_task.mpr (hjob ▸ within_reactionJob.mpr ⟨hr.of_mem hmem, ho⟩)

/-- The record of a known promise holds only what is known. -/
theorem Within.promise? {W : World} {h : Heap} {id : ObjectId} {record : PromiseRecord}
    (hh : Within W h) (hr : h.promise? id = some record) :
    Within W record.state ∧ Within W record.reactions :=
  within_record.mp (hh.of_body? (Heap.promise?_eq_some.mp hr))

namespace Exec

/-- What is written is one effect or none. -/
theorem effect_of_writing {l : Layer} {W : World} {m : Machine} {x : Exec Unit}
    (h : Writing W m.heap x) : Effect l W m (x.faultOf m) (x.after m) := by
  induction h with
  | skip => exact .still
  | change hid hc => exact .change hid hc
  | misuse hd => exact .fail rfl fun h => absurd h (Bool.eq_false_iff.mp hd)
  | raise => exact .raise (Within.propsOfList (by simp))
  | withHeap _ ih => exact ih
  | withCeiling _ ih => exact ih m.limits.maxLength

theorem flattened_of_some {items all : Array Value} {depth : Float} {m : Machine}
    (h : flatten m.heap m.limits.maxLength depth items = some all) :
    flattened items depth m = .ok all m := by
  refine (bind_of_ok rfl).trans ((bind_of_ok rfl).trans ?_)
  simp only [h]
  rfl

theorem flattened_of_none {items : Array Value} {depth : Float} {m : Machine}
    (h : flatten m.heap m.limits.maxLength depth items = none) :
    flattened items depth m = .error .exhausted m := by
  refine (bind_of_ok rfl).trans ((bind_of_ok rfl).trans ?_)
  simp only [h]
  rfl

/-- Flattening changes nothing. -/
theorem after_flattened (items : Array Value) (depth : Float) (m : Machine) :
    (flattened items depth).after m = m := by
  cases h : flatten m.heap m.limits.maxLength depth items with
  | some all => exact after_of_ok (flattened_of_some h)
  | none => exact after_of_error (flattened_of_none h)

end Exec

/-- **Every elementary action is made of effects.** -/
theorem Elementary.effects {l : Layer} {W : World} {α : Type} {x : Exec α} {P : α → Prop}
    (h : Elementary l W x P) {m : Machine} (hm : Within W m.heap) :
    Effects l W m (x.faultOf m) (x.after m) := by
  cases h with
  | heap | scopes | ceiling => exact .one .still
  | tick =>
    rcases Nat.lt_or_ge m.work m.limits.maxSteps with h | h
    · exact .of_ok (Exec.tick_of_lt h) (.one (.tick h))
    · exact .of_error (Exec.tick_of_le h) (.one (.overrun h))
  | enter h hr => exact .one (.enter h hr)
  | write h => exact .one (Exec.effect_of_writing (h _ hm))
  | @addReaction id r hid hr =>
    rcases Exec.addReaction_cases id r m with
      ⟨-, hadd⟩ | ⟨rs, hrec, hadd⟩ | ⟨outcome, rs, label, hrec, -, hadd⟩
    · exact .of_ok hadd (.one .still)
    · obtain ⟨hstate, hrs⟩ := hm.promise? hrec
      refine .of_ok hadd (.one (.change hid ?_))
      exact within_record.mpr ⟨hstate, within_append.mpr ⟨hrs, within_cons.mpr ⟨hr, within_nil⟩⟩⟩
    · have hjob := within_reactionJob.mpr ⟨hr, (hm.promise? hrec).1⟩
      exact .of_ok hadd (.one (.addMicrotask hjob))
  | @settle id outcome line hid ho hp =>
    rcases Exec.settleFlat_cases id line m hp with
      hsettle | ⟨rs, tasks, description, hrec, -, hjobs, hsettle⟩
    · exact .of_ok hsettle (.one .still)
    · have hrecord : Within W (Change.record ⟨outcome, []⟩) := within_record.mpr ⟨ho, within_nil⟩
      refine .of_ok hsettle (.more (.change hid hrecord) ?_)
      exact .addMicrotasks (.reactions hjobs (hm.promise? hrec).2 ho) (.one (.recordHere rfl))
  | putIn h hb _ => exact .one (.putIn h hb)
  | record h hk _ hr => exact .one (.record h (StepKind.isFree_of_isOrdinary hk) hr)
  | recordHere hk =>
    exact .one (.recordHere (StepKind.isFree_of_isOrdinary (StepKind.isOrdinary_of_isAside hk)))
  | print => exact .one .print
  | addTimer hc ha => exact .one (.addTimer hc ha)
  | addMicrotask hf ha => exact .one (.addMicrotask (within_callback.mpr ⟨hf, ha⟩))
  | showQueued => exact .one (.recordHere rfl)
  | random => exact .one .random
  | throw h => exact .one (.throw h)
  | raise => exact .one (.raise (Within.propsOfList (by simp)))
  | fail h _ hd => exact .one (.fail h hd)
  | @flattened items depth _ =>
    cases hflat : flatten m.heap m.limits.maxLength depth items with
    | some all => exact .of_ok (Exec.flattened_of_some hflat) (.one .still)
    | none => exact .of_error (Exec.flattened_of_none hflat) (.one (.fail rfl nofun))
  | enterPhase h => exact .one (.enterPhase h)
  | showMicrotask h => exact .one (.recordHere rfl)
  | showMacrotask h => exact .one (.showMacrotask h)
  | nextMicrotask? h =>
    cases hm : m.microtasks with
    | nil => exact .of_ok (Exec.nextMicrotask_of_nil hm) (.one .still)
    | cons task rest => exact .of_ok (Exec.nextMicrotask_of_cons hm) (.one (.takeMicrotask h hm))
  | hasMicrotask h => exact .one .still
  | nextCallback? h =>
    cases hm : m.callbacks with
    | nil => exact .of_ok (Exec.nextCallback_of_nil hm) (.one .still)
    | cons task rest => exact .of_ok (Exec.nextCallback_of_cons hm) (.one (.takeCallback h hm))
  | awaitsTimers h => exact .one .still
  | moveTimers h => exact .one (.moveTimers h)

/-! ## What is made -/

/-- **Making an object or a scope.**  A new promise is pending and nothing waits for it. -/
inductive Makes (l : Layer) (W : World) (m : Machine) : Machine → Prop
  | object {body : Body} {className : Option String} (h : Within W body)
    (hf : body.isFresh = true) (hc : ∀ c, body = .closure c → l.Evaluates) :
    Makes l W m { m with heap := m.heap.add body className }
  | scope {parent : ScopeId} {kind : ScopeKind} {receiver : Option Value} (h : Sees W parent)
    (hk : kind ≠ .global) (hr : Within W receiver) :
    Makes l W m { m with scopes := m.scopes.push ⟨some parent, kind, [], receiver⟩ }
  | copy {scope : ScopeId} (h : .scope scope ∈ W) :
    Makes l W m { m with scopes := m.scopes.push (m.scopes.getD scope default) }

theorem Makes.effect {l : Layer} {W : World} {m m' : Machine} (h : Makes l W m m') :
    Effect l W m none m' := by
  cases h with
  | object h _ hc => exact .allocate h hc
  | scope h hk hr => exact .newScope h hk hr
  | copy h => exact .copyScope h

end ScriptTrace
