import ScriptTrace.Proofs.EventLoop.History
import ScriptTrace.Proofs.EventLoop.Turn

/-!
# Proofs/EventLoop/Course — the course of a run

A run begins with the program itself.  Then tasks run one at a time, with the heads of the two loops
between them, until nothing is left or a fault ends it:

    script ─▸ drain ─▸ microtasks ⇄ task        script, task ─▸ over
               │  ▴        │
               ▾  │        ▾
           macrotasks ─▸ task     macrotasks ─▸ emptied ─▸ over

`Course` says which stage a run can be at, in which machine, and what has happened before (`Event`).
The end of every run is the end of a course (`runProgram_course`), and so is every place of a run in
which some piece of work begins or ends (`Course.nested`).
-/

namespace ScriptTrace

open Syntax (Program)

/-- What runs without interruption. -/
inductive Activity where
  | script
  | task (q : Queue) (t : Task)

/-- **Where a run is.** -/
inductive Stage where
  /-- An activity is about to run. -/
  | begins (a : Activity)
  /-- An activity runs. -/
  | inside (a : Activity)
  /-- The script or a macrotask is over. -/
  | drain
  /-- The head of the loop over the microtasks. -/
  | microtasks
  /-- The head of the loop over the macrotasks. -/
  | macrotasks
  /-- No task and no timer is left. -/
  | emptied
  /-- The run is over, because of a fault if there is one. -/
  | over (f : Option Fault)

/-- What an activity does. -/
def Activity.exec (a : Activity) (program : Program) (ev : Evaluator) : Exec Unit :=
  match a with
  | .script => do
    discard (ev.statements Scopes.globalId program)
    Exec.enter Scopes.globalId
  | .task _ t => ev.runTask t

/-- Where a run is when an activity is over. -/
def Activity.next : Activity → Stage
  | .task .microtasks _ => .microtasks
  | _ => .drain

/-- The program begins. -/
def Machine.beginScript (m : Machine) : Machine :=
  m.entering .executing "Run script: synchronous code executes on the call stack"

/-- **The courses of runs of a program**: what has happened, where the run is, and in which machine.

What is said of the inside of an activity covers more than can happen there: any history that is
possible inside a program. -/
inductive Course (limits : Limits) (program : Program) : List Event → Stage → Machine → Prop
  | start {es : List Event} {m : Machine}
    (h : Exec.hoistBody Scopes.globalId program (.initial limits) = .ok () m)
    (hes : History .script (.initial limits) es m) :
    Course limits program es (.begins .script) m.beginScript
  | inside {es es' : List Event} {a : Activity} {m m' : Machine}
    (hc : Course limits program es (.begins a) m) (hes : History .script m es' m') :
    Course limits program (es ++ es') (.inside a) m'
  | ends {es es' : List Event} {a : Activity} {fuel : Nat} {m m' : Machine}
    (hc : Course limits program es (.begins a) m)
    (h : a.exec program (.bounded fuel) m = .ok () m') (hes : History .script m es' m') :
    Course limits program (es ++ es') a.next m'
  | fails {es es' : List Event} {a : Activity} {fuel : Nat} {f : Fault} {m m' : Machine}
    (hc : Course limits program es (.begins a) m)
    (h : a.exec program (.bounded fuel) m = .error f m') (hes : History .script m es' m') :
    Course limits program (es ++ es') (.over (some f)) m'
  | drains {es : List Event} {m : Machine} (hc : Course limits program es .drain m)
    (h : m.microtasks ≠ []) : Course limits program es .microtasks m.draining
  | drained {es : List Event} {m : Machine} (hc : Course limits program es .drain m)
    (h : m.microtasks = []) : Course limits program es .macrotasks m
  | microtask {es : List Event} {t : Task} {rest : List Task} {m : Machine}
    (hc : Course limits program es .microtasks m) (h : m.microtasks = t :: rest)
    (hw : m.work < m.limits.maxSteps) :
    Course limits program (es ++ [.taken .microtasks t, .began .microtasks t])
      (.begins (.task .microtasks t)) (m.beginMicrotask t rest)
  | overrunMicrotask {es : List Event} {t : Task} {rest : List Task} {m : Machine}
    (hc : Course limits program es .microtasks m) (h : m.microtasks = t :: rest)
    (hw : m.limits.maxSteps ≤ m.work) :
    Course limits program (es ++ [.taken .microtasks t])
      (.over (some (.stepLimit m.limits.maxSteps)))
      { m with microtasks := rest, work := m.work + 1 }
  | noMicrotask {es : List Event} {m : Machine} (hc : Course limits program es .microtasks m)
    (h : m.microtasks = []) : Course limits program es .macrotasks m
  | refill {es : List Event} {m : Machine} (hc : Course limits program es .macrotasks m)
    (h : m.callbacks = []) (ht : m.timers ≠ []) :
    Course limits program (es ++ [.due]) .macrotasks m.refilled
  | macrotask {es : List Event} {t : Task} {rest : List Task} {m : Machine}
    (hc : Course limits program es .macrotasks m) (h : m.callbacks = t :: rest)
    (hw : m.work < m.limits.maxSteps) :
    Course limits program (es ++ [.taken .macrotasks t, .began .macrotasks t])
      (.begins (.task .macrotasks t)) (m.beginMacrotask t rest)
  | overrunMacrotask {es : List Event} {t : Task} {rest : List Task} {m : Machine}
    (hc : Course limits program es .macrotasks m) (h : m.callbacks = t :: rest)
    (hw : m.limits.maxSteps ≤ m.work) :
    Course limits program (es ++ [.taken .macrotasks t])
      (.over (some (.stepLimit m.limits.maxSteps)))
      { m with callbacks := rest, work := m.work + 1 }
  | emptied {es : List Event} {m : Machine} (hc : Course limits program es .macrotasks m)
    (h : m.callbacks = []) (ht : m.timers = []) : Course limits program es .emptied m
  | idle {es : List Event} {m : Machine} (hc : Course limits program es .emptied m) :
    Course limits program es (.over none) m.idling
  /-- There is no room to go on at the head of a loop. -/
  | exhausted {es : List Event} {s : Stage} {m : Machine} (hc : Course limits program es s m)
    (hs : s = .microtasks ∨ s = .macrotasks) :
    Course limits program es (.over (some .exhausted)) m

/-! ## What an activity is -/

/-- An activity stays in the world that its task knows. -/
theorem Activity.action_within {l : Layer} [l.Evaluates] [l.Roams] {W : World} (a : Activity)
    (program : Program) (ha : ∀ q t, a = .task q t → Within W t) :
    Action l W (a.exec program) Free := by
  cases a with
  | script =>
    refine .bind (.discard (.statements sees_global)) fun W _ _ _ => ?_
    exact .elementary (.enter sees_global inferInstance) fun _ => id
  | task q t => exact .runTask (ha q t rfl)

theorem Activity.action (a : Activity) (program : Program) :
    Action .script Set.univ (a.exec program) Free :=
  a.action_within program fun _ t _ => within_univ t

/-- No activity ends inside another one. -/
theorem Activity.next_ne_inside (a b : Activity) : a.next ≠ .inside b := by
  cases a with
  | script => nofun
  | task q t => cases q <;> nofun

namespace Course

variable {limits : Limits} {program : Program} {es : List Event} {s : Stage} {a : Activity}
  {m m' : Machine}

/-- **The events of a course are the history of its machine.** -/
theorem history (h : Course limits program es s m) : History .loop (.initial limits) es m := by
  induction h with
  | start _ hes => exact .still hes.toLoop ⟨rfl, rfl, rfl, rfl, fun _ => .inl rfl⟩
  | inside _ hes ih | ends _ _ hes ih | fails _ _ hes ih => exact ih.trans hes.toLoop
  | drains _ _ ih | idle _ ih => exact .still ih ⟨rfl, rfl, rfl, rfl, fun _ => .inl rfl⟩
  | drained _ _ ih | noMicrotask _ _ ih | emptied _ _ _ ih | exhausted _ _ ih => exact ih
  | microtask _ h _ ih =>
    refine ih.trans ?_
    refine .still (.event (.ofEvent (.takesMicrotask rfl h)) (.began rfl)) ?_
    exact ⟨rfl, rfl, rfl, rfl, fun _ => .inl rfl⟩
  | macrotask _ h _ ih =>
    refine ih.trans ?_
    refine .still (.event (.ofEvent (.takesCallback rfl h)) (.began rfl)) ?_
    exact ⟨rfl, rfl, rfl, rfl, fun _ => .inl rfl⟩
  | overrunMicrotask _ h _ ih =>
    exact .still (.event ih (.takesMicrotask rfl h)) ⟨rfl, rfl, rfl, rfl, fun _ => .inl rfl⟩
  | overrunMacrotask _ h _ ih =>
    exact .still (.event ih (.takesCallback rfl h)) ⟨rfl, rfl, rfl, rfl, fun _ => .inl rfl⟩
  | refill _ _ _ ih =>
    exact .still (.event ih (.due rfl)) ⟨rfl, rfl, rfl, rfl, fun _ => .inl rfl⟩

/-- A course that is inside of an activity stays there. -/
theorem further {es' : List Event} (h : Course limits program es (.inside a) m)
    (hes : History .script m es' m') : Course limits program (es ++ es') (.inside a) m' := by
  generalize hs : Stage.inside a = s at h
  cases h with
  | inside hc hes₀ =>
    cases hs
    rw [List.append_assoc]
    exact .inside hc (hes₀.trans hes)
  | ends => exact absurd hs.symm (Activity.next_ne_inside _ _)
  | _ => cases hs

end Course

/-! ## Every run is a course -/

/-- **The pieces of work that a stage is about to do**, or that can be done at it. -/
inductive Stage.Hosts : Stage → {α : Type} → Work α → Prop
  | microtasks : Hosts .microtasks .microtasks
  | macrotasks : Hosts .macrotasks .macrotasks
  | inside {a : Activity} {α : Type} {w : Work α} (h : w.Fits .script Set.univ) :
    Hosts (.inside a) w

section

variable {limits : Limits} {program : Program} {es : List Event} {s s' : Stage} {m m' : Machine}
  {fuel : Nat} {x : Evaluator → Exec Unit}

/-- **An action goes from a course to a course**: to this stage if it ends without a fault, and else
to the end of the run; and what it asks for begins at a stage that hosts it. -/
structure Goes (limits : Limits) (program : Program) (es : List Event) (m : Machine)
    (x : Evaluator → Exec Unit) (fuel : Nat) (s : Stage) : Prop where
  ok : ∀ {m'}, x (.bounded fuel) m = .ok () m' → ∃ es', Course limits program (es ++ es') s m'
  error : ∀ {f m'}, x (.bounded fuel) m = .error f m' →
    ∃ es', Course limits program (es ++ es') (.over (some f)) m'
  asks : ∀ {β : Type} {w : Work β} {m₁}, Asks x (.bounded fuel) m w m₁ →
    ∃ es' s', Course limits program (es ++ es') s' m₁ ∧ s'.Hosts w

namespace Goes

/-- An action that does the same with every evaluator asks for nothing. -/
theorem of_ok (h : ∀ ev, x ev m = .ok () m') (hc : Course limits program es s m') :
    Goes limits program es m x fuel s where
  ok hx := by
    cases (h _).symm.trans hx
    exact ⟨[], by rwa [List.append_nil]⟩
  error hx := by cases (h _).symm.trans hx
  asks hx := (not_asks_const (hx.congr h)).elim

/-- A run that ends here in a fault is over. -/
theorem of_error {f : Fault} (es' : List Event) (h : ∀ ev, x ev m = .error f m')
    (hc : Course limits program (es ++ es') (.over (some f)) m') :
    Goes limits program es m x fuel s where
  ok hx := by cases (h _).symm.trans hx
  error hx := by
    cases (h _).symm.trans hx
    exact ⟨es', hc⟩
  asks hx := (not_asks_const (hx.congr h)).elim

/-- What is the same as another action from a later machine on goes where that goes. -/
theorem of_eq {y : Evaluator → Exec Unit} (es' : List Event) (h : ∀ ev, x ev m = y ev m')
    (hy : Goes limits program (es ++ es') m' y fuel s) : Goes limits program es m x fuel s where
  ok hx := by
    obtain ⟨es'', hc⟩ := hy.ok ((h _).symm.trans hx)
    exact ⟨es' ++ es'', by rwa [← List.append_assoc]⟩
  error hx := by
    obtain ⟨es'', hc⟩ := hy.error ((h _).symm.trans hx)
    exact ⟨es' ++ es'', by rwa [← List.append_assoc]⟩
  asks hx := by
    obtain ⟨es'', s', hc, hs⟩ := hy.asks (hx.congr h)
    exact ⟨es' ++ es'', s', by rwa [← List.append_assoc], hs⟩

/-- One part of the loop goes on from the stage at which the one before it stopped. -/
theorem bind {y : Evaluator → Exec Unit} (hx : Goes limits program es m x fuel s)
    (hy : ∀ {es m}, Course limits program es s m → Goes limits program es m y fuel s') :
    Goes limits program es m (fun ev => x ev >>= fun _ => y ev) fuel s' where
  ok h := by
    obtain ⟨⟨⟩, m₁, hxm, hym⟩ := Exec.bind_eq_ok h
    obtain ⟨es₁, hc₁⟩ := hx.ok hxm
    obtain ⟨es₂, hc₂⟩ := (hy hc₁).ok hym
    exact ⟨es₁ ++ es₂, by rwa [← List.append_assoc]⟩
  error h := by
    rcases Exec.bind_eq_error h with hxm | ⟨⟨⟩, m₁, hxm, hym⟩
    · exact hx.error hxm
    · obtain ⟨es₁, hc₁⟩ := hx.ok hxm
      obtain ⟨es₂, hc₂⟩ := (hy hc₁).error hym
      exact ⟨es₁ ++ es₂, by rwa [← List.append_assoc]⟩
  asks h := by
    rcases h.of_bind with h | ⟨⟨⟩, m₁, hxm, h⟩
    · exact hx.asks h
    · obtain ⟨es₁, hc₁⟩ := hx.ok hxm
      obtain ⟨es₂, s'', hc₂, hs⟩ := (hy hc₁).asks h
      exact ⟨es₁ ++ es₂, s'', by rwa [← List.append_assoc], hs⟩

/-! ## The two loops -/

/-- An activity goes from its beginning to the stage behind it. -/
theorem activity {a : Activity} (hc : Course limits program es (.begins a) m) :
    Goes limits program es m (a.exec program) fuel a.next where
  ok h := by
    obtain ⟨es', hes⟩ := (a.action program).history fuel m
    rw [Exec.after_of_ok h] at hes
    exact ⟨es', .ends hc h hes⟩
  error h := by
    obtain ⟨es', hes⟩ := (a.action program).history fuel m
    rw [Exec.after_of_error h] at hes
    exact ⟨es', .fails hc h hes⟩
  asks h := by
    obtain ⟨⟨es', hes⟩, hfit⟩ := (a.action program).history_nested (.asked h)
    exact ⟨es', _, .inside hc hes, .inside hfit⟩

/-- A microtask is taken, run, and the loop goes on with the rest. -/
theorem execMicrotasks (hc : Course limits program es .microtasks m)
    (hrun : ∀ {es m}, Course limits program es .microtasks m →
      Goes limits program es m (fun ev => ev.run .microtasks) fuel .macrotasks) :
    Goes limits program es m (fun ev => ev.execMicrotasks) fuel .macrotasks := by
  cases hm : m.microtasks with
  | nil => exact .of_ok (fun ev => ev.execMicrotasks_of_nil hm) (.noMicrotask hc hm)
  | cons task rest =>
    rcases Nat.lt_or_ge m.work m.limits.maxSteps with hw | hw
    · exact .of_eq _ (fun ev => ev.execMicrotasks_of_cons hm hw)
        (.bind (.activity (.microtask hc hm hw)) hrun)
    · exact .of_error _ (fun ev => ev.execMicrotasks_of_overrun hm hw) (.overrunMicrotask hc hm hw)

/-- A request asks for what its stage hosts. -/
theorem asks_run {w : Work Unit} (hc : Course limits program es s m) (hs : s.Hosts w) {β : Type}
    {v : Work β} {m₁ : Machine} (h : Asks (fun ev => ev.run w) (.bounded fuel) m v m₁) :
    ∃ es' s', Course limits program (es ++ es') s' m₁ ∧ s'.Hosts v := by
  obtain ⟨hw, rfl⟩ := h.of_run
  cases hw
  exact ⟨[], s, by rwa [List.append_nil], hs⟩

/-- The head of a loop for which no room is left. -/
theorem exhausted {w : Work Unit} (hc : Course limits program es s m) (hs : s.Hosts w)
    (hloop : s = .microtasks ∨ s = .macrotasks) :
    Goes limits program es m (fun ev => ev.run w) 0 s' where
  ok h := by cases h
  error h := by
    cases h
    exact ⟨[], by simpa using Course.exhausted hc hloop⟩
  asks := asks_run hc hs

/-- **The loop over the microtasks**, by induction on the fuel. -/
theorem microtasks (hc : Course limits program es .microtasks m) :
    Goes limits program es m (fun ev => ev.run .microtasks) fuel .macrotasks := by
  induction fuel generalizing es m with
  | zero => exact exhausted hc .microtasks (.inl rfl)
  | succ fuel ih =>
    have hturn := execMicrotasks hc ih
    exact ⟨hturn.ok, hturn.error, asks_run hc .microtasks⟩

/-- The microtasks have a phase of their own only if there are any. -/
theorem drainMicrotasks (hc : Course limits program es .drain m) :
    Goes limits program es m (fun ev => ev.drainMicrotasks) fuel .macrotasks := by
  by_cases hm : m.microtasks = []
  · exact .of_ok (fun ev => ev.drainMicrotasks_of_nil hm) (.drained hc hm)
  · refine .of_eq [] (fun ev => ev.drainMicrotasks_of_ne_nil hm) ?_
    rw [List.append_nil]
    exact microtasks (.drains hc hm)

/-- A callback, with all that follows it. -/
theorem execCallback {task : Task} {rest : List Task} (hm : m.callbacks = task :: rest)
    (hc : Course limits program es .macrotasks m)
    (hrun : ∀ {es m}, Course limits program es .macrotasks m →
      Goes limits program es m (fun ev => ev.run .macrotasks) fuel .emptied) :
    Goes limits program es m (fun ev => ev.execMacrotasks) fuel .emptied := by
  rcases Nat.lt_or_ge m.work m.limits.maxSteps with hw | hw
  · exact .of_eq _ (fun ev => ev.execMacrotasks_of_cons hm hw)
      (.bind (.activity (.macrotask hc hm hw)) fun hc => .bind (drainMicrotasks hc) hrun)
  · exact .of_error _ (fun ev => ev.execMacrotasks_of_overrun hm hw) (.overrunMacrotask hc hm hw)

/-- A callback is taken, run, and followed by its microtasks. -/
theorem execMacrotasks (hc : Course limits program es .macrotasks m)
    (hrun : ∀ {es m}, Course limits program es .macrotasks m →
      Goes limits program es m (fun ev => ev.run .macrotasks) fuel .emptied) :
    Goes limits program es m (fun ev => ev.execMacrotasks) fuel .emptied := by
  cases hm : m.callbacks with
  | cons task rest => exact execCallback hm hc hrun
  | nil =>
    by_cases ht : m.timers = []
    · exact .of_ok (fun ev => ev.execMacrotasks_of_empty hm ht) (.emptied hc hm ht)
    · obtain ⟨task, rest, hmoved⟩ :=
        List.exists_cons_of_ne_nil (Machine.refilled_callbacks_ne_nil ht)
      exact .of_eq _ (fun ev => ev.execMacrotasks_of_timers hm ht)
        (execCallback hmoved (.refill hc hm ht) hrun)

/-- **The loop over the macrotasks**, by induction on the fuel. -/
theorem macrotasks (hc : Course limits program es .macrotasks m) :
    Goes limits program es m (fun ev => ev.run .macrotasks) fuel .emptied := by
  induction fuel generalizing es m with
  | zero => exact exhausted hc .macrotasks (.inr rfl)
  | succ fuel ih =>
    have hturn := execMacrotasks hc ih
    exact ⟨hturn.ok, hturn.error, asks_run hc .macrotasks⟩

end Goes

/-! ## Runs -/

/-- Binding the names of a program always succeeds and shows nothing. -/
theorem Exec.hoistNames_eq (scope : ScopeId) (names : List String) (m : Machine) :
    ∃ scopes heap, hoistNames scope names m = .ok () { m with scopes, heap } := by
  induction names generalizing m with
  | nil => exact ⟨_, _, rfl⟩
  | cons x xs ih =>
    have hread : hoistNames scope (x :: xs) m = _ := bind_of_ok rfl
    rw [hread]
    split
    · obtain ⟨scopes, heap, h⟩ := ih
        { m with
          heap := m.heap.label .undefined x
          scopes := m.scopes.modify scope (·.put x ⟨.undefined, .var⟩) }
      exact ⟨scopes, heap, (bind_of_ok rfl).trans h⟩
    · exact ih m

/-- To make the functions of a block changes scopes and heap alone. -/
theorem Exec.hoistBlock_eq (scope : ScopeId) (body : List Syntax.Stmt) (m : Machine) :
    ∃ scopes heap, hoistBlock scope body m = .ok () { m with scopes, heap } := by
  induction body generalizing m with
  | nil => exact ⟨_, _, rfl⟩
  | cons s ss ih =>
    unfold hoistBlock
    split
    · rename_i f _
      have hmade : ∃ id heap, makeClosure scope f "" m = .ok (.object id) { m with heap } :=
        ⟨_, _, rfl⟩
      obtain ⟨id, heap, hmade⟩ := hmade
      obtain ⟨scopes, heap', h⟩ := ih
        { m with
          heap := heap.label (.object id) (f.name.getD "")
          scopes := m.scopes.modify scope (·.put (f.name.getD "") ⟨.object id, .function⟩) }
      exact ⟨scopes, heap', (bind_of_ok hmade).trans ((bind_of_ok rfl).trans h)⟩
    · exact ih m

theorem Exec.hoistBody_eq (scope : ScopeId) (body : List Syntax.Stmt) (m : Machine) :
    ∃ scopes heap, hoistBody scope body m = .ok () { m with scopes, heap } := by
  obtain ⟨scopes, heap, hnames⟩ := hoistNames_eq scope (Syntax.hoistedNames body) m
  obtain ⟨scopes', heap', hblock⟩ := hoistBlock_eq scope body { m with scopes, heap }
  exact ⟨scopes', heap', (bind_of_ok hnames).trans hblock⟩

/-- A program runs as an activity, and then the event loop goes on. -/
theorem runProgram_eq (h : Exec.hoistBody Scopes.globalId program (.initial limits) = .ok () m)
    (ev : Evaluator) :
    ev.runProgram program (.initial limits) =
      (Activity.script.exec program ev >>= fun _ =>
        ev.drainMicrotasks >>= fun _ =>
        ev.run .macrotasks >>= fun _ =>
        Exec.enterPhase .idle "Call stack and queues are empty: event loop idle")
      m.beginScript := by
  refine (Exec.bind_of_ok h).trans ((Exec.bind_of_ok Exec.enterPhase_eq).trans ?_)
  simp only [Activity.exec, Evaluator.runEventLoop, bind_assoc]
  rfl

/-- The names of a program are bound. -/
def Machine.hoisted (limits : Limits) (program : Program) : Machine :=
  (Exec.hoistBody Scopes.globalId program).after (.initial limits)

/-- The functions of a program are made before it runs. -/
theorem hoistBody_initial (limits : Limits) (program : Program) :
    Exec.hoistBody Scopes.globalId program (.initial limits) =
      .ok () (.hoisted limits program) := by
  obtain ⟨scopes, heap, h⟩ := Exec.hoistBody_eq Scopes.globalId program (.initial limits)
  rw [Machine.hoisted, Exec.after_of_ok h, h]

/-- Every run begins. -/
theorem Course.script (limits : Limits) (program : Program) :
    ∃ es, Course limits program es (.begins .script)
      (Machine.hoisted limits program).beginScript := by
  obtain ⟨es, hes⟩ := Action.history (l := .script)
    (x := fun _ => Exec.hoistBody Scopes.globalId program) (.hoistBody sees_global) 0
    (.initial limits)
  exact ⟨es, .start (hoistBody_initial limits program) hes⟩

/-- A run goes to its end. -/
theorem runProgram_goes (limits : Limits) (program : Program) (fuel : Nat) :
    ∃ es, Goes limits program es (.initial limits) (fun ev => ev.runProgram program) fuel
      (.over none) := by
  obtain ⟨es, hc⟩ := Course.script limits program
  refine ⟨es, .of_eq [] (fun ev => runProgram_eq (hoistBody_initial limits program) ev) ?_⟩
  rw [List.append_nil]
  refine .bind (.activity hc) fun hc => .bind (.drainMicrotasks hc) fun hc => ?_
  exact .bind (.macrotasks hc) fun hc => .of_ok (fun _ => Exec.enterPhase_eq) (.idle hc)

/-- **The end of a run is the end of a course**, without a fault if the run ended without one. -/
theorem runProgram_course (limits : Limits) (program : Program) (fuel : Nat) :
    ∃ es, Course limits program es
      (.over (((Evaluator.bounded fuel).runProgram program).faultOf (.initial limits)))
      (((Evaluator.bounded fuel).runProgram program).after (.initial limits)) := by
  obtain ⟨es, hgoes⟩ := runProgram_goes limits program fuel
  cases h : (Evaluator.bounded fuel).runProgram program (.initial limits) with
  | ok u m =>
    rw [Exec.faultOf_of_ok h, Exec.after_of_ok h]
    exact ⟨_, (hgoes.ok h).choose_spec⟩
  | error f m =>
    rw [Exec.faultOf_of_error h, Exec.after_of_error h]
    exact ⟨_, (hgoes.error h).choose_spec⟩

/-- **Every piece of work of a run begins at a stage of its course**: at the head of a loop if it is
that loop, and inside of an activity else. -/
theorem Course.nested {β : Type} {w : Work β} {k : Nat}
    (h : Nested (fun ev => ev.runProgram program) fuel (.initial limits) w k m) :
    ∃ es s, Course limits program es s m ∧ s.Hosts w := by
  induction h with
  | asked h =>
    obtain ⟨es, hgoes⟩ := runProgram_goes limits program fuel
    obtain ⟨es', s, hc⟩ := hgoes.asks h
    exact ⟨_, s, hc⟩
  | inside _ h ih =>
    obtain ⟨es, s, hc, hs⟩ := ih
    cases hs with
    | microtasks =>
      obtain ⟨es', s, hc⟩ := (Goes.execMicrotasks hc Goes.microtasks).asks h
      exact ⟨_, s, hc⟩
    | macrotasks =>
      obtain ⟨es', s, hc⟩ := (Goes.execMacrotasks hc Goes.macrotasks).asks h
      exact ⟨_, s, hc⟩
    | inside hfit =>
      obtain ⟨⟨es', hes⟩, hfit'⟩ := (Action.step hfit).history_nested (.asked h)
      exact ⟨_, _, hc.further hes, .inside hfit'⟩

/-- …and if it lies inside of an activity, it ends there. -/
theorem Course.nested_after {β : Type} {w : Work β} {a : Activity}
    (hc : Course limits program es (.inside a) m) (hw : w.Fits .script Set.univ) (k : Nat) :
    ∃ es', Course limits program (es ++ es') (.inside a) ((w.exec k).after m) := by
  obtain ⟨es', hes⟩ := Action.history (x := fun ev => ev.run w) (.eval hw) k m
  exact ⟨es', hc.further hes⟩

/-- **The course of a program covers its runs**: their ends, and all places in them where a piece of
work begins or ends inside of an activity. -/
structure Covers (limits : Limits) (program : Program) : Prop where
  ended : ∀ fuel, ∃ es, Course limits program es
    (.over (((Evaluator.bounded fuel).runProgram program).faultOf (.initial limits)))
    (((Evaluator.bounded fuel).runProgram program).after (.initial limits))
  begins : ∀ {fuel k : Nat} {β : Type} {w : Work β} {m : Machine},
    Nested (fun ev => ev.runProgram program) fuel (.initial limits) w k m →
    ∃ es s, Course limits program es s m ∧ s.Hosts w
  within : ∀ {es : List Event} {a : Activity} {m : Machine},
    Course limits program es (.begins a) m →
    ∀ {fuel k : Nat} {β : Type} {w : Work β} {m₁ : Machine}, Nested (a.exec program) fuel m w k m₁ →
      (∃ es', Course limits program (es ++ es') (.inside a) m₁) ∧
      ∃ es', Course limits program (es ++ es') (.inside a) ((w.exec k).after m₁)

/-- **Every machine between two activities of a run lies on its course.** -/
theorem course_covers (limits : Limits) (program : Program) : Covers limits program where
  ended := runProgram_course limits program
  begins := Course.nested
  within {es a m} hc _ k _ w _ h := by
    obtain ⟨⟨es', hes⟩, hfit⟩ := (a.action program).history_nested h
    have hinside := Course.inside hc hes
    obtain ⟨es'', hafter⟩ := hinside.nested_after hfit k
    exact ⟨⟨es', hinside⟩, es' ++ es'', by rwa [← List.append_assoc]⟩

end

end ScriptTrace
