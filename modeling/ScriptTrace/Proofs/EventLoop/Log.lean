import ScriptTrace.Proofs.EventLoop.Course

/-!
# Proofs/EventLoop/Log — which tasks were taken and which began

The event loop takes a task and begins it at once; only the ceiling on work can come between.  So
the tasks that began are those that were taken (`Course.begun_eq`), and every task in the log of a
course began at a stage of it (`Course.stage_of_began`).
-/

namespace ScriptTrace

/-- The tasks taken from a queue. -/
def takenFrom (q : Queue) (es : List Event) : List Task :=
  es.filterMap fun
    | .taken q' t => if q' = q then some t else none
    | _ => none

/-- **The tasks of a queue whose work has begun**, in the order in which it did. -/
def begun (q : Queue) (es : List Event) : List Task :=
  es.filterMap fun
    | .began q' t => if q' = q then some t else none
    | _ => none

/-- What only the event loop does. -/
def Event.isTurn : Event → Bool
  | .due | .taken .. | .began .. => true
  | _ => false

section

variable {q : Queue} {es es' : List Event} {m m' : Machine}

@[simp] theorem takenFrom_append : takenFrom q (es ++ es') = takenFrom q es ++ takenFrom q es' :=
  List.filterMap_append

@[simp] theorem begun_append : begun q (es ++ es') = begun q es ++ begun q es' :=
  List.filterMap_append

/-- Within an activity no task is taken. -/
theorem takenFrom_of_script (h : ∀ e ∈ es, e.isTurn = false) : takenFrom q es = [] :=
  List.filterMap_eq_nil_iff.mpr fun e he => by
    cases e with
    | taken => cases h _ he
    | _ => rfl

/-- Within an activity no task begins. -/
theorem begun_of_script (h : ∀ e ∈ es, e.isTurn = false) : begun q es = [] :=
  List.filterMap_eq_nil_iff.mpr fun e he => by
    cases e with
    | began => cases h _ he
    | _ => rfl

/-- Within an activity nothing is taken from the queues. -/
theorem History.isTurn_eq_false (h : History .script m es m') : ∀ e ∈ es, e.isTurn = false := by
  induction h with
  | refl => exact fun e he => absurd he List.not_mem_nil
  | still _ _ ih => exact ih
  | event _ he ih =>
    intro e hmem
    rcases List.mem_append.mp hmem with hmem | hmem
    · exact ih e hmem
    · obtain rfl := List.mem_singleton.mp hmem
      cases he with
      | due h | takesMicrotask h | takesCallback h | began h => cases h
      | _ => rfl

theorem History.not_mem {e : Event} (h : History .script m es m') (he : e.isTurn = true) :
    e ∉ es := fun hmem => Bool.false_ne_true ((h.isTurn_eq_false e hmem).symm.trans he)

/-- What happens inside a program begins nothing and takes nothing. -/
theorem History.begun_eq (hes : History .script m es' m') (h : begun q es = takenFrom q es) :
    begun q (es ++ es') = takenFrom q (es ++ es') := by
  rw [begun_append, takenFrom_append, h, begun_of_script hes.isTurn_eq_false,
    takenFrom_of_script hes.isTurn_eq_false]

/-- A place before a piece of a log that does not have it lies in what precedes that piece. -/
theorem split_before {es₁ es₂ : List Event} {e : Event} (he : e ∉ es')
    (h : es ++ es' = es₁ ++ e :: es₂) : ∃ rest, es = es₁ ++ e :: rest := by
  rcases List.append_eq_append_iff.mp h with ⟨as, -, hes'⟩ | ⟨as, hes, hrest⟩
  · exact absurd (hes' ▸ List.mem_append_right _ List.mem_cons_self) he
  · cases as with
    | nil =>
      rw [List.nil_append] at hrest
      exact absurd (hrest ▸ List.mem_cons_self) he
    | cons e' as =>
      cases hrest
      exact ⟨as, hes⟩

/-- A place in a list is its last one, or lies before that. -/
theorem split_last {α : Type} {l l₁ l₂ : List α} {a b : α} (h : l ++ [b] = l₁ ++ a :: l₂) :
    (l₁ = l ∧ a = b) ∨ ∃ rest, l = l₁ ++ a :: rest := by
  rcases List.eq_nil_or_concat l₂ with rfl | ⟨rest, x, rfl⟩
  · obtain ⟨hl, ha⟩ := List.append_inj' h rfl
    exact .inl ⟨hl.symm, (List.singleton_inj.mp ha).symm⟩
  · rw [List.concat_eq_append, ← List.cons_append, ← List.append_assoc] at h
    exact .inr ⟨rest, (List.append_inj' h rfl).1⟩

end

namespace Course

variable {limits : Limits} {program : Syntax.Program} {q : Queue} {es : List Event} {s : Stage}
  {m : Machine}

/-- **What is taken begins**, unless the run ends in a fault right there. -/
theorem begun_eq (h : Course limits program es s m) (q : Queue) :
    begun q es <+: takenFrom q es ∧
      ((∀ f, s ≠ .over (some f)) → begun q es = takenFrom q es) := by
  have stay {es : List Event} (h : begun q es = takenFrom q es) {s : Stage} :
      begun q es <+: takenFrom q es ∧
        ((∀ f, s ≠ .over (some f)) → begun q es = takenFrom q es) :=
    ⟨h ▸ List.prefix_rfl, fun _ => h⟩
  induction h with
  | start _ hes =>
    exact stay ((begun_of_script hes.isTurn_eq_false).trans
      (takenFrom_of_script hes.isTurn_eq_false).symm)
  | inside _ hes ih | ends _ _ hes ih | fails _ _ hes ih =>
    exact stay (hes.begun_eq (ih.2 fun _ => Stage.noConfusion))
  | drains _ _ ih | drained _ _ ih | noMicrotask _ _ ih | emptied _ _ _ ih | idle _ ih =>
    exact stay (ih.2 fun _ => Stage.noConfusion)
  | exhausted _ hs ih =>
    refine stay (ih.2 fun f => ?_)
    rcases hs with rfl | rfl
    all_goals exact Stage.noConfusion
  | refill _ _ _ ih =>
    refine stay ?_
    rw [begun_append, takenFrom_append, ih.2 fun _ => Stage.noConfusion]
    rfl
  | microtask _ _ _ ih | macrotask _ _ _ ih =>
    refine stay ?_
    rw [begun_append, takenFrom_append, ih.2 fun _ => Stage.noConfusion]
    cases q <;> rfl
  | overrunMicrotask _ _ _ ih | overrunMacrotask _ _ _ ih =>
    refine ⟨?_, fun h => (h _ rfl).elim⟩
    rw [begun_append, takenFrom_append, ih.2 fun _ => Stage.noConfusion]
    exact List.prefix_append_right_inj _ |>.mpr List.nil_prefix

/-- A task that begins now is the one in question, or that one began before. -/
theorem stage_of_turn {es₁ es₂ : List Event} {q' : Queue} {t t' : Task}
    (hc : Course limits program (es ++ [.taken q' t', .began q' t']) (.begins (.task q' t')) m)
    (hes : es ++ [.taken q' t', .began q' t'] = es₁ ++ .began q t :: es₂) :
    Course limits program (es₁ ++ [.began q t]) (.begins (.task q t)) m ∨
      ∃ rest, es = es₁ ++ .began q t :: rest := by
  rw [List.append_cons] at hes hc
  rcases split_last hes with ⟨rfl, he⟩ | ⟨rest, hrest⟩
  · cases he
    exact .inl hc
  · exact .inr (split_before (by simp) hrest)

/-- **Every task in the log of a course began at a stage of it.** -/
theorem stage_of_began (h : Course limits program es s m) {es₁ es₂ : List Event} {t : Task}
    (hes : es = es₁ ++ .began q t :: es₂) :
    ∃ m', Course limits program (es₁ ++ [.began q t]) (.begins (.task q t)) m' := by
  induction h generalizing es₂ with
  | start _ hscript =>
    subst hes
    exact absurd (List.mem_append_right _ List.mem_cons_self) (hscript.not_mem rfl)
  | inside _ hscript ih | ends _ _ hscript ih | fails _ _ hscript ih =>
    obtain ⟨rest, hrest⟩ := split_before (hscript.not_mem rfl) hes
    exact ih hrest
  | drains _ _ ih | drained _ _ ih | noMicrotask _ _ ih | emptied _ _ _ ih | idle _ ih
  | exhausted _ _ ih => exact ih hes
  | refill _ _ _ ih | overrunMicrotask _ _ _ ih | overrunMacrotask _ _ _ ih =>
    obtain ⟨rest, hrest⟩ := split_before (by simp) hes
    exact ih hrest
  | microtask hc h hw ih =>
    rcases stage_of_turn (.microtask hc h hw) hes with hstage | ⟨rest, hrest⟩
    · exact ⟨_, hstage⟩
    · exact ih hrest
  | macrotask hc h hw ih =>
    rcases stage_of_turn (.macrotask hc h hw) hes with hstage | ⟨rest, hrest⟩
    · exact ⟨_, hstage⟩
    · exact ih hrest

/-- While a task runs it is the last one that began. -/
theorem running_begins {t : Task} (h : Course limits program es (.begins (.task q t)) m) :
    (begun q es).getLast? = some t := by
  generalize hs : Stage.begins (.task q t) = s at h
  cases h with
  | microtask | macrotask =>
    cases hs
    rw [begun_append]
    exact List.getLast?_concat
  | @ends _ _ a => rcases a with _ | ⟨_ | _, _⟩ <;> cases hs
  | _ => cases hs

/-- The task that runs is the last one that was begun. -/
theorem running_inside {t : Task} (h : Course limits program es (.inside (.task q t)) m) :
    (begun q es).getLast? = some t := by
  generalize hs : Stage.inside (.task q t) = s at h
  cases h with
  | inside hc hes =>
    cases hs
    rw [begun_append, begun_of_script hes.isTurn_eq_false, List.append_nil]
    exact hc.running_begins
  | @ends _ _ a => rcases a with _ | ⟨_ | _, _⟩ <;> cases hs
  | _ => cases hs

/-- At the end of a run without a fault nothing is left. -/
theorem emptied_of_over (h : Course limits program es (.over none) m) :
    ∃ m₀, m = m₀.idling ∧ Course limits program es .emptied m₀ := by
  generalize hs : Stage.over none = s at h
  cases h with
  | idle hc => exact ⟨_, rfl, hc⟩
  | @ends _ _ a => rcases a with _ | ⟨_ | _, _⟩ <;> cases hs
  | _ => cases hs

/-- Once the loop has ended, no callback and no timer waits. -/
theorem emptied_queues (h : Course limits program es .emptied m) :
    m.callbacks = [] ∧ m.timers = [] := by
  generalize hs : Stage.emptied = s at h
  cases h with
  | emptied _ hc ht => exact ⟨hc, ht⟩
  | @ends _ _ a => rcases a with _ | ⟨_ | _, _⟩ <;> cases hs
  | _ => cases hs

/-! ### The first task -/

/-- When the program has ended without a fault no task has begun. -/
theorem scriptEnded {fuel : Nat}
    (hf : (Activity.script.exec program (.bounded fuel)).faultOf
      (Machine.hoisted limits program).beginScript = none)
    (hm : (Activity.script.exec program (.bounded fuel)).after
      (Machine.hoisted limits program).beginScript = m) :
    ∃ es, Course limits program es .drain m ∧ ∀ q, begun q es = [] := by
  obtain ⟨es, hes⟩ := Action.history (l := .script)
    (x := fun _ => Exec.hoistBody Scopes.globalId program) (.hoistBody sees_global) 0
    (.initial limits)
  obtain ⟨es', hes'⟩ := (Activity.script.action program).history fuel
    (Machine.hoisted limits program).beginScript
  cases h : Activity.script.exec program (.bounded fuel)
      (Machine.hoisted limits program).beginScript with
  | ok u m' =>
    rw [Exec.after_of_ok h] at hm hes'
    subst hm
    refine ⟨_, .ends (.start (hoistBody_initial limits program) hes) h hes', fun q => ?_⟩
    rw [begun_append, begun_of_script hes.isTurn_eq_false, begun_of_script hes'.isTurn_eq_false]
    rfl
  | error f m' =>
    rw [Exec.faultOf_of_error h] at hf
    cases hf

/-- If the program ends without a fault its first microtask begins, and nothing before it. -/
theorem first_microtask {fuel : Nat} {t : Task} {rest : List Task}
    (hf : (Activity.script.exec program (.bounded fuel)).faultOf
      (Machine.hoisted limits program).beginScript = none)
    (hm : (Activity.script.exec program (.bounded fuel)).after
      (Machine.hoisted limits program).beginScript = m)
    (hq : m.microtasks = t :: rest) (hw : m.work < m.limits.maxSteps) :
    ∃ es, Course limits program es (.begins (.task .microtasks t))
      (m.draining.beginMicrotask t rest) ∧ begun .microtasks es = [t] := by
  obtain ⟨es, hc, hnone⟩ := scriptEnded hf hm
  refine ⟨_, .microtask (.drains hc (hq ▸ List.cons_ne_nil _ _)) hq hw, ?_⟩
  rw [begun_append, hnone]
  rfl

/-- If it leaves timers and no microtask the first macrotask begins, and nothing before it. -/
theorem first_macrotask {fuel : Nat}
    (hf : (Activity.script.exec program (.bounded fuel)).faultOf
      (Machine.hoisted limits program).beginScript = none)
    (hm : (Activity.script.exec program (.bounded fuel)).after
      (Machine.hoisted limits program).beginScript = m)
    (hq : m.microtasks = []) (hc : m.callbacks = []) (ht : m.timers ≠ [])
    (hw : m.work < m.limits.maxSteps) :
    ∃ es t rest, Course limits program es (.begins (.task .macrotasks t))
      (m.refilled.beginMacrotask t rest) ∧ begun .macrotasks es = [t] := by
  obtain ⟨es, hdrain, hnone⟩ := scriptEnded hf hm
  obtain ⟨t, rest, hcallbacks⟩ := List.exists_cons_of_ne_nil (Machine.refilled_callbacks_ne_nil ht)
  refine ⟨_, t, rest, .macrotask (.refill (.drained hdrain hq) hc ht) hcallbacks hw, ?_⟩
  rw [begun_append, begun_append, hnone]
  rfl

end Course

end ScriptTrace
