import ScriptTrace.Evaluation.Run

/-!
# Proofs/Outcome — how actions end

An action ends in a result or a fault, in both cases with a machine.  For each way to put actions
together there is one lemma for its results and one for its faults.
-/

namespace ScriptTrace.Exec

variable {α β : Type} {x : Exec α} {k : α → Exec β} {m m' : Machine} {a : α} {b : β} {f : Fault}

/-- The machine that an action leaves. -/
def after (x : Exec α) (m : Machine) : Machine :=
  match x m with
  | .ok _ m' => m'
  | .error _ m' => m'

/-- The fault that an action ends in. -/
def faultOf (x : Exec α) (m : Machine) : Option Fault :=
  match x m with
  | .ok _ _ => none
  | .error f _ => some f

theorem after_of_ok (h : x m = .ok a m') : after x m = m' := by rw [after, h]

theorem after_of_error (h : x m = .error f m') : after x m = m' := by rw [after, h]

theorem faultOf_of_ok (h : x m = .ok a m') : faultOf x m = none := by rw [faultOf, h]

theorem faultOf_of_error (h : x m = .error f m') : faultOf x m = some f := by rw [faultOf, h]

theorem faultOf_eq_some : faultOf x m = some f ↔ ∃ m', x m = .error f m' := by
  cases h : x m with
  | ok a m' => simp [faultOf_of_ok h]
  | error g m' => simp [faultOf_of_error h]

/-- Actions that do the same end in the same way. -/
theorem faultOf_congr {y : Exec α} (h : x m = y m') : faultOf x m = faultOf y m' := by
  rw [faultOf, faultOf, h]

theorem after_congr {y : Exec α} (h : x m = y m') : after x m = after y m' := by
  rw [after, after, h]

theorem bind_of_ok (h : x m = .ok a m') : (x >>= k) m = k a m' := by
  change EStateM.bind x k m = _
  rw [EStateM.bind, h]

theorem bind_of_error (h : x m = .error f m') : (x >>= k) m = .error f m' := by
  change EStateM.bind x k m = _
  rw [EStateM.bind, h]

/-- **An action behind another ends well only if both do.** -/
theorem bind_eq_ok (h : (x >>= k) m = .ok b m') : ∃ a m₁, x m = .ok a m₁ ∧ k a m₁ = .ok b m' := by
  cases hx : x m with
  | ok a m₁ => exact ⟨a, m₁, rfl, (bind_of_ok hx).symm.trans h⟩
  | error f m₁ => cases (bind_of_error hx).symm.trans h

/-- A fault comes of the first action, or of the second one behind it. -/
theorem bind_eq_error (h : (x >>= k) m = .error f m') :
    x m = .error f m' ∨ ∃ a m₁, x m = .ok a m₁ ∧ k a m₁ = .error f m' := by
  cases hx : x m with
  | ok a m₁ => exact .inr ⟨a, m₁, rfl, (bind_of_ok hx).symm.trans h⟩
  | error f m₁ =>
    cases (bind_of_error hx).symm.trans h
    exact .inl rfl

/-- Below the limit a unit of work is counted. -/
theorem tick_of_lt (h : m.work < m.limits.maxSteps) :
    tick m = .ok () { m with work := m.work + 1 } := by
  change (if m.work + 1 > m.limits.maxSteps then throw _ else pure () : Exec Unit) _ = _
  rw [if_neg (by omega)]
  rfl

/-- At the limit a unit of work is refused, and counted none the less. -/
theorem tick_of_le (h : m.limits.maxSteps ≤ m.work) :
    tick m = .error (.stepLimit m.limits.maxSteps) { m with work := m.work + 1 } := by
  change (if m.work + 1 > m.limits.maxSteps then throw _ else pure () : Exec Unit) _ = _
  rw [if_pos (by omega)]
  rfl

/-- With or without a fault, one more step is counted. -/
theorem after_tick (m : Machine) : tick.after m = { m with work := m.work + 1 } := by
  rcases Nat.lt_or_ge m.work m.limits.maxSteps with h | h
  · exact after_of_ok (tick_of_lt h)
  · exact after_of_error (tick_of_le h)

theorem eq_of_tick {u : Unit} (h : tick m = .ok u m') : m' = { m with work := m.work + 1 } :=
  (after_of_ok h).symm.trans (after_tick m)

/-- Below the limit a call gets its frame. -/
theorem pushFrame_of_lt {name : String} {line : Nat}
    (h : m.frames.length < m.limits.maxCallDepth) :
    pushFrame name line m = .ok () { m with frames := ⟨name, line⟩ :: m.frames } := by
  change (if m.frames.length ≥ m.limits.maxCallDepth then throw _ else set _ : Exec Unit) m = _
  rw [if_neg (by omega)]
  rfl

/-- At the limit a call is refused. -/
theorem pushFrame_of_le {name : String} {line : Nat}
    (h : m.limits.maxCallDepth ≤ m.frames.length) :
    pushFrame name line m = .error .callDepth m := by
  change (if m.frames.length ≥ m.limits.maxCallDepth then throw _ else set _ : Exec Unit) m = _
  rw [if_pos h]
  rfl

/-! ## Faults that are held up -/

theorem fault_of_isThrown (h : f.isThrown = true) : ∃ t : Thrown, f = t.fault := by
  cases f <;> first | exact ⟨⟨_, _, _⟩, rfl⟩ | cases h

theorem catchThrown_of_ok (h : x m = .ok a m') : catchThrown x m = .ok (.ok a) m' := by
  rw [catchThrown, h]

/-- What was thrown is caught. -/
theorem catchThrown_of_thrown {t : Thrown} (h : x m = .error t.fault m') :
    catchThrown x m = .ok (.error t) m' := by
  rw [catchThrown, h]
  rfl

/-- What was not thrown is not caught. -/
theorem catchThrown_of_error (h : x m = .error f m') (hf : f.isThrown = false) :
    catchThrown x m = .error f m' := by
  rw [catchThrown, h]
  cases f <;> first | rfl | cases hf

/-- What is caught is the value of the action or what it threw. -/
theorem catchThrown_eq_ok {r : Except Thrown α} (h : catchThrown x m = .ok r m') :
    (∃ a, r = .ok a ∧ x m = .ok a m') ∨ ∃ t, r = .error t ∧ x m = .error t.fault m' := by
  cases hx : x m with
  | ok a m₁ =>
    cases (catchThrown_of_ok hx).symm.trans h
    exact .inl ⟨a, rfl, rfl⟩
  | error f m₁ =>
    cases hf : f.isThrown with
    | true =>
      obtain ⟨t, rfl⟩ := fault_of_isThrown hf
      cases (catchThrown_of_thrown hx).symm.trans h
      exact .inr ⟨t, rfl, rfl⟩
    | false => cases (catchThrown_of_error hx hf).symm.trans h

/-- Only what is not thrown passes by a handler. -/
theorem catchThrown_eq_error (h : catchThrown x m = .error f m') :
    x m = .error f m' ∧ f.isThrown = false := by
  cases hx : x m with
  | ok a m₁ => cases (catchThrown_of_ok hx).symm.trans h
  | error g m₁ =>
    cases hg : g.isThrown with
    | true =>
      obtain ⟨t, rfl⟩ := fault_of_isThrown hg
      cases (catchThrown_of_thrown hx).symm.trans h
    | false =>
      cases (catchThrown_of_error hx hg).symm.trans h
      exact ⟨rfl, hg⟩

/-! ## Steps behind an action -/

variable {scope : ScopeId} {line : Nat} {kind : StepKind} {description : String}

/-- The step comes behind what ends well. -/
theorem followedBy_of_ok (h : x m = .ok a m') :
    followedBy x (record scope line kind description) m =
      .ok a (m'.recorded scope line kind description) := by
  rw [followedBy, h]
  rfl

/-- The step comes behind what fails, too. -/
theorem followedBy_of_error (h : x m = .error f m') :
    followedBy x (record scope line kind description) m =
      .error f (m'.recorded scope line kind description) := by
  rw [followedBy, h]
  rfl

/-- The step is shown only if the action has shown none. -/
theorem orElseShow_of_ok {y : Exec Unit} (h : x m = .ok a m') :
    orElseShow x y m = if m'.steps.size = m.steps.size then y m' else .ok () m' := by
  have hd : (discard x : Exec PUnit) m = .ok () m' := bind_of_ok h
  change ((discard x : Exec PUnit) >>= fun _ => _) m = _
  rw [bind_of_ok hd]
  change (if _ then y else pure ()) m' = _
  split
  · rfl
  · rfl

/-- Behind a fault no step is shown. -/
theorem orElseShow_of_error {y : Exec Unit} (h : x m = .error f m') :
    orElseShow x y m = .error f m' := by
  have hd : (discard x : Exec PUnit) m = .error f m' := bind_of_error h
  change ((discard x : Exec PUnit) >>= fun _ => _) m = _
  exact bind_of_error hd

/-! ## What is done behind an action depends on how it ends -/

theorem bind_congr {y : Exec α} (h : x m = y m) : (x >>= k) m = (y >>= k) m := by
  change EStateM.bind x k m = EStateM.bind y k m
  rw [EStateM.bind, EStateM.bind, h]

theorem catchThrown_congr {y : Exec α} (h : x m = y m) : catchThrown x m = catchThrown y m := by
  rw [catchThrown, catchThrown, h]

theorem followedBy_congr {y : Exec α} {z : Exec Unit} (h : x m = y m) :
    followedBy x z m = followedBy y z m := by
  rw [followedBy, followedBy, h]

theorem orElseShow_congr {y : Exec α} {z : Exec Unit} (h : x m = y m) :
    orElseShow x z m = orElseShow y z m := by
  cases hx : x m with
  | ok a m₁ => rw [orElseShow_of_ok hx, orElseShow_of_ok (h.symm.trans hx)]
  | error f m₁ => rw [orElseShow_of_error hx, orElseShow_of_error (h.symm.trans hx)]

/-! ## The machine behind them -/

theorem after_bind_of_ok (h : x m = .ok a m') : (x >>= k).after m = (k a).after m' :=
  after_congr (bind_of_ok h)

theorem after_bind_of_error (h : x m = .error f m') : (x >>= k).after m = m' :=
  after_of_error (bind_of_error h)

/-- A fault that is held up has done what it did. -/
theorem after_catchThrown (x : Exec α) (m : Machine) : (catchThrown x).after m = x.after m := by
  cases h : x m with
  | ok a m₁ => rw [after_of_ok (catchThrown_of_ok h), after_of_ok h]
  | error f m₁ =>
    rw [after_of_error h]
    cases hf : f.isThrown with
    | true =>
      obtain ⟨t, rfl⟩ := fault_of_isThrown hf
      exact after_of_ok (catchThrown_of_thrown h)
    | false => exact after_of_error (catchThrown_of_error h hf)

theorem after_followedBy :
    (followedBy x (record scope line kind description)).after m =
      (x.after m).recorded scope line kind description := by
  cases h : x m with
  | ok a m₁ => rw [after_of_ok (followedBy_of_ok h), after_of_ok h]
  | error f m₁ => rw [after_of_error (followedBy_of_error h), after_of_error h]

/-- The step behind an action is recorded or left out. -/
theorem after_orElseShow :
    (orElseShow x (record scope line kind description)).after m = x.after m ∨
      (orElseShow x (record scope line kind description)).after m =
        (x.after m).recorded scope line kind description := by
  cases h : x m with
  | ok a m₁ =>
    rw [after_of_ok h]
    by_cases hsize : m₁.steps.size = m.steps.size
    · exact .inr (after_of_ok ((orElseShow_of_ok h).trans (if_pos hsize)))
    · exact .inl (after_of_ok ((orElseShow_of_ok h).trans (if_neg hsize)))
  | error f m₁ => exact .inl (by rw [after_of_error (orElseShow_of_error h), after_of_error h])

end ScriptTrace.Exec

namespace ScriptTrace

/-! ## How runs end -/

section

variable {limits : Limits} {fuel : Nat} {program : Syntax.Program} {m : Machine}

/-- A program that ends well ends as it is. -/
theorem finalMachine_of_ok
    (h : (Evaluator.bounded fuel).runProgram program (.initial limits) = .ok () m) :
    finalMachine limits fuel program = m := by
  rw [finalMachine, h]

/-- A program that fails ends with the step of its fault. -/
theorem finalMachine_of_error {f : Fault}
    (h : (Evaluator.bounded fuel).runProgram program (.initial limits) = .error f m) :
    finalMachine limits fuel program = m.recorded m.scope f.line .error f.message := by
  rw [finalMachine, h]

/-- The message of a trace is that of its last step. -/
theorem errorOf_recorded {m : Machine} {scope : ScopeId} {line : Nat} {kind : StepKind}
    {description : String} : Result.errorOf (m.recorded scope line kind description).steps =
      if kind = .error then some description else none := by
  rw [Result.errorOf, Machine.recorded, Array.back?_push, Option.filter_some]
  by_cases hk : kind = .error <;> simp [hk, Machine.view]

theorem runWithin_of_program {source : String} (hblank : source.toList.all Text.isBlank = false)
    (hread : Syntax.readProgram source = .ok program) :
    runWithin limits fuel source = .ofSteps (finalMachine limits fuel program).steps := by
  rw [runWithin, hblank, hread]
  rfl

theorem runWithin_of_unreadable {source : String} {e : Syntax.SyntaxError}
    (hblank : source.toList.all Text.isBlank = false)
    (hread : Syntax.readProgram source = .error e) :
    runWithin limits fuel source = .empty (some e.text) := by
  rw [runWithin, hblank, hread]
  rfl

theorem runWithin_of_blank {source : String} (hblank : source.toList.all Text.isBlank = true) :
    runWithin limits fuel source = .empty none := by
  rw [runWithin, hblank]
  rfl

/-- A trace is empty, or that of a run of a program. -/
theorem runWithin_steps (limits : Limits) (fuel : Nat) (source : String) :
    (runWithin limits fuel source).steps = #[] ∨
      ∃ program, Syntax.readProgram source = .ok program ∧
        (runWithin limits fuel source).steps = (finalMachine limits fuel program).steps := by
  unfold runWithin
  split
  · exact .inl rfl
  · split
    · exact .inl rfl
    · exact .inr ⟨_, ‹_›, rfl⟩

end

end ScriptTrace
