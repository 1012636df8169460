import ScriptTrace.Proofs.EventLoop.Phases
import ScriptTrace.Proofs.Termination.Endless

/-!
# Proofs/EventLoop/Ending — how a run ends

A run ends in one of two ways.  Either nothing is left to do, and the last step shows just that; or
a fault ends it, and the last step is the one step that shows a fault.  With enough fuel the result
does not depend on how much there is, and where no fuel is enough the run goes on without end.
-/

namespace ScriptTrace

/-! ## The two shapes of a trace -/

/-- **A picture of nothing left to do.** -/
structure Step.IsRest (s : Step) : Prop where
  kind : s.kind = .eventLoop
  phase : s.phase = .idle
  callStack : s.callStack = []
  timers : s.timers = []
  callbacks : s.callbacks = []
  microtasks : s.microtasks = []

/-- **A run that did all there was to do.** -/
structure Result.Finishes (r : Result) : Prop where
  error : r.error = none
  last : ∃ s, r.steps.back? = some s ∧ s.IsRest
  sound : ∀ s ∈ r.steps, s.kind ≠ .error

/-- **A run that a fault ended.** -/
structure Result.Fails (f : Fault) (r : Result) : Prop where
  error : r.error = some f.message
  last : ∃ (ss : Array Step) (s : Step), r.steps = ss.push s ∧ s.kind = .error ∧
    s.description = f.message ∧ (f.isThrown = true → s.callStack = []) ∧
    ∀ s' ∈ ss, s'.kind ≠ .error
  busy : ∀ s ∈ r.steps, s.phase ≠ .idle

/-! ## No evaluation shows a fault -/

/-- **A machine that has shown no fault.** -/
def Machine.Sound (m : Machine) : Prop := ∀ s ∈ m.steps, s.kind ≠ .error

namespace Machine.Sound

variable {m m' : Machine} {scope : ScopeId} {line : Nat} {kind : StepKind} {description : String}

/-- A step that shows no error keeps the trace sound. -/
theorem recorded (hm : m.Sound) (hk : kind ≠ .error) :
    (m.recorded scope line kind description).Sound := by
  intro s hs
  rcases Array.mem_push.mp hs with hs | rfl
  · exact hm s hs
  · exact hk

/-- An effect shows no error and no rest. -/
theorem effect {l : Layer} {W : World} {f : Option Fault} (h : Effect l W m f m') (hm : m.Sound) :
    m'.Sound := by
  cases h with
  | record _ hk | recordHere hk =>
    refine hm.recorded ?_
    rintro rfl
    cases hk
  | print | enterPhase | showMacrotask =>
    refine recorded ?_ nofun
    exact hm
  | _ => exact hm

/-- The steps of a call keep the trace sound. -/
theorem call {W : World} {f : Option Fault} (h : CallEffect W m f m') (hm : m.Sound) :
    m'.Sound := by
  cases h with
  | showCall | showReturn => exact hm.recorded nofun
  | _ => exact hm

end Machine.Sound

/-- Step by step the trace stays sound. -/
theorem sound_stepwise (l : Layer) :
    (Invariant.ofMoves fun m _ m' => m.Sound → m'.Sound).Stepwise l where
  toComposes := .of_effects (Invariant.safe_ofMoves _) (fun _ => id) (fun h h₁ => h₁ ∘ h) id
    fun _ => .effect
  call _ := .call
  shown h _ _ hm := (h hm).recorded nofun

theorem Evaluation.sound {α : Type} {x : Evaluator → Exec α} (hx : Evaluation x) (fuel : Nat)
    {m : Machine} (hm : m.Sound) : ((x (.bounded fuel)).after m).Sound :=
  hx.action.moves (sound_stepwise .loop).lawful m hm

/-! ## No phase is idle before the end -/

/-- The idle phase is no part of the pattern: it comes last. -/
theorem idle_not_mem {w : List Phase} (hw : w ∈ phasePattern.matches') : .idle ∉ w := by
  have hdraining (b : Bool) : .idle ∉ draining b := by cases b <;> decide
  obtain ⟨b, turns, rfl⟩ := mem_phasePattern.mp hw
  simp [hdraining]

/-- Every phase that is seen was shown. -/
theorem InPhases.phase_mem {ss : List Step} (h : InPhases ss) {s : Step} (hs : s ∈ ss) :
    s.phase ∈ phaseWord ss := by
  obtain ⟨before, after, rfl⟩ := List.append_of_mem hs
  by_cases hk : s.kind = .eventLoop
  · refine List.mem_map_of_mem (List.mem_filter.mpr ⟨hs, decide_eq_true hk⟩)
  · rw [phaseWord_append]
    exact List.mem_append_left _ (List.mem_of_getLast? (h.carried rfl hk))

theorem Machine.Phased.busy {m : Machine} (hm : m.Phased) : ∀ s ∈ m.steps, s.phase ≠ .idle := by
  intro s hs hidle
  exact idle_not_mem hm.word (hidle ▸ hm.trace.phase_mem (Array.mem_toList_iff.mpr hs))

/-! ## Runs -/

section

variable {limits : Limits} {program : Syntax.Program} {fuel : Nat} {m : Machine} {f : Fault}

/-- An exception that nothing catches unwinds all calls. -/
theorem frames_of_uncaught
    (h : (Evaluator.bounded fuel).runProgram program (.initial limits) = .error f m)
    (hf : f.isThrown = true) : m.frames = [] := by
  obtain ⟨t, -, -, hframes, hcomplete⟩ := finalMachine_tree limits fuel program
  rw [Exec.after_of_error h] at hframes
  rw [Exec.faultOf_of_error h] at hcomplete
  rw [hframes, (hcomplete fun g hg => Option.some.inj hg ▸ hf).left_eq]

theorem sound_runProgram :
    (((Evaluator.bounded fuel).runProgram program).after (.initial limits)).Sound :=
  (Evaluation.runProgram program).sound fuel nofun

/-- A program that comes to its end leaves nothing waiting. -/
theorem finishes_of_ok
    (h : (Evaluator.bounded fuel).runProgram program (.initial limits) = .ok () m) :
    (Result.ofSteps m.steps).Finishes := by
  obtain ⟨es, hc⟩ := runProgram_course limits program fuel
  rw [Exec.faultOf_of_ok h, Exec.after_of_ok h] at hc
  have hsound : m.Sound := Exec.after_of_ok h ▸ sound_runProgram
  obtain ⟨m₀, rfl, hempty⟩ := hc.emptied_of_over
  have hrests : m₀.Rests .emptied := hempty.phased
  obtain ⟨hcallbacks, htimers⟩ := hempty.emptied_queues
  refine ⟨errorOf_recorded, ⟨_, Array.back?_push, rfl, rfl, ?_, ?_, ?_, ?_⟩, hsound⟩
  · exact congrArg List.reverse hrests.frames
  · exact congrArg (List.map _) htimers
  · exact congrArg (List.map _) hcallbacks
  · exact congrArg (List.map _) (hempty.microtasks_eq_nil rfl)

/-- A program that ends in a fault shows it in its last step. -/
theorem fails_of_error
    (h : (Evaluator.bounded fuel).runProgram program (.initial limits) = .error f m) :
    (Result.ofSteps (m.recorded m.scope f.line .error f.message).steps).Fails f := by
  obtain ⟨es, hc⟩ := runProgram_course limits program fuel
  rw [Exec.faultOf_of_error h, Exec.after_of_error h] at hc
  have hsound : m.Sound := Exec.after_of_error h ▸ sound_runProgram
  have hphased : m.Phased := hc.phased
  exact ⟨errorOf_recorded, ⟨_, _, rfl, rfl, rfl,
    fun hf => congrArg List.reverse (frames_of_uncaught h hf), hsound⟩, (hphased.faulted f).busy⟩

/-- A run for which the fuel is enough is the same with more. -/
theorem finalMachine_of_le {fuel' : Nat}
    (h : ((Evaluator.bounded fuel).runProgram program).faultOf (.initial limits) ≠ some .exhausted)
    (hle : fuel ≤ fuel') : finalMachine limits fuel' program =
      finalMachine limits fuel program := by
  have hrun : Action .loop Set.univ (fun ev => ev.runProgram program) Free := .runProgram
  have hsame := (hrun.steady.same (Evaluator.bounded_under hle) (.initial limits)).resolve_left h
  rw [finalMachine, hsame, finalMachine]

end

/-- **How a run ends.**  The trace of a text that is no program is empty, with the message of what
is wrong with it.  A program with enough fuel either does all there is to do, and its last step
shows that nothing is left; or it ends in a fault, which its last step shows and no other, and it
never gets idle.  An exception that nothing catches leaves no call open.  This is the result with
any more fuel, too.  The one exception is a run that is given up for want of fuel; and some fuel is
enough for every program, unless it goes on without end. -/
theorem run_ends (limits : Limits) (source : String)
    (hblank : source.toList.all Text.isBlank = false) :
    (∀ e, Syntax.readProgram source = .error e → ∀ fuel,
      (runWithin limits fuel source).steps = #[] ∧
        (runWithin limits fuel source).error = some e.text) ∧
    ∀ program, Syntax.readProgram source = .ok program →
      let fault (fuel : Nat) :=
        ((Evaluator.bounded fuel).runProgram program).faultOf (.initial limits)
      (∀ fuel, fault fuel ≠ some .exhausted →
        ((fault fuel = none ∧ (runWithin limits fuel source).Finishes) ∨
          ∃ f, fault fuel = some f ∧ (runWithin limits fuel source).Fails f) ∧
        ∀ fuel', fuel ≤ fuel' → runWithin limits fuel' source = runWithin limits fuel source) ∧
      ((∃ fuel, fault fuel ≠ some .exhausted) ∨
        Endless (fun ev => ev.runProgram program) (.initial limits)) := by
  refine ⟨fun e hread fuel => ?_, fun program hread => ⟨fun fuel hfuel => ⟨?_, ?_⟩, ?_⟩⟩
  · rw [runWithin_of_unreadable hblank hread]
    exact ⟨rfl, rfl⟩
  · rw [runWithin_of_program hblank hread]
    cases h : (Evaluator.bounded fuel).runProgram program (.initial limits) with
    | ok _ m =>
      rw [finalMachine_of_ok h]
      exact .inl ⟨Exec.faultOf_of_ok h, finishes_of_ok h⟩
    | error f m =>
      rw [finalMachine_of_error h]
      exact .inr ⟨f, Exec.faultOf_of_error h, fails_of_error h⟩
  · intro fuel' hle
    rw [runWithin_of_program hblank hread, runWithin_of_program hblank hread,
      finalMachine_of_le hfuel hle]
  · by_cases hend : ∃ fuel, ((Evaluator.bounded fuel).runProgram program).faultOf
        (.initial limits) ≠ some .exhausted
    · exact .inl hend
    · have hrun : Action .loop Set.univ (fun ev => ev.runProgram program) Free := .runProgram
      exact .inr (.of_not_ends hrun (Nat.zero_le _) hend)

/-- A program that throws in a call. -/
def throwUse : String := "function f() \x7b throw 1 \x7d f()"

/-- With little fuel, and with any more. -/
theorem throwUse_fails :
    ∃ f, (runWithin .default 30 throwUse).Fails f ∧ f.message = "Uncaught 1" ∧
      ∀ fuel, 30 ≤ fuel → runWithin .default fuel throwUse = runWithin .default 30 throwUse := by
  obtain ⟨hisOk, herror⟩ : (Syntax.readProgram throwUse).isOk = true ∧
      (runWithin .default 30 throwUse).error = some "Uncaught 1" := by decide +kernel
  have hblank : throwUse.toList.all Text.isBlank = false := by decide +kernel
  cases hread : Syntax.readProgram throwUse with
  | error e =>
    rw [hread] at hisOk
    cases hisOk
  | ok program =>
    have hfuel : ((Evaluator.bounded 30).runProgram program).faultOf (.initial .default) ≠
        some .exhausted := by
      intro h
      obtain ⟨m, hm⟩ := Exec.faultOf_eq_some.mp h
      rw [runWithin_of_program hblank hread, finalMachine_of_error hm,
        (fails_of_error hm).error] at herror
      exact absurd (Option.some.inj herror) (by decide)
    obtain ⟨⟨-, h⟩ | ⟨f, -, h⟩, hmore⟩ :=
      ((run_ends .default throwUse hblank).2 program hread).1 30 hfuel
    · cases h.error.symm.trans herror
    · exact ⟨f, h, Option.some.inj (h.error.symm.trans herror), hmore⟩

end ScriptTrace
