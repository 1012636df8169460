import ScriptTrace.Proofs.Nested

/-!
# Proofs/StepLimit — the ceiling on work is exact

Every unit of work is counted before it is done, and the count is compared with the ceiling at once.
So the count passes the ceiling by one if evaluation ends in the fault for it, and never otherwise.
-/

namespace ScriptTrace

/-- **The account of work** between a machine below the ceiling and a later one. -/
structure Metered (m : Machine) (f : Option Fault) (m' : Machine) : Prop where
  limits : m'.limits = m.limits
  below : m.work ≤ m.limits.maxSteps → (∀ n, f ≠ some (.stepLimit n)) →
    m.work ≤ m'.work ∧ m'.work ≤ m.limits.maxSteps
  above : m.work ≤ m.limits.maxSteps → ∀ n, f = some (.stepLimit n) →
    n = m.limits.maxSteps ∧ m'.work = m.limits.maxSteps + 1

namespace Metered

variable {m m₁ m₂ : Machine} {f : Option Fault}

/-- Nothing is counted. -/
theorem idle (hl : m₁.limits = m.limits) (hw : m₁.work = m.work)
    (hf : ∀ n, f ≠ some (.stepLimit n)) : Metered m f m₁ where
  limits := hl
  below h _ := ⟨hw.ge, hw ▸ h⟩
  above _ n h := absurd h (hf n)

/-- Work is counted through two stretches. -/
theorem trans (h₁ : Metered m none m₁) (h₂ : Metered m₁ f m₂) : Metered m f m₂ where
  limits := h₂.limits.trans h₁.limits
  below h hf := by
    obtain ⟨hle, hmax⟩ := h₁.below h nofun
    obtain ⟨hle₂, hmax₂⟩ := h₂.below (h₁.limits ▸ hmax) hf
    exact ⟨hle.trans hle₂, h₁.limits ▸ hmax₂⟩
  above h n hf := by
    have hmax := (h₁.below h nofun).2
    have hover := h₂.above (h₁.limits ▸ hmax) n hf
    rwa [h₁.limits] at hover

/-- A value that is caught was counted as it was thrown. -/
theorem caught {t : Thrown} (h : Metered m (some t.fault) m₁) : Metered m none m₁ where
  limits := h.limits
  below hm _ := h.below hm nofun
  above _ _ hf := by cases hf

/-- An effect counts at most one unit of work. -/
theorem effect {l : Layer} {W : World} (h : Effect l W m f m₁) : Metered m f m₁ := by
  cases h with
  | tick h =>
    exact ⟨rfl, fun _ _ => ⟨Nat.le_succ _, h⟩, nofun⟩
  | overrun h =>
    refine ⟨rfl, fun _ hf => absurd rfl (hf _), fun hm n hf => ?_⟩
    cases hf
    exact ⟨rfl, congrArg (· + 1) (le_antisymm hm h)⟩
  | fail h =>
    refine idle rfl rfl fun n hf => ?_
    cases hf
    cases h
  | _ => exact idle rfl rfl nofun

theorem call {W : World} (h : CallEffect W m f m₁) : Metered m f m₁ := by
  cases h
  all_goals exact idle rfl rfl nofun

end Metered

/-- Step by step the work is metered. -/
theorem metered_stepwise (l : Layer) : (Invariant.ofMoves Metered).Stepwise l where
  toComposes := .of_effects (Invariant.safe_ofMoves _) (fun _ => .idle rfl rfl nofun) .trans .caught
    fun _ => .effect
  call _ := .call
  shown h _ _ := ⟨h.limits, h.below, h.above⟩

/-- **The account of work is kept by every evaluation.** -/
theorem Evaluation.metered {α : Type} {x : Evaluator → Exec α} (hx : Evaluation x) (fuel : Nat)
    (m : Machine) :
    Metered m ((x (.bounded fuel)).faultOf m) ((x (.bounded fuel)).after m) :=
  hx.action.moves (metered_stepwise .loop).lawful m

/-- **The ceiling on work is exact, and a fault that no program can catch is final.**  Evaluation
from a machine below the ceiling passes it by one if it ends in the fault for it and not at all
otherwise. If anything nested in a run ends in a fault other than a thrown value, that fault ends
the run, and of the machine nothing changes on the way but that calls are shown which were about to
begin. -/
theorem ceiling_exact_and_faults_final :
    (∀ {α : Type} {x : Evaluator → Exec α}, Evaluation x → ∀ (fuel : Nat) (m : Machine),
      m.work ≤ m.limits.maxSteps →
      ((∃ n, (x (.bounded fuel)).faultOf m = some (.stepLimit n)) ↔
        ((x (.bounded fuel)).after m).work = m.limits.maxSteps + 1) ∧
      ((∀ n, (x (.bounded fuel)).faultOf m ≠ some (.stepLimit n)) →
        ((x (.bounded fuel)).after m).work ≤ m.limits.maxSteps)) ∧
    ∀ (limits : Limits) (program : Syntax.Program) (fuel : Nat) {β : Type} {w : Work β} {k : Nat}
      {m₁ m₂ : Machine} {f : Fault},
      Nested (fun ev => ev.runProgram program) fuel (.initial limits) w k m₁ →
      w.exec k m₁ = .error f m₂ → f.isThrown = false →
      ∃ m', m₂.ShowsCalls m' ∧
        (Evaluator.bounded fuel).runProgram program (.initial limits) = .error f m' ∧
        finalMachine limits fuel program = m'.recorded m'.scope f.line .error f.message := by
  constructor
  · intro α x hx fuel m hm
    have hmeter := hx.metered fuel m
    refine ⟨⟨fun ⟨n, hn⟩ => (hmeter.above hm n hn).2, fun hwork => ?_⟩,
      fun hf => (hmeter.below hm hf).2⟩
    by_contra hf
    have hle := (hmeter.below hm (not_exists.mp hf)).2
    omega
  · intro limits program fuel β w k m₁ m₂ f hnested hw hf
    obtain ⟨-, -, hend⟩ :=
      Action.nested (metered_stepwise .loop) .runProgram trivial hnested
    obtain ⟨m', hshow, hrun⟩ := hend hw hf
    exact ⟨m', hshow, hrun, finalMachine_of_error hrun⟩

/-- The program `try { x } catch { }`, in which `x` is unknown. -/
def guardedUse : Syntax.Program :=
  [.mk (.try [.mk (.expr (.mk (.name "x") ⟨1, 7⟩)) ⟨1, 7⟩ "x"] (some (.mk none [])) none) ⟨1, 1⟩
    "try { x } catch { }"]

/-- A handler and a finalizer do not hold up a fault that is not thrown. -/
theorem guardedUse_fault_final :
    (((Evaluator.bounded 4).runProgram guardedUse).after (.initial ⟨1, 100, 1024⟩)).work = 2 ∧
    ∃ m', (Evaluator.bounded 4).runProgram guardedUse (.initial .default) =
        .error (.unknownName "x" 1) m' ∧
      finalMachine .default 4 guardedUse =
        m'.recorded m'.scope 1 .error "ReferenceError: x is not defined" := by
  constructor
  · exact (ceiling_exact_and_faults_final.1 (.runProgram guardedUse) 4 _ (by decide)).1.mp ⟨1, rfl⟩
  · obtain ⟨m', -, hrun, hfinal⟩ :=
      ceiling_exact_and_faults_final.2 .default guardedUse 4 (.first rfl) rfl rfl
    exact ⟨m', hrun, hfinal⟩

end ScriptTrace
