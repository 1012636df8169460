import Mathlib.Data.List.Chain
import ScriptTrace.Proofs.EventLoop.Course
import ScriptTrace.Proofs.Room

/-!
# Proofs/Console — the console in the pictures of a run

Every step shows the whole console.  A line is printed in one place only, which shows it at once, so
the console grows from step to step exactly by what the steps of printing print (`Accumulates`), and
the console of the last step is all that they printed.
-/

namespace ScriptTrace

/-- What a step of printing prints: the last line of the console that it shows. -/
def Step.printed? (s : Step) : Option ConsoleEntry :=
  if s.kind = .console then s.console.getLast? else none

/-- **A step that goes on with a console**: a step of printing adds one line and describes it, and
every other step shows the console as it is. -/
def Step.Continues (s : Step) (console : List ConsoleEntry) : Prop :=
  if s.kind = .console then
    ∃ e : ConsoleEntry, s.console = console ++ [e] ∧
      s.description = "console." ++ e.method ++ ": " ++ e.text
  else s.console = console

/-- **A trace that accumulates its console**, from an empty one. -/
structure Accumulates (ss : List Step) : Prop where
  start : ∀ s ∈ ss.head?, s.kind ≠ .console ∧ s.console = []
  order : ss.IsChain fun s t => t.Continues s.console

namespace Step

variable {s : Step} {console : List ConsoleEntry}

/-- A console step prints one line more. -/
theorem Continues.printing {e : ConsoleEntry} (hk : s.kind = .console)
    (hc : s.console = console ++ [e])
    (hd : s.description = "console." ++ e.method ++ ": " ++ e.text) : s.Continues console := by
  rw [Continues, if_pos hk]
  exact ⟨e, hc, hd⟩

theorem Continues.other (hk : s.kind ≠ .console) (hc : s.console = console) :
    s.Continues console := by
  rwa [Continues, if_neg hk]

/-- A step shows what was shown before and what it prints. -/
theorem Continues.console_eq (h : s.Continues console) :
    s.console = console ++ s.printed?.toList := by
  unfold Continues at h
  unfold printed?
  split at h
  · obtain ⟨e, hc, -⟩ := h
    rw [if_pos ‹_›, hc, List.getLast?_concat]
    rfl
  · rw [if_neg ‹_›, h]
    exact (List.append_nil _).symm

end Step

namespace Accumulates

variable {s t : Step} {ss : List Step}

theorem single (hk : s.kind ≠ .console) (hc : s.console = []) : Accumulates [s] where
  start _ hs := Option.some.inj hs ▸ ⟨hk, hc⟩
  order := .singleton s

/-- One more step keeps the console, if it shows what was there before. -/
theorem snoc (h : Accumulates (s :: ss))
    (ht : ∀ last ∈ (s :: ss).getLast?, t.Continues last.console) :
    Accumulates (s :: ss ++ [t]) where
  start := h.start
  order := by
    refine List.isChain_append.mpr ⟨h.order, .singleton t, fun last hlast t' ht' => ?_⟩
    exact Option.some.inj ht' ▸ ht last hlast

/-- The console grows by what is printed on the way. -/
theorem console_of_chain (h : (s :: ss).IsChain fun s t => t.Continues s.console) :
    ((s :: ss).getLast (List.cons_ne_nil s ss)).console =
      s.console ++ ss.filterMap Step.printed? := by
  induction ss generalizing s with
  | nil => exact (List.append_nil _).symm
  | cons t ss ih =>
    obtain ⟨ht, hchain⟩ := List.isChain_cons_cons.mp h
    rw [List.getLast_cons_cons, ih hchain, ht.console_eq, List.append_assoc,
      List.filterMap_cons]
    cases t.printed? <;> rfl

/-- **The last step shows all that was printed.** -/
theorem console_getLast (h : Accumulates ss) :
    (ss.getLast?.map Step.console).getD [] = ss.filterMap Step.printed? := by
  cases ss with
  | nil => rfl
  | cons s ss =>
    obtain ⟨hk, hc⟩ := h.start s rfl
    have hs : s.printed? = none := if_neg hk
    rw [List.getLast?_eq_some_getLast (List.cons_ne_nil s ss), Option.map_some, Option.getD_some,
      console_of_chain h.order, hc, List.filterMap_cons_none hs, List.nil_append]

end Accumulates

/-! ## Machines -/

/-- **A machine whose trace accumulates its console**, which the last step shows. -/
structure Machine.Accumulates (m : Machine) : Prop where
  started : m.steps ≠ #[]
  trace : ScriptTrace.Accumulates m.steps.toList
  shows : m.ShowsConsole

namespace Machine.Accumulates

variable {m m₁ m' : Machine} {scope : ScopeId} {line : Nat} {kind : StepKind}
  {description : String}

/-- One step more. -/
theorem recorded (hm : m.Accumulates) (hs : m₁.steps = m.steps)
    (ht : (m₁.view scope line kind description).Continues m.console.toList) :
    (m₁.recorded scope line kind description).Accumulates where
  started := Array.push_ne_empty
  trace := by
    obtain ⟨started, trace, shows⟩ := hm
    have hlast : ∀ last ∈ m.steps.toList.getLast?, last.console = m.console.toList := by
      intro last hlast
      rw [Machine.ShowsConsole, ← Array.getLast?_toList, hlast] at shows
      exact shows
    have hsteps : (m₁.recorded scope line kind description).steps.toList =
        m.steps.toList ++ [m₁.view scope line kind description] := by
      rw [Machine.recorded, Array.toList_push, hs]
    rw [hsteps]
    cases hlist : m.steps.toList with
    | nil => exact absurd (Array.toList_eq_nil_iff.mp hlist) started
    | cons s ss =>
      rw [hlist] at trace hlast
      exact trace.snoc fun last h => hlast last h ▸ ht
  shows := .recorded

/-- A step that prints nothing. -/
theorem shown (hm : m.Accumulates) (hk : kind ≠ .console) :
    (m.recorded scope line kind description).Accumulates :=
  hm.recorded rfl (.other hk rfl)

/-- An effect that records a step records the console with it. -/
theorem effect {l : Layer} {W : World} {f : Option Fault} (h : Effect l W m f m')
    (hm : m.Accumulates) : m'.Accumulates := by
  cases h with
  | record _ hk | recordHere hk =>
    refine hm.shown ?_
    rintro rfl
    cases hk
  | print => exact hm.recorded rfl (.printing rfl Array.toList_push rfl)
  | enterPhase => exact hm.recorded rfl (.other nofun rfl)
  | showMacrotask => exact hm.shown nofun
  | _ => exact ⟨hm.started, hm.trace, hm.shows⟩

/-- The steps of a call print nothing. -/
theorem call {W : World} {f : Option Fault} (h : CallEffect W m f m') (hm : m.Accumulates) :
    m'.Accumulates := by
  cases h with
  | showCall | showReturn => exact hm.shown nofun
  | _ => exact ⟨hm.started, hm.trace, hm.shows⟩

end Machine.Accumulates

/-- Step by step the console accumulates. -/
theorem accumulates_stepwise (l : Layer) :
    (Invariant.ofMoves fun m _ m' => m.Accumulates → m'.Accumulates).Stepwise l where
  toComposes := .of_effects (Invariant.safe_ofMoves _) (fun _ => id) (fun h h₁ => h₁ ∘ h) id
    fun _ => .effect
  call _ := .call
  shown h _ _ hm := (h hm).shown nofun

/-! ## Runs -/

section

variable {limits : Limits} {program : Syntax.Program} {fuel : Nat}

/-- The first step of a run shows an empty console. -/
theorem accumulates_beginScript (limits : Limits) (program : Syntax.Program) :
    (Machine.hoisted limits program).beginScript.Accumulates := by
  obtain ⟨scopes, heap, h⟩ := Exec.hoistBody_eq Scopes.globalId program (.initial limits)
  have hhoisted : Machine.hoisted limits program = { Machine.initial limits with scopes, heap } :=
    Exec.after_of_ok h
  refine ⟨Array.push_ne_empty, ?_, .recorded⟩
  rw [hhoisted]
  exact .single nofun rfl

/-- Every evaluation behind the first step accumulates the console, and so does the run. -/
theorem accumulates_finalMachine : (finalMachine limits fuel program).Accumulates := by
  have hrest : Action .loop Set.univ (fun ev => Activity.script.exec program ev >>= fun _ =>
      ev.drainMicrotasks >>= fun _ => ev.run .macrotasks >>= fun _ =>
      Exec.enterPhase .idle "Call stack and queues are empty: event loop idle") Free := by
    have hscript : Action .loop Set.univ (Activity.script.exec program) Free :=
      Activity.script.action_within program fun _ _ h => by cases h
    refine .bind hscript fun _ _ _ _ => ?_
    refine .bind .drainMicrotasks fun _ _ _ _ => ?_
    exact .bind (.eval (w := .macrotasks) rfl) fun _ _ _ _ =>
      .elementary (.enterPhase rfl) fun _ => id
  have hrun :
      (((Evaluator.bounded fuel).runProgram program).after (.initial limits)).Accumulates := by
    rw [Exec.after_congr (runProgram_eq (hoistBody_initial limits program) _)]
    exact hrest.moves (accumulates_stepwise .loop).lawful _ (accumulates_beginScript limits program)
  cases h : (Evaluator.bounded fuel).runProgram program (.initial limits) with
  | ok _ m =>
    rw [finalMachine_of_ok h]
    exact Exec.after_of_ok h ▸ hrun
  | error f m =>
    rw [finalMachine_of_error h]
    exact (Exec.after_of_error h ▸ hrun : m.Accumulates).shown nofun

end

/-- **The console view tells what the steps print.**  The first step of a trace shows an empty
console; every step of printing adds one line to the console of the step before, which its
description repeats, and every other step shows the same console.  So the console view of a result
is the list of the texts that its steps of printing print, whether or not it ends in a fault, and
with any fuel. -/
theorem console_tells_printing (limits : Limits) (fuel : Nat) (source : String) :
    Accumulates (runWithin limits fuel source).steps.toList ∧
      (runWithin limits fuel source).consoleTexts =
        ((runWithin limits fuel source).steps.toList.filterMap Step.printed?).map
          ConsoleEntry.text := by
  have htrace : Accumulates (runWithin limits fuel source).steps.toList := by
    rcases runWithin_steps limits fuel source with h | ⟨program, -, h⟩
    · rw [h]
      exact ⟨nofun, .nil⟩
    · rw [h]
      exact accumulates_finalMachine.trace
  refine ⟨htrace, ?_⟩
  rw [← htrace.console_getLast, Array.getLast?_toList, Result.consoleTexts]
  cases (runWithin limits fuel source).steps.back? <;> rfl

end ScriptTrace
