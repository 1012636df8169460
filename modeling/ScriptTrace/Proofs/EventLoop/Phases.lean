import Mathlib.Computability.RegularExpressions
import ScriptTrace.Proofs.CallTrace
import ScriptTrace.Proofs.EventLoop.Microtasks

/-!
# Proofs/EventLoop/Phases — the phases of a run

Only the event loop enters phases, and it shows each one that it enters.  So every picture of a
program that runs carries the phase that was shown last (`Machine.KeepsPhase`), and what the loop
shows between activities is a word of a regular language:

    executing microtasks? (macrotasks microtasks?)*

An activity that ends without a fault leaves no call open, so all that the loop shows itself it
shows on an empty call stack.
-/

namespace ScriptTrace

/-! ## Words of phases -/

/-- **The phases of a run** that is not over. -/
def phasePattern : RegularExpression Phase :=
  .char .executing * (1 + .char .microtasks) *
    .star (.char .macrotasks * (1 + .char .microtasks))

/-- The phases that the event loop shows. -/
def phaseWord (ss : List Step) : List Phase :=
  (ss.filter (·.kind = .eventLoop)).map Step.phase

/-- The phase that drains microtasks, if there are any. -/
def draining (b : Bool) : List Phase := if b then [.microtasks] else []

/-- Microtasks have a phase of their own, or none. -/
theorem mem_draining {w : List Phase} :
    w ∈ (1 + .char .microtasks : RegularExpression Phase).matches' ↔ ∃ b, draining b = w := by
  rw [RegularExpression.matches'_add, RegularExpression.matches'_epsilon,
    RegularExpression.matches'_char, Language.mem_add, Language.mem_one, Bool.exists_bool]
  exact or_congr eq_comm eq_comm

/-- A phase with its microtasks is one word of the pattern. -/
theorem mem_after {p : Phase} {w : List Phase} :
    w ∈ (.char p * (1 + .char .microtasks) : RegularExpression Phase).matches' ↔
      ∃ b, p :: draining b = w := by
  rw [RegularExpression.matches'_mul, RegularExpression.matches'_char, Language.mem_mul]
  constructor
  · rintro ⟨v, rfl, u, hu, rfl⟩
    obtain ⟨b, rfl⟩ := mem_draining.mp hu
    exact ⟨b, rfl⟩
  · rintro ⟨b, rfl⟩
    exact ⟨[p], rfl, _, mem_draining.mpr ⟨b, rfl⟩, rfl⟩

/-- **The words of the pattern**: the program and then turns, each with microtasks or without. -/
theorem mem_phasePattern {w : List Phase} : w ∈ phasePattern.matches' ↔
    ∃ (b : Bool) (turns : List Bool),
      w = (.executing :: draining b) ++ turns.flatMap fun b => .macrotasks :: draining b := by
  rw [phasePattern, RegularExpression.matches'_mul, RegularExpression.matches'_star,
    Language.mem_mul]
  have hturns (v : List Phase) :
      v ∈ KStar.kstar (RegularExpression.matches' (.char .macrotasks * (1 + .char .microtasks))) ↔
        ∃ turns : List Bool, (turns.flatMap fun b => .macrotasks :: draining b) = v := by
    rw [Language.mem_kstar]
    constructor
    · rintro ⟨L, rfl, hL⟩
      have hrange : L ∈ Set.range (List.map fun b => .macrotasks :: draining b) := by
        rw [Set.range_list_map]
        exact fun y hy => mem_after.mp (hL y hy)
      obtain ⟨turns, rfl⟩ := hrange
      exact ⟨turns, rfl⟩
    · rintro ⟨turns, rfl⟩
      refine ⟨_, rfl, fun y hy => ?_⟩
      obtain ⟨b, -, rfl⟩ := List.mem_map.mp hy
      exact mem_after.mpr ⟨b, rfl⟩
  constructor
  · rintro ⟨v, hv, u, hu, rfl⟩
    obtain ⟨b, rfl⟩ := mem_after.mp hv
    obtain ⟨turns, rfl⟩ := (hturns u).mp hu
    exact ⟨b, turns, rfl⟩
  · rintro ⟨b, turns, rfl⟩
    exact ⟨_, mem_after.mpr ⟨b, rfl⟩, _, (hturns _).mpr ⟨turns, rfl⟩, rfl⟩

theorem mem_start : [.executing] ∈ phasePattern.matches' := mem_phasePattern.mpr ⟨false, [], rfl⟩

/-- Macrotasks may follow every phase. -/
theorem mem_macrotask {w : List Phase} (hw : w ∈ phasePattern.matches') :
    w ++ [.macrotasks] ∈ phasePattern.matches' := by
  obtain ⟨b, turns, rfl⟩ := mem_phasePattern.mp hw
  refine mem_phasePattern.mpr ⟨b, turns ++ [false], ?_⟩
  rw [List.flatMap_append, List.append_assoc]
  rfl

/-- Microtasks may follow every other phase. -/
theorem mem_microtasks {w : List Phase} (hw : w ∈ phasePattern.matches')
    (hlast : w.getLast? ≠ some .microtasks) : w ++ [.microtasks] ∈ phasePattern.matches' := by
  obtain ⟨b, turns, rfl⟩ := mem_phasePattern.mp hw
  rcases List.eq_nil_or_concat turns with rfl | ⟨turns, b', rfl⟩
  · cases b with
    | false => exact mem_phasePattern.mpr ⟨true, [], rfl⟩
    | true => exact absurd rfl hlast
  · cases b' with
    | false =>
      refine mem_phasePattern.mpr ⟨b, turns ++ [true], ?_⟩
      simp [draining]
    | true =>
      refine absurd ?_ hlast
      rw [List.concat_eq_append, List.flatMap_append, ← List.append_assoc, List.getLast?_append]
      rfl

/-! ## Traces in phases -/

/-- What the event loop shows of itself: a phase that it enters, a macrotask or a microtask that it
runs. -/
def Step.IsTurn (s : Step) : Prop :=
  s.kind = .eventLoop ∨ s.kind = .macrotask ∨
    (s.kind = .microtask ∧ ∃ label, s.description = "Run microtask " ++ label)

/-- **A trace in phases.** -/
structure InPhases (ss : List Step) : Prop where
  /-- Every other step carries the phase that the event loop showed last. -/
  carried : ∀ {before s after}, ss = before ++ s :: after → s.kind ≠ .eventLoop →
    (phaseWord before).getLast? = some s.phase
  /-- What the event loop shows it shows on an empty call stack. -/
  callStack : ∀ s ∈ ss, s.IsTurn → s.callStack = []
  /-- The microtasks are drained if there are any, and before the next macrotask and the end. -/
  microtasks : ∀ s ∈ ss, s.kind = .eventLoop →
    (s.phase = .microtasks → s.microtasks ≠ []) ∧
      (s.phase = .macrotasks ∨ s.phase = .idle → s.microtasks = [])

section

variable {ss : List Step} {s : Step}

@[simp] theorem phaseWord_append (ss ss' : List Step) :
    phaseWord (ss ++ ss') = phaseWord ss ++ phaseWord ss' := by
  simp [phaseWord]

theorem phaseWord_eventLoop (hs : s.kind = .eventLoop) : phaseWord [s] = [s.phase] := by
  simp [phaseWord, hs]

theorem phaseWord_other (hs : s.kind ≠ .eventLoop) : phaseWord [s] = [] := by
  simp [phaseWord, hs]

theorem InPhases.nil : InPhases [] where
  carried h := by cases List.append_eq_nil_iff.mp h.symm |>.2
  callStack s hs := absurd hs List.not_mem_nil
  microtasks s hs := absurd hs List.not_mem_nil

/-- One step more. -/
theorem InPhases.snoc (h : InPhases ss)
    (hphase : s.kind ≠ .eventLoop → (phaseWord ss).getLast? = some s.phase)
    (hstack : s.IsTurn → s.callStack = [])
    (hqueue : s.kind = .eventLoop → (s.phase = .microtasks → s.microtasks ≠ []) ∧
      (s.phase = .macrotasks ∨ s.phase = .idle → s.microtasks = [])) : InPhases (ss ++ [s]) where
  carried := by
    intro before s' after hsplit hs'
    rcases split_last hsplit with ⟨rfl, rfl⟩ | ⟨rest, hrest⟩
    · exact hphase hs'
    · exact h.carried hrest hs'
  callStack s' hs' := by
    rcases List.mem_append.mp hs' with hs' | hs'
    · exact h.callStack s' hs'
    · obtain rfl := List.mem_singleton.mp hs'
      exact hstack
  microtasks s' hs' := by
    rcases List.mem_append.mp hs' with hs' | hs'
    · exact h.microtasks s' hs'
    · obtain rfl := List.mem_singleton.mp hs'
      exact hqueue

/-- A trace goes on in the phase that was shown last. -/
theorem InPhases.append (h : InPhases ss) {phase : Phase}
    (hlast : (phaseWord ss).getLast? = some phase) {ss' : List Step}
    (hss' : ∀ s ∈ ss', s.phase = phase ∧ ¬ s.IsTurn) :
    InPhases (ss ++ ss') ∧ phaseWord (ss ++ ss') = phaseWord ss := by
  induction ss' generalizing ss with
  | nil => simpa using h
  | cons s ss' ih =>
    obtain ⟨⟨hs, hturn⟩, hss'⟩ := List.forall_mem_cons.mp hss'
    have hloop : s.kind ≠ .eventLoop := fun hk => hturn (.inl hk)
    have hword : phaseWord (ss ++ [s]) = phaseWord ss := by
      rw [phaseWord_append, phaseWord_other hloop, List.append_nil]
    have hsnoc : InPhases (ss ++ [s]) :=
      h.snoc (fun _ => hs ▸ hlast) (fun ht => absurd ht hturn) fun hk => absurd hk hloop
    rw [List.append_cons, ← hword]
    exact ih hsnoc (hword ▸ hlast) hss'

end

/-- **A machine in a phase**: its trace is in phases, the last one is its own. -/
structure Machine.Phased (m : Machine) : Prop where
  trace : InPhases m.steps.toList
  word : phaseWord m.steps.toList ∈ phasePattern.matches'
  latest : (phaseWord m.steps.toList).getLast? = some m.phase

namespace Machine

variable {m m₁ m' : Machine} {scope : ScopeId} {line : Nat} {kind : StepKind}
  {description : String} {phase : Phase}

theorem recorded_steps : (m.recorded scope line kind description).steps.toList =
    m.steps.toList ++ [m.view scope line kind description] := by
  simp [recorded]

/-! ## Inside of programs -/

/-- **The phase is kept**: what is shown carries it and is not shown by the event loop. -/
structure KeepsPhase (m m' : Machine) : Prop where
  phase : m'.phase = m.phase
  shows : ∃ ss, m'.steps.toList = m.steps.toList ++ ss ∧
    ∀ s ∈ ss, s.phase = m.phase ∧ ¬ s.IsTurn

namespace KeepsPhase

theorem idle (hp : m'.phase = m.phase) (hs : m'.steps = m.steps) : m.KeepsPhase m' :=
  ⟨hp, [], by rw [hs, List.append_nil], fun _ h => absurd h List.not_mem_nil⟩

/-- What keeps the phase does so in two stretches. -/
theorem trans (h₁ : m.KeepsPhase m₁) (h₂ : m₁.KeepsPhase m') : m.KeepsPhase m' := by
  obtain ⟨ss, hs, hss⟩ := h₁.shows
  obtain ⟨ss', hs', hss'⟩ := h₂.shows
  refine ⟨h₂.phase.trans h₁.phase, ss ++ ss', by rw [hs', hs, List.append_assoc], fun s h => ?_⟩
  rcases List.mem_append.mp h with h | h
  · exact hss s h
  · exact h₁.phase ▸ hss' s h

/-- A step that is no turn keeps the phase. -/
theorem recorded (hp : m₁.phase = m.phase) (hs : m₁.steps = m.steps)
    (ht : ¬ (m₁.view scope line kind description).IsTurn) :
    m.KeepsPhase (m₁.recorded scope line kind description) := by
  refine ⟨hp, [_], by rw [recorded_steps, hs], fun s h => ?_⟩
  obtain rfl := List.mem_singleton.mp h
  exact ⟨hp, ht⟩

/-- A machine stays in its phase. -/
theorem phased (h : m.KeepsPhase m') (hm : m.Phased) : m'.Phased := by
  obtain ⟨ss, hs, hss⟩ := h.shows
  obtain ⟨htrace, hword⟩ := hm.trace.append hm.latest hss
  rw [← hs] at htrace hword
  exact ⟨htrace, hword ▸ hm.word, by rw [hword, h.phase, hm.latest]⟩

/-- No step of a program is one of the event loop. -/
theorem not_isTurn (hk : kind.isOrdinary = true) :
    ¬ (m.view scope line kind description).IsTurn := by
  rintro (rfl | rfl | ⟨rfl, -⟩)
  all_goals cases hk

/-- The step that shows a microtask in the queue does not show it running. -/
theorem not_isTurn_queued {name : String} :
    ¬ (m.view scope line .microtask
      ("queueMicrotask(" ++ name ++ ")" ++ " added to the microtask queue")).IsTurn := by
  rintro (h | h | ⟨-, label, h⟩)
  · cases h
  · cases h
  · have hchars := congrArg String.toList h
    simp [Machine.view] at hchars

variable {W : World} {α : Type} {x : Exec α} {P : α → Prop}

theorem of_ok {a : α} (hx : x m = .ok a m') (h : m.KeepsPhase m') : m.KeepsPhase (x.after m) := by
  rwa [Exec.after_of_ok hx]

/-- To write to the heap keeps the phase. -/
theorem writing {y : Exec Unit} (h : Writing W m.heap y) : m.KeepsPhase (y.after m) := by
  induction h with
  | skip | change | misuse | raise => exact .idle rfl rfl
  | withHeap _ ih => exact ih
  | withCeiling _ ih => exact ih m.limits.maxLength

/-- A program cannot change the phase. -/
theorem elementary (h : Elementary .script Set.univ x P) (m : Machine) :
    m.KeepsPhase (x.after m) := by
  cases h with
  | write h => exact .writing (h m.heap (within_univ _))
  | flattened => exact Exec.after_flattened .. ▸ .idle rfl rfl
  | tick => exact Exec.after_tick m ▸ .idle rfl rfl
  | @addReaction id r =>
    rcases Exec.addReaction_cases id r m with
      ⟨-, hadd⟩ | ⟨rs, -, hadd⟩ | ⟨outcome, rs, label, -, -, hadd⟩
    all_goals exact .of_ok hadd (.idle rfl rfl)
  | @settle id outcome line _ _ ho =>
    rcases Exec.settleFlat_cases id line m ho with
      hsettle | ⟨rs, tasks, description, -, -, -, hsettle⟩
    · exact .of_ok hsettle (.idle rfl rfl)
    · exact .of_ok hsettle (.recorded rfl rfl (not_isTurn rfl))
  | record _ hk => exact .recorded rfl rfl (not_isTurn hk)
  | recordHere hk =>
    exact .recorded rfl rfl (not_isTurn (StepKind.isOrdinary_of_isAside hk))
  | print => exact .recorded rfl rfl nofun
  | showQueued => exact .recorded rfl rfl not_isTurn_queued
  | enterPhase h | showMicrotask h | showMacrotask h | nextMicrotask? h | hasMicrotask h
  | nextCallback? h | awaitsTimers h | moveTimers h => cases h
  | _ => exact .idle rfl rfl

end KeepsPhase

end Machine

/-- What happens step by step in a program keeps the phase. -/
theorem keepsPhase_stepwise :
    (Invariant.ofMoves fun m _ m' => m.KeepsPhase m').Stepwise .script where
  safe := Invariant.safe_ofMoves _
  refl _ := .idle rfl rfl
  trans := .trans
  caught := id
  acts h _ hW := .elementary (by exact hW ▸ h) _
  exhausts _ := .idle rfl rfl
  makes _ h := by
    cases h
    all_goals exact .idle rfl rfl
  call _ h := by
    cases h with
    | push | tooDeep | pop => exact .idle rfl rfl
    | showCall | showReturn => exact .recorded rfl rfl nofun
  shown h _ _ := h.trans (.recorded rfl rfl nofun)

/-- **What happens inside of a program keeps the phase**, however it ends. -/
theorem Action.keepsPhase {α : Type} {x : Evaluator → Exec α} {Q : World → α → Prop}
    (hx : Action .script Set.univ x Q) (fuel : Nat) (m : Machine) :
    m.KeepsPhase ((x (.bounded fuel)).after m) :=
  hx.moves keepsPhase_stepwise.lawful m

/-- A call that has ended has left no frame behind. -/
theorem Action.frames_eq {l : Layer} [l.Executes] {α : Type} {x : Evaluator → Exec α}
    {Q : World → α → Prop} (hx : Action l Set.univ x Q) {fuel : Nat} {m m' : Machine} {a : α}
    (h : x (.bounded fuel) m = .ok a m') : m'.frames = m.frames := by
  have htraced : Traced m ((x (.bounded fuel)).faultOf m) ((x (.bounded fuel)).after m) :=
    Action.moves (traced_lawful l) hx m
  rw [Exec.faultOf_of_ok h, Exec.after_of_ok h] at htraced
  exact htraced.frames_eq

/-! ## Between activities -/

/-- What the event loop shows when it enters a phase. -/
structure Machine.Enters (m : Machine) (phase : Phase) : Prop where
  frames : m.frames = []
  microtasks : phase = .microtasks → m.microtasks ≠ []
  drained : phase = .macrotasks ∨ phase = .idle → m.microtasks = []

namespace Machine

variable {m : Machine} {phase : Phase} {scope : ScopeId} {line : Nat} {kind : StepKind}
  {description : String}

theorem entering_steps : (m.entering phase description).steps.toList = m.steps.toList ++
    [view { m with phase } Scopes.globalId 0 .eventLoop description] := recorded_steps

theorem entering_word : phaseWord (m.entering phase description).steps.toList =
    phaseWord m.steps.toList ++ [phase] := by
  rw [entering_steps, phaseWord_append, phaseWord_eventLoop rfl]
  rfl

/-- A phase that may begin here keeps the trace in order. -/
theorem entering_trace (hm : InPhases m.steps.toList) (h : m.Enters phase) :
    InPhases (m.entering phase description).steps.toList := by
  rw [entering_steps]
  refine hm.snoc (fun hk => absurd rfl hk) (fun _ => ?_) fun _ => ⟨fun hp => ?_, fun hp => ?_⟩
  · exact congrArg List.reverse h.frames
  · exact mt List.map_eq_nil_iff.mp (h.microtasks hp)
  · exact List.map_eq_nil_iff.mpr (h.drained hp)

namespace Phased

/-- A machine that enters a phase in its turn stays in order. -/
theorem entering (hm : m.Phased) (h : m.Enters phase)
    (hword : phaseWord m.steps.toList ++ [phase] ∈ phasePattern.matches') :
    (m.entering phase description).Phased where
  trace := entering_trace hm.trace h
  word := entering_word ▸ hword
  latest := by
    rw [entering_word, List.getLast?_concat]
    rfl

/-- A step that is none of a phase. -/
theorem recorded (hm : m.Phased) (hk : kind ≠ .eventLoop)
    (hf : (m.view scope line kind description).IsTurn → m.frames = []) :
    (m.recorded scope line kind description).Phased := by
  have hword : phaseWord (m.recorded scope line kind description).steps.toList =
      phaseWord m.steps.toList := by
    rw [recorded_steps, phaseWord_append, phaseWord_other hk, List.append_nil]
  refine ⟨?_, hword ▸ hm.word, hword ▸ hm.latest⟩
  rw [recorded_steps]
  exact hm.trace.snoc (fun _ => hm.latest) (fun ht => congrArg List.reverse (hf ht))
    fun h => absurd h hk

/-- A fault that is shown is none of a phase either. -/
theorem faulted (hm : m.Phased) (f : Fault) :
    (m.recorded m.scope f.line .error f.message).Phased := by
  refine hm.recorded (fun h => ?_) fun h => ?_
  · cases h
  · rcases h with h | h | ⟨h, -⟩
    all_goals cases h

end Phased

end Machine

/-- The stages of a turn at which none of its microtasks has been drained. -/
def Stage.isEarly : Stage → Bool
  | .begins .script | .begins (.task .macrotasks _) | .drain => true
  | _ => false

/-- **Between activities** no call is open, and the microtasks of a turn are drained only once. -/
structure Machine.Rests (m : Machine) (s : Stage) : Prop where
  phased : m.Phased
  frames : m.frames = []
  early : s.isEarly = true → m.phase ≠ .microtasks

/-- **Phases at a stage of a run.**  Of the inside of activities a course says too little. -/
def Stage.Phased (m : Machine) : Stage → Prop
  | .inside _ => True
  | .over none => ∃ m₀ : Machine, m = m₀.idling ∧ m₀.Rests .emptied ∧ m₀.microtasks = []
  | .over (some _) => m.Phased
  | s => m.Rests s

section

variable {limits : Limits} {program : Syntax.Program} {es : List Event} {s : Stage} {m m' : Machine}
  {t : Task} {rest : List Task}

/-- What neither shows a step nor enters a phase leaves a machine in its phase. -/
theorem Machine.Phased.congr (hm : m.Phased) (hp : m'.phase = m.phase) (hs : m'.steps = m.steps) :
    m'.Phased := (KeepsPhase.idle hp hs).phased hm

namespace Machine.Rests

/-- The microtasks begin when there are some. -/
theorem draining (hm : m.Rests .drain) (hq : m.microtasks ≠ []) :
    m.draining.Rests .microtasks := by
  have hword := mem_microtasks hm.phased.word fun hlast =>
    hm.early rfl (Option.some.inj (hm.phased.latest.symm.trans hlast))
  exact ⟨hm.phased.entering ⟨hm.frames, fun _ => hq, nofun⟩ hword, hm.frames, nofun⟩

/-- A microtask begins with an empty stack. -/
theorem beginMicrotask (hm : m.Rests .microtasks) :
    (m.beginMicrotask t rest).Rests (.begins (.task .microtasks t)) := by
  have htaken : Machine.Phased
      { m with microtasks := rest, work := m.work + 1, scope := Scopes.globalId } :=
    hm.phased.congr rfl rfl
  exact ⟨htaken.recorded nofun fun _ => hm.frames, hm.frames, nofun⟩

theorem refilled (hm : m.Rests .macrotasks) : m.refilled.Rests .macrotasks := by
  have hmoved : m.KeepsPhase m.refilled := .recorded rfl rfl nofun
  exact ⟨hmoved.phased hm.phased, hm.frames, nofun⟩

/-- A macrotask begins in a phase of its own, and no microtask is left then. -/
theorem beginMacrotask (hm : m.Rests .macrotasks) (hq : m.microtasks = []) :
    (m.beginMacrotask t rest).Rests (.begins (.task .macrotasks t)) := by
  have htaken : Machine.Phased { m with callbacks := rest, work := m.work + 1 } :=
    hm.phased.congr rfl rfl
  have hpicked : (m.picking t rest).Phased :=
    htaken.entering ⟨hm.frames, nofun, fun _ => hq⟩ (mem_macrotask hm.phased.word)
  have hentered : Machine.Phased { m.picking t rest with scope := Scopes.globalId } :=
    hpicked.congr rfl rfl
  exact ⟨hentered.recorded nofun fun _ => hm.frames, hm.frames, nofun⟩

/-- When an activity is over, so are its calls. -/
theorem next {a : Activity} (hm : m.Rests (.begins a)) (hk : m.KeepsPhase m')
    (hf : m'.frames = m.frames) : a.next.Phased m' := by
  have hearly (h : (Stage.begins a).isEarly = true) : m'.phase ≠ .microtasks :=
    hk.phase ▸ hm.early h
  rcases a with _ | ⟨_ | _, t⟩
  · exact ⟨hk.phased hm.phased, hf.trans hm.frames, fun _ => hearly rfl⟩
  · exact ⟨hk.phased hm.phased, hf.trans hm.frames, nofun⟩
  · exact ⟨hk.phased hm.phased, hf.trans hm.frames, fun _ => hearly rfl⟩

end Machine.Rests

/-- **A run goes through phases.** -/
theorem Course.phased (h : Course limits program es s m) : s.Phased m := by
  induction h with
  | start h =>
    obtain ⟨scopes, heap, heq⟩ := Exec.hoistBody_eq Scopes.globalId program (.initial limits)
    cases heq.symm.trans h
    refine ⟨⟨Machine.entering_trace .nil ⟨rfl, nofun, nofun⟩, ?_, ?_⟩, rfl, nofun⟩
    · exact mem_start
    · rfl
  | inside => trivial
  | @ends _ _ a fuel m m' _ h _ ih =>
    have hkeeps := (a.action program).keepsPhase fuel m
    rw [Exec.after_of_ok h] at hkeeps
    exact Machine.Rests.next ih hkeeps ((a.action program).frames_eq h)
  | @fails _ _ a fuel f m m' _ h _ ih =>
    have hkeeps := (a.action program).keepsPhase fuel m
    rw [Exec.after_of_error h] at hkeeps
    exact hkeeps.phased ih.phased
  | drains _ hq ih => exact Machine.Rests.draining ih hq
  | drained _ _ ih | noMicrotask _ _ ih | emptied _ _ _ ih =>
    exact ⟨Machine.Rests.phased ih, Machine.Rests.frames ih, nofun⟩
  | microtask _ _ _ ih => exact Machine.Rests.beginMicrotask ih
  | refill _ _ _ ih => exact Machine.Rests.refilled ih
  | macrotask hc _ _ ih => exact Machine.Rests.beginMacrotask ih (hc.microtasks_eq_nil rfl)
  | overrunMicrotask _ _ _ ih | overrunMacrotask _ _ _ ih =>
    exact (Machine.Rests.phased ih).congr rfl rfl
  | idle hc ih => exact ⟨_, rfl, ih, hc.microtasks_eq_nil rfl⟩
  | exhausted _ hs ih =>
    rcases hs with rfl | rfl
    all_goals exact Machine.Rests.phased ih

end

/-! ## Runs -/

/-- **The phases of a run.**  The trace of every program is in phases.  The phases that the event
loop shows follow the pattern, and behind that a run shows that it is idle if and only if it ends
without an error.  So it is with any fuel. -/
theorem run_in_phases (limits : Limits) (fuel : Nat) (source : String)
    (hblank : source.toList.all Text.isBlank = false)
    (hread : ∃ program, Syntax.readProgram source = .ok program) :
    InPhases (runWithin limits fuel source).steps.toList ∧
      ∃ w ∈ phasePattern.matches', phaseWord (runWithin limits fuel source).steps.toList =
        w ++ if (runWithin limits fuel source).error = none then [.idle] else [] := by
  obtain ⟨program, hread⟩ := hread
  rw [runWithin_of_program hblank hread]
  change InPhases (finalMachine limits fuel program).steps.toList ∧ ∃ w ∈ phasePattern.matches',
    phaseWord (finalMachine limits fuel program).steps.toList =
      w ++ if Result.errorOf (finalMachine limits fuel program).steps = none then [.idle] else []
  obtain ⟨es, hc⟩ := runProgram_course limits program fuel
  cases h : (Evaluator.bounded fuel).runProgram program (.initial limits) with
  | ok u m =>
    rw [Exec.faultOf_of_ok h, Exec.after_of_ok h] at hc
    obtain ⟨m₀, rfl, hm, hqueue⟩ := hc.phased
    have hnone : Result.errorOf m₀.idling.steps = none := errorOf_recorded
    rw [finalMachine_of_ok h, hnone, if_pos rfl]
    refine ⟨Machine.entering_trace hm.phased.trace ⟨hm.frames, fun h => ?_, fun _ => hqueue⟩, ?_⟩
    · cases h
    exact ⟨_, hm.phased.word, Machine.entering_word⟩
  | error f m =>
    rw [Exec.faultOf_of_error h, Exec.after_of_error h] at hc
    have hm : m.Phased := hc.phased
    have hend := hm.faulted f
    rw [finalMachine_of_error h, errorOf_recorded, if_pos rfl, if_neg (Option.some_ne_none _)]
    exact ⟨hend.trace, _, hend.word, (List.append_nil _).symm⟩

/-- A program that leaves a timer and a microtask. -/
def turnUse : String := "setTimeout(String); queueMicrotask(String)"

/-- A program with microtasks and a timer goes through all phases. -/
theorem turnUse_in_phases : InPhases (runWithin .default 60 turnUse).steps.toList ∧
    [.executing, .microtasks, .macrotasks] ∈ phasePattern.matches' ∧
    phaseWord (runWithin .default 60 turnUse).steps.toList =
      [.executing, .microtasks, .macrotasks, .idle] := by
  obtain ⟨hread, hnone, hphases⟩ : (Syntax.readProgram turnUse).isOk = true ∧
      (runWithin .default 60 turnUse).error = none ∧
      phaseWord (runWithin .default 60 turnUse).steps.toList =
        [.executing, .microtasks, .macrotasks, .idle] := by decide +kernel
  have hprogram : ∃ program, Syntax.readProgram turnUse = .ok program := by
    cases h : Syntax.readProgram turnUse with
    | ok program => exact ⟨program, rfl⟩
    | error e =>
      rw [h] at hread
      cases hread
  obtain ⟨htrace, w, hw, hword⟩ := run_in_phases .default 60 turnUse (by decide +kernel) hprogram
  rw [hnone, if_pos rfl, hphases] at hword
  obtain rfl : [.executing, .microtasks, .macrotasks] = w := List.append_cancel_right hword
  exact ⟨htrace, hw, hphases⟩

end ScriptTrace
