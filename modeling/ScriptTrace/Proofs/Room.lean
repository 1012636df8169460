import ScriptTrace.Proofs.Compositional
import ScriptTrace.Proofs.Invariant

/-!
# Proofs/Room — more room changes nothing that was done

    with less room   m ──▸ m₁ ──▸ ⋯ ──▸ mₙ  fault for want of room
    with more room   m ──▸ m₁ ──▸ ⋯ ──▸ mₙ ──▸ mₙ₊₁ ──▸ ⋯

Evaluation asks how much room there is in three places: before a unit of work, before a call and
before a piece of work inside another.  As long as the answer is the same, it does the same
(`Resumes`).  If there is no room, a fault ends it that no program catches, so nothing is done that
would not be done with more room, and with more room what was printed stays printed.
-/

namespace ScriptTrace

/-- The machine with other limits. -/
def Machine.under (m : Machine) (limits : Limits) : Machine := { m with limits }

/-- **Limits that leave no less room**, together with `more` fuel.  `stops` are the faults in which
evaluation may end with less room and not with more. -/
structure Limits.Leaves (L L' : Limits) (more : Nat) (stops : Fault → Prop) : Prop where
  maxLength : L'.maxLength = L.maxLength
  maxSteps : L'.maxSteps = L.maxSteps ∨ L.maxSteps ≤ L'.maxSteps ∧ stops (.stepLimit L.maxSteps)
  maxCallDepth : L'.maxCallDepth = L.maxCallDepth ∨
    L.maxCallDepth ≤ L'.maxCallDepth ∧ stops .callDepth
  fuel : more = 0 ∨ stops .exhausted
  final : ∀ f, stops f → f.isThrown = false

/-! ## What is printed stays printed -/

/-- The console of one machine begins with that of another. -/
def Machine.Prints (m m' : Machine) : Prop := m.console.toList <+: m'.console.toList

namespace Machine.Prints

variable {m m₁ m₂ : Machine} {f : Option Fault}

theorem refl (m : Machine) : m.Prints m := List.prefix_rfl

theorem trans (h : m.Prints m₁) (h₁ : m₁.Prints m₂) : m.Prints m₂ := List.IsPrefix.trans h h₁

/-- An effect takes nothing from the console. -/
theorem effect {l : Layer} {W : World} (h : Effect l W m f m₁) : m.Prints m₁ := by
  cases h with
  | @print e =>
    change m.console.toList <+: (m.console.push e).toList
    rw [Array.toList_push]
    exact List.prefix_append _ _
  | _ => exact .refl m

theorem effects {l : Layer} {W : World} (h : Effects l W m f m₁) : m.Prints m₁ := by
  induction h with
  | one h => exact effect h
  | more h _ ih => exact (effect h).trans ih

theorem call {W : World} (h : CallEffect W m f m₁) : m.Prints m₁ := by
  cases h
  all_goals exact .refl m

theorem pushFrame {name : String} {line : Nat} (m : Machine) :
    m.Prints ((Exec.pushFrame name line).after m) := by
  rcases Nat.lt_or_ge m.frames.length m.limits.maxCallDepth with h | h
  · rw [Exec.after_of_ok (Exec.pushFrame_of_lt h)]
    exact .refl m
  · rw [Exec.after_of_error (Exec.pushFrame_of_le h)]
    exact .refl m

end Machine.Prints

theorem prints_stepwise (l : Layer) :
    (Invariant.ofMoves fun m _ m' => m.Prints m').Stepwise l where
  toComposes := .of_effects (Invariant.safe_ofMoves _) (fun _ => .refl _) .trans id
    fun _ => .effect
  call _ := .call
  shown h _ _ := h

/-- **Every evaluation leaves on the console what is there.** -/
theorem Evaluation.prints {α : Type} {x : Evaluator → Exec α} (hx : Evaluation x) (fuel : Nat)
    (m : Machine) : m.Prints ((x (.bounded fuel)).after m) :=
  hx.action.moves (prints_stepwise .loop).lawful m

/-! ## Doing the same with more room -/

section

variable {L L' : Limits} {more : Nat} {stops : Fault → Prop}

/-- **What an action does with less room and with more**: the same, unless there is too little room
for it; then it would have done the same up to there. -/
inductive Resumes (L L' : Limits) (stops : Fault → Prop) {α : Type} (x x' : Exec α)
    (P : α → Prop) (m : Machine) : Prop
  | ok {a : α} {m₁ : Machine} (h : x m = .ok a m₁) (h' : x' (m.under L') = .ok a (m₁.under L'))
    (hl : m₁.limits = L) (ha : P a) : Resumes L L' stops x x' P m
  | error {f : Fault} {m₁ : Machine} (h : x m = .error f m₁)
    (h' : x' (m.under L') = .error f (m₁.under L')) (hl : m₁.limits = L) :
    Resumes L L' stops x x' P m
  | stopped {f : Fault} {m₁ : Machine} (h : x m = .error f m₁) (hf : stops f)
    (hc : m₁.Prints (x'.after (m.under L'))) : Resumes L L' stops x x' P m

namespace Resumes

variable {α β : Type} {x x' : Exec α} {P R : α → Prop} {m : Machine}

theorem mono (h : Resumes L L' stops x x' P m) (hP : ∀ a, P a → R a) :
    Resumes L L' stops x x' R m := by
  cases h with
  | ok h h' hl ha => exact .ok h h' hl (hP _ ha)
  | error h h' hl => exact .error h h' hl
  | stopped h hf hc => exact .stopped h hf hc

/-- Actions that do the same there. -/
theorem congr {y y' : Exec α} (h : Resumes L L' stops x x' P m) (hy : y m = x m)
    (hy' : y' (m.under L') = x' (m.under L')) : Resumes L L' stops y y' P m := by
  cases h with
  | ok h h' hl ha => exact .ok (hy.trans h) (hy'.trans h') hl ha
  | error h h' hl => exact .error (hy.trans h) (hy'.trans h') hl
  | stopped h hf hc =>
    rw [← Exec.after_congr hy'] at hc
    exact .stopped (hy.trans h) hf hc

/-- More room lets the second action resume where the first one was stopped. -/
theorem bind {k k' : α → Exec β} {S : β → Prop} (hx : Resumes L L' stops x x' P m)
    (hk : ∀ a m, P a → m.limits = L → Resumes L L' stops (k a) (k' a) S m)
    (hprints : ∀ m a m₁, x' m = .ok a m₁ → m₁.Prints ((k' a).after m₁)) :
    Resumes L L' stops (x >>= k) (x' >>= k') S m := by
  cases hx with
  | @ok a m₁ h h' hl ha =>
    cases hk a m₁ ha hl with
    | ok hka hka' hl hb =>
      exact .ok ((Exec.bind_of_ok h).trans hka) ((Exec.bind_of_ok h').trans hka') hl hb
    | error hka hka' hl =>
      exact .error ((Exec.bind_of_ok h).trans hka) ((Exec.bind_of_ok h').trans hka') hl
    | stopped hka hf hc =>
      refine .stopped ((Exec.bind_of_ok h).trans hka) hf ?_
      rwa [Exec.after_congr (Exec.bind_of_ok h')]
  | error h h' hl => exact .error (Exec.bind_of_error h) (Exec.bind_of_error h') hl
  | stopped h hf hc =>
    refine .stopped (Exec.bind_of_error h) hf ?_
    cases h' : x' (m.under L') with
    | ok a m₁ =>
      rw [Exec.after_of_ok h'] at hc
      rw [Exec.after_congr (Exec.bind_of_ok h')]
      exact hc.trans (hprints _ a m₁ h')
    | error f m₁ =>
      rw [Exec.after_of_error h'] at hc
      rwa [Exec.after_of_error (Exec.bind_of_error h')]

/-- What stops for want of room cannot be caught. -/
theorem catchThrown {Q : World → α → Prop} (hfinal : ∀ f, stops f → f.isThrown = false)
    (hx : Resumes L L' stops x x' (Q Set.univ) m) :
    Resumes L L' stops (Exec.catchThrown x) (Exec.catchThrown x') (Caught Q Set.univ) m := by
  cases hx with
  | ok h h' hl ha =>
    exact .ok (Exec.catchThrown_of_ok h) (Exec.catchThrown_of_ok h') hl ha
  | @error f _ h h' hl =>
    cases hf : f.isThrown with
    | true =>
      obtain ⟨t, rfl⟩ := Exec.fault_of_isThrown hf
      exact .ok (Exec.catchThrown_of_thrown h) (Exec.catchThrown_of_thrown h') hl (within_univ t)
    | false =>
      exact .error (Exec.catchThrown_of_error h hf) (Exec.catchThrown_of_error h' hf) hl
  | stopped h hf hc =>
    refine .stopped (Exec.catchThrown_of_error h (hfinal _ hf)) hf ?_
    rwa [Exec.after_catchThrown]

/-- Whether a step has been shown does not depend on the room. -/
theorem orElseShow {scope : ScopeId} {line : Nat} {kind : StepKind} {description : String}
    (hx : Resumes L L' stops x x' P m) :
    Resumes L L' stops (Exec.orElseShow x (Exec.record scope line kind description))
      (Exec.orElseShow x' (Exec.record scope line kind description)) Any m := by
  cases hx with
  | @ok a m₁ h h' hl ha =>
    by_cases hsize : m₁.steps.size = m.steps.size
    · exact .ok ((Exec.orElseShow_of_ok h).trans (if_pos hsize))
        ((Exec.orElseShow_of_ok h').trans (if_pos hsize)) hl trivial
    · exact .ok ((Exec.orElseShow_of_ok h).trans (if_neg hsize))
        ((Exec.orElseShow_of_ok h').trans (if_neg hsize)) hl trivial
  | error h h' hl => exact .error (Exec.orElseShow_of_error h) (Exec.orElseShow_of_error h') hl
  | stopped h hf hc =>
    refine .stopped (Exec.orElseShow_of_error h) hf ?_
    rcases Exec.after_orElseShow with heq | heq
    · rwa [heq]
    · rw [heq]
      exact hc

/-- The step behind an action is shown with more room too. -/
theorem followedBy {scope : ScopeId} {line : Nat} {kind : StepKind} {description : String}
    (hx : Resumes L L' stops x x' P m) :
    Resumes L L' stops (Exec.followedBy x (Exec.record scope line kind description))
      (Exec.followedBy x' (Exec.record scope line kind description)) P m := by
  cases hx with
  | ok h h' hl ha => exact .ok (Exec.followedBy_of_ok h) (Exec.followedBy_of_ok h') hl ha
  | error h h' hl => exact .error (Exec.followedBy_of_error h) (Exec.followedBy_of_error h') hl
  | stopped h hf hc =>
    refine .stopped (Exec.followedBy_of_error h) hf ?_
    rw [Exec.after_followedBy]
    exact hc

/-! ### Single operations -/

/-- With more room a tick is refused later, if at all. -/
theorem tick (hroom : L.Leaves L' more stops) (hm : m.limits = L) :
    Resumes L L' stops Exec.tick Exec.tick Any m := by
  subst hm
  rcases Nat.lt_or_ge m.work m.limits.maxSteps with h | h
  · have hle : m.limits.maxSteps ≤ L'.maxSteps := hroom.maxSteps.elim Eq.ge And.left
    exact .ok (Exec.tick_of_lt h) (Exec.tick_of_lt (m := m.under L') (h.trans_le hle)) rfl trivial
  · rcases hroom.maxSteps with heq | ⟨-, hstop⟩
    · have h' : (m.under L').limits.maxSteps ≤ (m.under L').work := heq.trans_le h
      refine .error (Exec.tick_of_le h) ?_ rfl
      rw [Exec.tick_of_le h', ← heq]
      rfl
    · refine .stopped (Exec.tick_of_le h) hstop ?_
      have htick : Elementary .loop Set.univ Exec.tick Any := .tick
      exact Machine.Prints.effects (m := m.under L') (htick.effects (within_univ _))

/-- With more room a call is refused later, if at all. -/
theorem pushFrame {name : String} {line : Nat} (hroom : L.Leaves L' more stops)
    (hm : m.limits = L) :
    Resumes L L' stops (Exec.pushFrame name line) (Exec.pushFrame name line) Any m := by
  subst hm
  rcases Nat.lt_or_ge m.frames.length m.limits.maxCallDepth with h | h
  · have hle : m.limits.maxCallDepth ≤ L'.maxCallDepth :=
      hroom.maxCallDepth.elim Eq.ge And.left
    exact .ok (Exec.pushFrame_of_lt h) (Exec.pushFrame_of_lt (m := m.under L') (h.trans_le hle))
      rfl trivial
  · rcases hroom.maxCallDepth with heq | ⟨-, hstop⟩
    · have h' : (m.under L').limits.maxCallDepth ≤ (m.under L').frames.length := heq.trans_le h
      exact .error (Exec.pushFrame_of_le h) (Exec.pushFrame_of_le h') rfl
    · exact .stopped (Exec.pushFrame_of_le h) hstop (.pushFrame (m.under L'))

/-- What is written depends on the heap and the ceiling only. -/
theorem writing {W : World} {x : Exec Unit} (hroom : L.Leaves L' more stops) (hm : m.limits = L)
    (h : Writing W m.heap x) : Resumes L L' stops x x Any m := by
  induction h with
  | skip | change => exact .ok rfl rfl hm trivial
  | misuse | raise => exact .error rfl rfl hm
  | withHeap _ ih => exact ih.congr rfl rfl
  | @withCeiling k _ ih =>
    refine (ih m.limits.maxLength).congr rfl ?_
    exact congrArg (fun n => k n (m.under L')) (hroom.maxLength.trans (hm ▸ rfl))

/-- The ceiling is the same on both sides, and so is what lies below it. -/
theorem flattened {items : Array Value} {depth : Float} (hroom : L.Leaves L' more stops)
    (hm : m.limits = L) :
    Resumes L L' stops (Exec.flattened items depth) (Exec.flattened items depth) Any m := by
  subst hm
  have hflat : flatten (m.under L').heap (m.under L').limits.maxLength depth items =
      flatten m.heap m.limits.maxLength depth items := by
    change flatten m.heap L'.maxLength depth items = _
    rw [hroom.maxLength]
  cases h : flatten m.heap m.limits.maxLength depth items with
  | some all =>
    exact .ok (Exec.flattened_of_some h) (Exec.flattened_of_some (hflat.trans h)) rfl trivial
  | none =>
    exact .error (Exec.flattened_of_none h) (Exec.flattened_of_none (hflat.trans h)) rfl

theorem addReaction {id : ObjectId} {r : Reaction} (hm : m.limits = L) :
    Resumes L L' stops (Exec.addReaction id r) (Exec.addReaction id r) Any m := by
  obtain ⟨queued, heap, tasks, h, h'⟩ :=
    Exec.addReaction_both id r (show (m.under L').heap = m.heap from rfl)
  exact .ok h h' hm trivial

/-- To settle a promise needs no room. -/
theorem settle {id : ObjectId} {outcome : PromiseState} {line : Nat}
    (ho : outcome.isPending = false) (hm : m.limits = L) :
    Resumes L L' stops (Exec.settleFlat id outcome line) (Exec.settleFlat id outcome line) Any
      m := by
  obtain ⟨heap, tasks, shown, h, h'⟩ :=
    Exec.settleFlat_both id line ho (show (m.under L').heap = m.heap from rfl)
  cases shown with
  | none => exact .ok h h' hm trivial
  | some description => exact .ok h h' hm trivial

theorem nextMicrotask? (hm : m.limits = L) :
    Resumes L L' stops Exec.nextMicrotask? Exec.nextMicrotask? Any m := by
  cases h : m.microtasks with
  | nil =>
    exact .ok (Exec.nextMicrotask_of_nil h) (Exec.nextMicrotask_of_nil (m := m.under L') h) hm
      trivial
  | cons =>
    exact .ok (Exec.nextMicrotask_of_cons h) (Exec.nextMicrotask_of_cons (m := m.under L') h) hm
      trivial

theorem nextCallback? (hm : m.limits = L) :
    Resumes L L' stops Exec.nextCallback? Exec.nextCallback? Any m := by
  cases h : m.callbacks with
  | nil =>
    exact .ok (Exec.nextCallback_of_nil h) (Exec.nextCallback_of_nil (m := m.under L') h) hm
      trivial
  | cons =>
    exact .ok (Exec.nextCallback_of_cons h) (Exec.nextCallback_of_cons (m := m.under L') h) hm
      trivial

/-- What is known of the results of an action by itself. -/
theorem known (h : Resumes L L' stops x x' Any m) (hP : ∀ {a m'}, x m = .ok a m' → P a) :
    Resumes L L' stops x x' P m := by
  cases h with
  | ok h h' hl _ => exact .ok h h' hl (hP h)
  | error h h' hl => exact .error h h' hl
  | stopped h hf hc => exact .stopped h hf hc

end Resumes

/-- **Elementary actions do the same with more room**, but for the counting of work. -/
theorem Elementary.resumes {l : Layer} {α : Type} {x : Exec α} {P : α → Prop}
    (hroom : L.Leaves L' more stops) (h : Elementary l Set.univ x P) {m : Machine}
    (hm : m.limits = L) : Resumes L L' stops x x P m := by
  refine .known ?_ h.yields_univ
  cases h with
  | tick => exact .tick hroom hm
  | write h => exact .writing hroom hm (h m.heap (within_univ _))
  | flattened => exact .flattened hroom hm
  | addReaction => exact .addReaction hm
  | settle _ _ ho => exact .settle ho hm
  | nextMicrotask? => exact .nextMicrotask? hm
  | nextCallback? => exact .nextCallback? hm
  | ceiling =>
    have heq : L'.maxLength = m.limits.maxLength := hroom.maxLength.trans (hm ▸ rfl)
    refine .ok rfl ?_ hm trivial
    exact congrArg (fun n => EStateM.Result.ok n (m.under L')) heq
  | throw | raise | fail => exact .error rfl rfl hm
  | _ => exact .ok rfl rfl hm trivial

/-- **An action that does the same with more room**, and with it only adds to the console. -/
structure Scales (L L' : Limits) (more : Nat) (stops : Fault → Prop) (fuel : Nat) {α : Type}
    (x : Evaluator → Exec α) (P : α → Prop) : Prop where
  resumes : ∀ m, m.limits = L →
    Resumes L L' stops (x (.bounded fuel)) (x (.bounded (fuel + more))) P m
  yields : ∀ {m m' : Machine} {a : α}, x (.bounded (fuel + more)) m = .ok a m' → P a
  prints : ∀ m : Machine, m.Prints ((x (.bounded (fuel + more))).after m)

namespace Scales

variable {fuel : Nat} {α β : Type} {x : Evaluator → Exec α} {P : α → Prop}

/-- Two actions scale one behind the other if both do. -/
theorem bind {k : α → Evaluator → Exec β} {R : β → Prop} (hx : Scales L L' more stops fuel x P)
    (hk : ∀ a, P a → Scales L L' more stops fuel (k a) R) :
    Scales L L' more stops fuel (fun ev => x ev >>= fun a => k a ev) R where
  resumes m hm := (hx.resumes m hm).bind (fun a m₁ ha hl => (hk a ha).resumes m₁ hl)
    fun _ a m₁ ha => (hk a (hx.yields ha)).prints m₁
  yields h := by
    obtain ⟨a, m₁, hxa, hka⟩ := Exec.bind_eq_ok h
    exact (hk a (hx.yields hxa)).yields hka
  prints m := by
    have hfirst := hx.prints m
    cases h : x (.bounded (fuel + more)) m with
    | ok a m₁ =>
      rw [Exec.after_of_ok h] at hfirst
      rw [Exec.after_bind_of_ok h]
      exact hfirst.trans ((hk a (hx.yields h)).prints m₁)
    | error f m₁ =>
      rw [Exec.after_of_error h] at hfirst
      rwa [Exec.after_bind_of_error h]

theorem followedBy {scope : ScopeId} {line : Nat} {kind : StepKind} {description : String}
    (hx : Scales L L' more stops fuel x P) :
    Scales L L' more stops fuel
      (fun ev => Exec.followedBy (x ev) (Exec.record scope line kind description)) Any where
  resumes m hm := (hx.resumes m hm).followedBy.mono fun _ _ => trivial
  yields _ := trivial
  prints m := by
    rw [Exec.after_followedBy]
    exact hx.prints m

theorem orElseShow {scope : ScopeId} {line : Nat} {kind : StepKind} {description : String}
    (hx : Scales L L' more stops fuel x P) :
    Scales L L' more stops fuel
      (fun ev => Exec.orElseShow (x ev) (Exec.record scope line kind description)) Any where
  resumes m hm := (hx.resumes m hm).orElseShow
  yields _ := trivial
  prints m := by
    have hshown := hx.prints m
    rcases Exec.after_orElseShow (x := x (.bounded (fuel + more))) with h | h
    · rwa [h]
    · rw [h]
      exact hshown

end Scales

/-- Whatever is composed of actions that scale, scales. -/
theorem scales_composable {fuel : Nat} (hroom : L.Leaves L' more stops)
    (heval : ∀ {α : Type} (w : Work α),
      Scales L L' more stops fuel (fun ev => ev.run w) (w.Yields Set.univ)) :
    Composable .loop (Scales L L' more stops fuel) where
  pure ha := ⟨fun _ hm => .ok rfl rfl hm ha, fun h => by cases h; exact ha, .refl⟩
  elementary h :=
    ⟨fun m hm => h.resumes hroom hm, h.yields_univ, fun m => .effects (h.effects (within_univ _))⟩
  bind := .bind
  weaken hx h :=
    ⟨fun m hm => (hx.resumes m hm).mono h, fun hxm => h _ (hx.yields hxm), hx.prints⟩
  allocate _ := ⟨fun _ hm => .ok rfl rfl hm trivial, fun _ => trivial, .refl⟩
  newScope := ⟨fun _ hm => .ok rfl rfl hm trivial, fun _ => trivial, .refl⟩
  copyScope := ⟨fun _ hm => .ok rfl rfl hm trivial, fun _ => trivial, .refl⟩
  eval _ := heval _
  catchThrown hx :=
    { resumes := fun m hm => (hx.resumes m hm).catchThrown hroom.final
      yields := fun h => by
        rcases Exec.catchThrown_eq_ok h with ⟨a, rfl, hxa⟩ | ⟨t, rfl, -⟩
        · exact hx.yields hxa
        · exact within_univ t
      prints := fun m => by
        rw [Exec.after_catchThrown]
        exact hx.prints m }
  orElseShow _ := .orElseShow

/-- The steps of a call scale. -/
theorem scales_calls {fuel : Nat} (hroom : L.Leaves L' more stops) :
    CallParts (Scales L L' more stops fuel) where
  currentScope := ⟨fun _ hm => .ok rfl rfl hm trivial, fun _ => trivial, .refl⟩
  pushFrame := ⟨fun _ hm => .pushFrame hroom hm, fun _ => trivial, .pushFrame⟩
  popFrame := ⟨fun _ hm => .ok rfl rfl hm trivial, fun _ => trivial, .refl⟩
  showCall := .followedBy
  showReturn := ⟨fun _ hm => .ok rfl rfl hm trivial, fun _ => trivial, .refl⟩

/-- **Every piece of work does the same with more room**, by induction on the fuel. -/
theorem Work.scales (hroom : L.Leaves L' more stops) : ∀ (fuel : Nat) {α : Type} (w : Work α),
    Scales L L' more stops fuel (fun ev => ev.run w) (w.Yields Set.univ)
  | 0, _, w =>
    { resumes := fun m hm => by
        rcases hroom.fuel with rfl | hstop
        · exact .error rfl rfl hm
        · exact .stopped rfl hstop (Evaluation.prints (.work w) (0 + more) (m.under L'))
      yields := fun _ => w.yields_univ _
      prints := Evaluation.prints (.work w) (0 + more) }
  | fuel + 1, _, w => by
    have hstep := (Action.step w.fits_univ).has
      ((scales_composable hroom (Work.scales hroom fuel)).compositional (scales_calls hroom)) rfl
    refine ⟨fun m hm => ?_, fun _ => w.yields_univ _, Evaluation.prints (.work w) (fuel + 1 + more)⟩
    have h := hstep.resumes m hm
    rwa [show fuel + 1 + more = (fuel + more) + 1 by omega]

/-- **Every evaluation does the same with more room.** -/
theorem Evaluation.resumes {α : Type} {x : Evaluator → Exec α} (hx : Evaluation x)
    (hroom : L.Leaves L' more stops) (fuel : Nat) {m : Machine} (hm : m.limits = L) :
    Resumes L L' stops (x (.bounded fuel)) (x (.bounded (fuel + more))) Any m :=
  (hx.action.has ((scales_composable hroom (Work.scales hroom fuel)).compositional
    (scales_calls hroom)) rfl).resumes m hm

end

/-! ## The console as the last step shows it -/

/-- **The last step shows all that was printed.** -/
def Machine.ShowsConsole (m : Machine) : Prop :=
  (m.steps.back?.map Step.console).getD [] = m.console.toList

namespace Machine.ShowsConsole

variable {m m' : Machine}

theorem recorded {scope : ScopeId} {line : Nat} {kind : StepKind} {description : String} :
    (m.recorded scope line kind description).ShowsConsole := by
  rw [ShowsConsole, Machine.recorded, Array.back?_push]
  rfl

theorem effect {l : Layer} {W : World} {f : Option Fault} (h : Effect l W m f m')
    (hm : m.ShowsConsole) : m'.ShowsConsole := by
  cases h with
  | record | recordHere | print | enterPhase | showMacrotask => exact recorded
  | _ => exact hm

theorem call {W : World} {f : Option Fault} (h : CallEffect W m f m') (hm : m.ShowsConsole) :
    m'.ShowsConsole := by
  cases h with
  | showCall | showReturn => exact recorded
  | _ => exact hm

end Machine.ShowsConsole

theorem showsConsole_stepwise (l : Layer) :
    (Invariant.ofMoves fun m _ m' => m.ShowsConsole → m'.ShowsConsole).Stepwise l where
  toComposes := .of_effects (Invariant.safe_ofMoves _) (fun _ => id) (fun h h₁ => h₁ ∘ h) id
    fun _ => .effect
  call _ := .call
  shown _ _ _ _ := .recorded

/-! ## Runs -/

/-- **Faults for want of room**: limits that are reached, and work that lies too deep where there
could be `more` fuel. -/
def Fault.IsWant (limits : Limits) (more : Nat) : Fault → Prop
  | .stepLimit n => n = limits.maxSteps
  | .callDepth => True
  | .exhausted => 0 < more
  | _ => False

section

variable {L L' : Limits} {limits : Limits} {fuel more : Nat} {program : Syntax.Program}

/-- Higher limits on work and on calls leave no less room. -/
theorem Limits.leaves (hlength : L'.maxLength = L.maxLength) (hsteps : L.maxSteps ≤ L'.maxSteps)
    (hdepth : L.maxCallDepth ≤ L'.maxCallDepth) : L.Leaves L' more (Fault.IsWant L more) where
  maxLength := hlength
  maxSteps := .inr ⟨hsteps, rfl⟩
  maxCallDepth := .inr ⟨hdepth, trivial⟩
  fuel := more.eq_zero_or_pos
  final f hf := by cases f <;> first | rfl | cases hf

/-- The step that shows a fault prints nothing. -/
theorem prints_finalMachine (limits : Limits) (fuel : Nat) (program : Syntax.Program) :
    (((Evaluator.bounded fuel).runProgram program).after (.initial limits)).Prints
      (finalMachine limits fuel program) := by
  cases h : (Evaluator.bounded fuel).runProgram program (.initial limits) with
  | ok _ m =>
    rw [Exec.after_of_ok h, finalMachine_of_ok h]
    exact .refl m
  | error f m =>
    rw [Exec.after_of_error h, finalMachine_of_error h]
    exact .refl m

/-- The texts in the steps of a run are those that it printed. -/
theorem consoleTexts_finalMachine (limits : Limits) (fuel : Nat) (program : Syntax.Program) :
    (Result.ofSteps (finalMachine limits fuel program).steps).consoleTexts =
      (finalMachine limits fuel program).console.toList.map ConsoleEntry.text := by
  have hshows : (finalMachine limits fuel program).ShowsConsole := by
    cases h : (Evaluator.bounded fuel).runProgram program (.initial limits) with
    | ok _ m =>
      rw [finalMachine_of_ok h, ← Exec.after_of_ok h]
      exact (Evaluation.runProgram program).action.moves (showsConsole_stepwise .loop).lawful _ rfl
    | error f m =>
      rw [finalMachine_of_error h]
      exact .recorded
  rw [← hshows, Result.consoleTexts, Result.ofSteps]
  cases (finalMachine limits fuel program).steps.back? with
  | none => rfl
  | some s => rfl

/-- A run that has the room it wants is the same with more. -/
theorem finalMachine_under (hroom : L.Leaves L' more (Fault.IsWant L more))
    (hwant : ∀ f, ((Evaluator.bounded fuel).runProgram program).faultOf (.initial L) = some f →
      ¬ f.IsWant L more) :
    finalMachine L' (fuel + more) program = (finalMachine L fuel program).under L' := by
  cases (Evaluation.runProgram program).resumes hroom fuel (m := .initial L) rfl with
  | ok h h' => rw [finalMachine_of_ok h, ← finalMachine_of_ok h']
  | error h h' =>
    rw [finalMachine_of_error h]
    exact finalMachine_of_error h'
  | stopped h hf => exact absurd hf (hwant _ (Exec.faultOf_of_error h))

/-- **With more room a run prints what it printed, and perhaps more.** -/
theorem finalMachine_prints (hroom : L.Leaves L' more (Fault.IsWant L more)) :
    (finalMachine L fuel program).Prints (finalMachine L' (fuel + more) program) := by
  cases (Evaluation.runProgram program).resumes hroom fuel (m := .initial L) rfl with
  | @ok _ m h h' =>
    rw [finalMachine_of_ok h, finalMachine_of_ok h']
    exact .refl m
  | @error f m h h' =>
    rw [finalMachine_of_error h, finalMachine_of_error h']
    exact .refl m
  | stopped h hf hc =>
    rw [finalMachine_of_error h]
    exact hc.trans (prints_finalMachine L' _ program)

/-- A result tells of every fault. -/
theorem errorOf_finalMachine {f : Fault}
    (h : ((Evaluator.bounded fuel).runProgram program).faultOf (.initial limits) = some f) :
    (Result.ofSteps (finalMachine limits fuel program).steps).error = some f.message := by
  cases hrun : (Evaluator.bounded fuel).runProgram program (.initial limits) with
  | ok _ m => cases (Exec.faultOf_of_ok hrun).symm.trans h
  | error g m =>
    cases (Exec.faultOf_of_error hrun).symm.trans h
    rw [finalMachine_of_error hrun]
    exact errorOf_recorded

end

/-- **More room changes nothing that was done.**  Let one pair of limits on work and on calls be at
least as high as another, with the same ceiling on lengths.  A run that the lower limits do not stop
ends in the same machine under the higher ones, also with more fuel unless the fuel ran out; and
whatever stops it, what it printed is what it prints first under the higher limits.  So the result
of a source is the same, with all its steps and its message, also with more fuel unless the fuel ran
out. -/
theorem more_room_changes_nothing {L L' : Limits} (hlength : L'.maxLength = L.maxLength)
    (hsteps : L.maxSteps ≤ L'.maxSteps) (hdepth : L.maxCallDepth ≤ L'.maxCallDepth) :
    (∀ (program : Syntax.Program) (fuel more : Nat),
      ((∀ f, ((Evaluator.bounded fuel).runProgram program).faultOf (.initial L) = some f →
          ¬ f.IsWant L more) →
        finalMachine L' (fuel + more) program = (finalMachine L fuel program).under L') ∧
      (finalMachine L fuel program).console.toList <+:
        (finalMachine L' (fuel + more) program).console.toList) ∧
    ∀ (source : String) (fuel more : Nat),
      ((∀ f : Fault, f.IsWant L more → (runWithin L fuel source).error ≠ some f.message) →
        runWithin L' (fuel + more) source = runWithin L fuel source) ∧
      (runWithin L fuel source).consoleTexts <+:
        (runWithin L' (fuel + more) source).consoleTexts := by
  have hroom (more : Nat) : L.Leaves L' more (Fault.IsWant L more) :=
    Limits.leaves hlength hsteps hdepth
  refine ⟨fun program fuel more =>
    ⟨finalMachine_under (hroom more), finalMachine_prints (hroom more)⟩,
    fun source fuel more => ?_⟩
  cases hblank : source.toList.all Text.isBlank with
  | true =>
    rw [runWithin_of_blank hblank, runWithin_of_blank hblank]
    exact ⟨fun _ => rfl, List.prefix_rfl⟩
  | false =>
    cases hread : Syntax.readProgram source with
    | error e =>
      rw [runWithin_of_unreadable hblank hread, runWithin_of_unreadable hblank hread]
      exact ⟨fun _ => rfl, List.prefix_rfl⟩
    | ok program =>
      rw [runWithin_of_program hblank hread, runWithin_of_program hblank hread]
      constructor
      · intro herror
        refine congrArg (fun m => Result.ofSteps m.steps) (finalMachine_under (hroom more) ?_)
        exact fun f hf hwant => herror f hwant (errorOf_finalMachine hf)
      · rw [consoleTexts_finalMachine, consoleTexts_finalMachine]
        exact (finalMachine_prints (hroom more)).map _

/-- A program that prints, and does not stop by itself. -/
def endlessUse : String := "console.log(1); while (true) console.log(2)"

/-- With room for five units of work it prints what it prints first with room for nine; and a
program that ends is the same with more fuel as well. -/
theorem endlessUse_prints :
    (runWithin ⟨5, 9, 9⟩ 99 endlessUse).consoleTexts <+:
        (runWithin ⟨9, 9, 9⟩ 99 endlessUse).consoleTexts ∧
      runWithin ⟨9, 9, 9⟩ 120 "console.log(1)" = runWithin ⟨5, 9, 9⟩ 99 "console.log(1)" := by
  have hlength : (⟨9, 9, 9⟩ : Limits).maxLength = (⟨5, 9, 9⟩ : Limits).maxLength := rfl
  obtain ⟨-, hrun⟩ := more_room_changes_nothing hlength (by decide) (by decide)
  refine ⟨(hrun endlessUse 99 0).2, (hrun _ 99 21).1 fun f _ => ?_⟩
  have hnone : (runWithin ⟨5, 9, 9⟩ 99 "console.log(1)").error = none := by decide +kernel
  rw [hnone]
  exact nofun

end ScriptTrace
