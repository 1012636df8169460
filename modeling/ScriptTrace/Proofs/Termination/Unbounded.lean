import ScriptTrace.Proofs.Compositional
import ScriptTrace.Proofs.Nested

/-!
# Proofs/Termination/Unbounded — evaluation without a bound

    bounded 0  ≤  bounded 1  ≤  bounded 2  ≤  ⋯  ≤  unbounded

Fuel only cuts evaluation off: where it does not run out, more of it changes nothing
(`Evaluator.bounded_under`).  So there is one evaluator that does whatever some fuel is enough for.
With it one can speak of what an evaluation asks for, however much fuel that takes.

An action for which no fuel is enough has a reason for it (`Action.hangs`): it asks for a piece of
work for which no fuel is enough either, or it flattens an array that has no end.
-/

namespace ScriptTrace

variable {α β : Type}

/-! ## More fuel changes nothing -/

/-- **An evaluator does what another one does**, unless it is exhausted. -/
def Evaluator.Under (ev ev' : Evaluator) : Prop :=
  ∀ {α : Type} (w : Work α) (m : Machine),
    (ev.run w).faultOf m = some .exhausted ∨ ev'.run w m = ev.run w m

namespace Evaluator.Under

variable {ev ev₁ ev₂ : Evaluator}

theorem refl (ev : Evaluator) : ev.Under ev := fun _ _ => .inr rfl

/-- An evaluator under one that is under a third is under the third. -/
theorem trans (h : ev.Under ev₁) (h₁ : ev₁.Under ev₂) : ev.Under ev₂ := by
  intro α w m
  rcases h w m with h | h
  · exact .inl h
  · rcases h₁ w m with h₁ | h₁
    · exact .inl ((Exec.faultOf_congr h).symm.trans h₁)
    · exact .inr (h₁.trans h)

/-- What is done with a piece of work does not matter below an evaluator that it exhausts. -/
theorem agreesBut {w : Work β} {m₁ : Machine} (h : ev.Under ev₁) (hagree : ev₁.AgreesBut ev₂ w m₁)
    (hw : (ev.run w).faultOf m₁ = some .exhausted) : ev.Under ev₂ := by
  intro γ v m
  by_cases hother : (⟨γ, v⟩ : Σ α, Work α) ≠ ⟨β, w⟩ ∨ m ≠ m₁
  · rw [hagree v m hother]
    exact h v m
  · obtain ⟨hv, rfl⟩ := not_or.mp hother |>.imp not_not.mp not_not.mp
    cases hv
    exact .inl hw

end Evaluator.Under

/-- **An action that is only cut off** by an evaluator that does less. -/
structure Steady (x : Evaluator → Exec α) (P : α → Prop) : Prop where
  yields : ∀ {ev : Evaluator} {m m' : Machine} {a : α}, x ev m = .ok a m' → P a
  same : ∀ {ev ev' : Evaluator}, ev.Under ev' → ∀ m : Machine,
    (x ev).faultOf m = some .exhausted ∨ x ev' m = x ev m

namespace Steady

variable {x : Evaluator → Exec α} {P R : α → Prop}

theorem const {x : Exec α} (h : ∀ {m m' : Machine} {a : α}, x m = .ok a m' → P a) :
    Steady (fun _ => x) P where
  yields := h
  same _ _ := .inr rfl

theorem weaken (hx : Steady x P) (h : ∀ a, P a → R a) : Steady x R where
  yields hxa := h _ (hx.yields hxa)
  same := hx.same

/-- One action behind another is steady if both are. -/
theorem bind {k : α → Evaluator → Exec β} {R : β → Prop} (hx : Steady x P)
    (hk : ∀ a, P a → Steady (k a) R) : Steady (fun ev => x ev >>= fun a => k a ev) R where
  yields h := by
    obtain ⟨a, m₁, hxa, hka⟩ := Exec.bind_eq_ok h
    exact (hk a (hx.yields hxa)).yields hka
  same {ev ev'} hev m := by
    rcases hx.same hev m with hend | hxm
    · obtain ⟨m₁, hxf⟩ := Exec.faultOf_eq_some.mp hend
      exact .inl (Exec.faultOf_of_error (Exec.bind_of_error hxf))
    · cases hxa : x ev m with
      | error f m₁ =>
        exact .inr ((Exec.bind_of_error (hxm.trans hxa)).trans (Exec.bind_of_error hxa).symm)
      | ok a m₁ =>
        have hbind := Exec.bind_of_ok (k := fun a => k a ev) hxa
        rcases (hk a (hx.yields hxa)).same hev m₁ with hend | hkm
        · exact .inl ((Exec.faultOf_congr hbind).trans hend)
        · exact .inr ((Exec.bind_of_ok (hxm.trans hxa)).trans (hkm.trans hbind.symm))

/-- What is done behind an action. -/
theorem comp {F : Exec α → Exec β} {R : β → Prop}
    (hyields : ∀ {ev : Evaluator} {m m' b}, F (x ev) m = .ok b m' → R b)
    (hF : ∀ {x y : Exec α} {m : Machine}, x m = y m → F x m = F y m)
    (hfault : ∀ {x : Exec α} {m m' : Machine}, x m = .error .exhausted m' →
      (F x).faultOf m = some .exhausted) (hx : Steady x P) : Steady (fun ev => F (x ev)) R where
  yields := hyields
  same hev m := by
    rcases hx.same hev m with hend | hxm
    · obtain ⟨m₁, hxf⟩ := Exec.faultOf_eq_some.mp hend
      exact .inl (hfault hxf)
    · exact .inr (hF hxm)

/-- What is caught is steady if what threw it is. -/
theorem catchThrown {Q : World → α → Prop} (hx : Steady x (Q Set.univ)) :
    Steady (fun ev => Exec.catchThrown (x ev)) (Caught Q Set.univ) := by
  refine hx.comp (fun h => ?_) Exec.catchThrown_congr
    fun h => Exec.faultOf_of_error (Exec.catchThrown_of_error h rfl)
  rcases Exec.catchThrown_eq_ok h with ⟨a, rfl, hxa⟩ | ⟨t, rfl, -⟩
  · exact hx.yields hxa
  · exact within_univ t

theorem followedBy {scope : ScopeId} {line : Nat} {kind : StepKind} {description : String}
    (hx : Steady x P) :
    Steady (fun ev => Exec.followedBy (x ev) (Exec.record scope line kind description)) Any :=
  hx.comp (fun _ => trivial) Exec.followedBy_congr
    fun h => Exec.faultOf_of_error (Exec.followedBy_of_error h)

theorem orElseShow {y : Exec Unit} (hx : Steady x P) :
    Steady (fun ev => Exec.orElseShow (x ev) y) Any :=
  hx.comp (fun _ => trivial) Exec.orElseShow_congr
    fun h => Exec.faultOf_of_error (Exec.orElseShow_of_error h)

end Steady

/-- **Whatever is composed of effects is steady**: more fuel changes no result. -/
theorem steady_composable : Composable .loop Steady where
  pure ha := .const fun h => by cases h; exact ha
  elementary h := .const h.yields_univ
  bind := .bind
  weaken := .weaken
  allocate _ := .const fun _ => trivial
  newScope := .const fun _ => trivial
  copyScope := .const fun _ => trivial
  eval {_ w} _ := ⟨fun _ => w.yields_univ _, fun hev m => hev w m⟩
  catchThrown := .catchThrown
  orElseShow _ := .orElseShow

theorem steady_calls : CallParts Steady where
  currentScope := .const fun _ => trivial
  pushFrame := .const fun _ => trivial
  popFrame := .const fun _ => trivial
  showCall := .followedBy
  showReturn := .const fun _ => trivial

/-- **Every action is only cut off by an evaluator that does less.** -/
theorem Action.steady {x : Evaluator → Exec α} {Q : World → α → Prop}
    (hx : Action .loop Set.univ x Q) : Steady x (Q Set.univ) :=
  hx.has (steady_composable.compositional steady_calls) rfl

namespace Evaluator

theorem bounded_under_succ : ∀ fuel : Nat, (bounded fuel).Under (bounded (fuel + 1))
  | 0, _, _, _ => .inl rfl
  | fuel + 1, _, w, m => (Action.step w.fits_univ).steady.same (bounded_under_succ fuel) m

/-- **More fuel changes nothing.** -/
theorem bounded_under {fuel fuel' : Nat} (h : fuel ≤ fuel') :
    (bounded fuel).Under (bounded fuel') := by
  induction h with
  | refl => exact Under.refl _
  | step _ ih => exact Under.trans ih (bounded_under_succ _)

end Evaluator

/-- With more fuel an action yields the same, with less it yields the same or nothing. -/
theorem Steady.settled {x : Evaluator → Exec α} {P : α → Prop} {k j : Nat} {m m' : Machine} {a : α}
    (hx : Steady x P) (h : x (.bounded k) m = .ok a m') :
    (k ≤ j → x (.bounded j) m = .ok a m') ∧
      ∀ {c m₁}, x (.bounded j) m = .ok c m₁ → c = a ∧ m₁ = m' := by
  have hmore {k j : Nat} {a : α} {m' : Machine} (hle : k ≤ j) (h : x (.bounded k) m = .ok a m') :
      x (.bounded j) m = .ok a m' := by
    rcases hx.same (Evaluator.bounded_under hle) m with hend | hsame
    · rw [Exec.faultOf_of_ok h] at hend
      cases hend
    · exact hsame.trans h
  refine ⟨fun hle => hmore hle h, fun {c m₁} hc => ?_⟩
  rcases Nat.le_total k j with hle | hle
  · cases (hmore hle h).symm.trans hc
    exact ⟨rfl, rfl⟩
  · cases (hmore hle hc).symm.trans h
    exact ⟨rfl, rfl⟩

/-! ## No bound at all -/

/-- **A piece of work hangs** if no fuel is enough for it. -/
def Work.Hangs (w : Work α) (m : Machine) : Prop :=
  ∀ fuel, (w.exec fuel).faultOf m = some .exhausted

namespace Evaluator

open Classical in
/-- **The evaluator without a bound.**  It does what is done with enough fuel; where no fuel is
enough it ends in the fault for that. -/
noncomputable def unbounded : Evaluator where
  run w m :=
    if h : ∃ fuel, (w.exec fuel).faultOf m ≠ some .exhausted then w.exec h.choose m
    else .error .exhausted m

theorem unbounded_of_hangs {w : Work α} {m : Machine} (h : w.Hangs m) :
    unbounded.run w m = .error .exhausted m := dif_neg (not_exists_not.mpr h)

/-- What ends with some fuel ends so without a bound. -/
theorem bounded_under_unbounded (fuel : Nat) : (bounded fuel).Under unbounded := by
  intro α w m
  by_cases hw : (w.exec fuel).faultOf m = some .exhausted
  · exact .inl hw
  · right
    have hsome : ∃ fuel, (w.exec fuel).faultOf m ≠ some .exhausted := ⟨fuel, hw⟩
    refine (dif_pos hsome).trans ?_
    rcases le_total fuel hsome.choose with hle | hle
    · exact (bounded_under hle w m).resolve_left hw
    · exact ((bounded_under hle w m).resolve_left hsome.choose_spec).symm

/-- What is done without a bound is done with some fuel, unless the piece of work hangs. -/
theorem unbounded_run (w : Work α) (m : Machine) :
    (∃ fuel, unbounded.run w m = w.exec fuel m) ∨ unbounded.run w m = .error .exhausted m := by
  by_cases hw : w.Hangs m
  · exact .inr (unbounded_of_hangs hw)
  · obtain ⟨fuel, hfuel⟩ := not_forall.mp hw
    exact .inl ⟨fuel, (bounded_under_unbounded fuel w m).resolve_left hfuel⟩

/-- **Without a bound every piece of work respects a lawful invariant**, too. -/
theorem keeps_unbounded {I : Invariant} {l : Layer} [l.Executes] (hI : I.Lawful l) :
    unbounded.Keeps I l := by
  intro α w W hw
  have hnone : I.Keeps W (throw .exhausted : Exec α) fun W' a => w.Yields W' a := hI.exhausted
  constructor
  · intro m m' a hm hW h
    rcases unbounded_run w m with ⟨fuel, hrun⟩ | hrun
    · exact (keeps_bounded hI fuel hw).ok hm hW (hrun.symm.trans h)
    · exact hnone.ok hm hW (hrun.symm.trans h)
  · intro m m' f hm hW h
    rcases unbounded_run w m with ⟨fuel, hrun⟩ | hrun
    · exact (keeps_bounded hI fuel hw).error hm hW (hrun.symm.trans h)
    · exact hnone.error hm hW (hrun.symm.trans h)

/-- An evaluation that ends without a bound does not notice what is done with what hangs. -/
theorem bounded_under_failing {w : Work β} {m₁ : Machine} (hw : w.Hangs m₁) (f : Fault)
    (fuel : Nat) : (bounded fuel).Under (unbounded.failing w m₁ f) :=
  Under.agreesBut (bounded_under_unbounded fuel) (unbounded.agreesBut_failing w m₁ f) (hw fuel)

end Evaluator

/-! ## Why no fuel is enough -/

/-- **Why no fuel is enough for an action**: a piece of work hangs that it cannot do without, or it
meets an array that cannot be flattened. -/
inductive Stalls (x : Evaluator → Exec α) (m : Machine) : Prop
  | work {β : Type} {w : Work β} {m₁ : Machine} (hw : w.Hangs m₁)
    (h : ∀ f : Fault, f.isThrown = false →
      (x (Evaluator.unbounded.failing w m₁ f)).faultOf m = some f)
  | array {m' : Machine} {items : Array Value} {depth : Float}
    (h : x .unbounded m = .error .exhausted m')
    (hflat : flatten m'.heap m'.limits.maxLength depth items = none)

/-- What is written is never exhausting. -/
theorem Exec.faultOf_writing {W : World} {x : Exec Unit} {m : Machine} (h : Writing W m.heap x) :
    x.faultOf m ≠ some .exhausted := by
  induction h with
  | skip | change | misuse | raise => exact nofun
  | withHeap _ ih => exact ih
  | withCeiling _ ih => exact ih m.limits.maxLength

/-- **Of the elementary actions only flattening is ever exhausted.** -/
theorem Elementary.of_exhausted {l : Layer} {x : Exec α} {P : α → Prop} {m : Machine}
    (h : Elementary l Set.univ x P) (hend : x.faultOf m = some .exhausted) :
    ∃ (items : Array Value) (depth : Float), x m = .error .exhausted m ∧
      flatten m.heap m.limits.maxLength depth items = none := by
  cases h with
  | @flattened items depth _ =>
    cases hflat : flatten m.heap m.limits.maxLength depth items with
    | some all => cases (Exec.faultOf_of_ok (Exec.flattened_of_some hflat)).symm.trans hend
    | none => exact ⟨items, depth, Exec.flattened_of_none hflat, hflat⟩
  | tick =>
    rcases Nat.lt_or_ge m.work m.limits.maxSteps with h | h
    · cases (Exec.faultOf_of_ok (Exec.tick_of_lt h)).symm.trans hend
    · cases (Exec.faultOf_of_error (Exec.tick_of_le h)).symm.trans hend
  | write h => exact absurd hend (Exec.faultOf_writing (h m.heap (within_univ _)))
  | @addReaction id r =>
    obtain ⟨_, _, _, h, -⟩ := Exec.addReaction_both id r (rfl : m.heap = m.heap)
    cases (Exec.faultOf_of_ok h).symm.trans hend
  | @settle id _ line _ _ ho =>
    obtain ⟨_, _, _, h, -⟩ := Exec.settleFlat_both id line ho (rfl : m.heap = m.heap)
    cases (Exec.faultOf_of_ok h).symm.trans hend
  | fail _ hf => exact absurd (Option.some.inj hend) hf
  | nextMicrotask? =>
    cases h : m.microtasks with
    | nil => cases (Exec.faultOf_of_ok (Exec.nextMicrotask_of_nil h)).symm.trans hend
    | cons => cases (Exec.faultOf_of_ok (Exec.nextMicrotask_of_cons h)).symm.trans hend
  | nextCallback? =>
    cases h : m.callbacks with
    | nil => cases (Exec.faultOf_of_ok (Exec.nextCallback_of_nil h)).symm.trans hend
    | cons => cases (Exec.faultOf_of_ok (Exec.nextCallback_of_cons h)).symm.trans hend
  | _ => cases hend

/-- **An action that goes on without end for a reason only.** -/
structure Continuous (x : Evaluator → Exec α) (P : α → Prop) : Prop extends Steady x P where
  ends : ∀ m : Machine, (∃ fuel, (x (.bounded fuel)).faultOf m ≠ some .exhausted) ∨ Stalls x m

namespace Continuous

variable {x : Evaluator → Exec α} {P R : α → Prop}

theorem const {x : Exec α} (h : ∀ {m m' : Machine} {a : α}, x m = .ok a m' → P a)
    (hends : ∀ m, x.faultOf m ≠ some .exhausted) : Continuous (fun _ => x) P where
  toSteady := .const h
  ends m := .inl ⟨0, hends m⟩

theorem weaken (hx : Continuous x P) (h : ∀ a, P a → R a) : Continuous x R where
  toSteady := hx.toSteady.weaken h
  ends := hx.ends

/-- One action behind another is continuous if both are. -/
theorem bind {k : α → Evaluator → Exec β} {R : β → Prop} (hx : Continuous x P)
    (hk : ∀ a, P a → Continuous (k a) R) : Continuous (fun ev => x ev >>= fun a => k a ev) R where
  toSteady := hx.toSteady.bind fun a ha => (hk a ha).toSteady
  ends m := by
    rcases hx.ends m with ⟨fuel, hfuel⟩ | hstall
    · cases hxm : x (.bounded fuel) m with
      | error f m₁ =>
        refine .inl ⟨fuel, ?_⟩
        rwa [Exec.faultOf_of_error (Exec.bind_of_error hxm), ← Exec.faultOf_of_error hxm]
      | ok a m₁ =>
        have hxa {ev : Evaluator} (hev : (Evaluator.bounded fuel).Under ev) : x ev m = .ok a m₁ :=
          ((hx.same hev m).resolve_left hfuel).trans hxm
        have ha : P a := hx.yields hxm
        rcases (hk a ha).ends m₁ with ⟨fuel', hfuel'⟩ | hstall
        · refine .inl ⟨max fuel fuel', ?_⟩
          have hsame := (hk a ha).same (Evaluator.bounded_under (le_max_right fuel fuel')) m₁
          rw [Exec.faultOf_congr (Exec.bind_of_ok (hxa
            (Evaluator.bounded_under (le_max_left fuel fuel')))),
            Exec.faultOf_congr (hsame.resolve_left hfuel')]
          exact hfuel'
        · right
          cases hstall with
          | work hw h =>
            refine .work hw fun f hf => ?_
            have hxf := hxa (Evaluator.bounded_under_failing hw f fuel)
            exact (Exec.faultOf_congr (Exec.bind_of_ok hxf)).trans (h f hf)
          | array h hflat =>
            have hxu := hxa (Evaluator.bounded_under_unbounded fuel)
            exact .array ((Exec.bind_of_ok hxu).trans h) hflat
    · right
      cases hstall with
      | work hw h =>
        refine .work hw fun f hf => ?_
        obtain ⟨m₁, hxf⟩ := Exec.faultOf_eq_some.mp (h f hf)
        exact Exec.faultOf_of_error (Exec.bind_of_error hxf)
      | array h hflat => exact .array (Exec.bind_of_error h) hflat

/-- What is done behind an action does not hold up what stops it. -/
theorem comp {F : Exec α → Exec β} {R : β → Prop} (hsteady : Steady (fun ev => F (x ev)) R)
    (hF : ∀ (x : Exec α) (m : Machine), (F x).faultOf m = some .exhausted →
      x.faultOf m = some .exhausted)
    (hfault : ∀ {x : Exec α} {m m' : Machine} {f : Fault}, x m = .error f m' →
      f.isThrown = false →
      ∃ m'', F x m = .error f m'' ∧ m''.heap = m'.heap ∧ m''.limits = m'.limits)
    (hx : Continuous x P) : Continuous (fun ev => F (x ev)) R where
  toSteady := hsteady
  ends m := by
    rcases hx.ends m with ⟨fuel, hfuel⟩ | hstall
    · exact .inl ⟨fuel, fun h => hfuel (hF _ m h)⟩
    · right
      cases hstall with
      | work hw h =>
        refine .work hw fun f hf => ?_
        obtain ⟨m₁, hxf⟩ := Exec.faultOf_eq_some.mp (h f hf)
        obtain ⟨m₂, hFx, -, -⟩ := hfault hxf hf
        exact Exec.faultOf_of_error hFx
      | array h hflat =>
        obtain ⟨m₂, hFx, hheap, hlimits⟩ := hfault h rfl
        exact .array hFx (by rwa [hheap, hlimits])

theorem catchThrown {Q : World → α → Prop} (hx : Continuous x (Q Set.univ)) :
    Continuous (fun ev => Exec.catchThrown (x ev)) (Caught Q Set.univ) := by
  refine hx.comp hx.toSteady.catchThrown (fun x m h => ?_)
    fun h hf => ⟨_, Exec.catchThrown_of_error h hf, rfl, rfl⟩
  obtain ⟨m₁, hxf⟩ := Exec.faultOf_eq_some.mp h
  exact Exec.faultOf_of_error (Exec.catchThrown_eq_error hxf).1

theorem followedBy {scope : ScopeId} {line : Nat} {kind : StepKind} {description : String}
    (hx : Continuous x P) :
    Continuous (fun ev => Exec.followedBy (x ev) (Exec.record scope line kind description))
      Any := by
  refine hx.comp hx.toSteady.followedBy (fun x m h => ?_)
    fun h _ => ⟨_, Exec.followedBy_of_error h, rfl, rfl⟩
  cases hxm : x m with
  | ok a m₁ => cases (Exec.faultOf_of_ok (Exec.followedBy_of_ok hxm)).symm.trans h
  | error f m₁ =>
    rwa [Exec.faultOf_of_error (Exec.followedBy_of_error hxm), ← Exec.faultOf_of_error hxm] at h

theorem orElseShow {scope : ScopeId} {line : Nat} {kind : StepKind} {description : String}
    (hx : Continuous x P) :
    Continuous (fun ev => Exec.orElseShow (x ev) (Exec.record scope line kind description))
      Any := by
  refine hx.comp hx.toSteady.orElseShow (fun x m h => ?_)
    fun h _ => ⟨_, Exec.orElseShow_of_error h, rfl, rfl⟩
  cases hxm : x m with
  | ok a m₁ =>
    have hshown := Exec.orElseShow_of_ok (y := Exec.record scope line kind description) hxm
    by_cases hsize : m₁.steps.size = m.steps.size
    · cases (Exec.faultOf_of_ok (hshown.trans (if_pos hsize))).symm.trans h
    · cases (Exec.faultOf_of_ok (hshown.trans (if_neg hsize))).symm.trans h
  | error f m₁ =>
    rwa [Exec.faultOf_of_error (Exec.orElseShow_of_error hxm), ← Exec.faultOf_of_error hxm] at h

/-- A request goes on without end if the piece of work hangs. -/
theorem run (w : Work α) : Continuous (fun ev => ev.run w) (w.Yields Set.univ) where
  yields _ := w.yields_univ _
  same hev m := hev w m
  ends m := by
    by_cases hw : w.Hangs m
    · exact .inr (.work hw fun f _ => Exec.faultOf_of_error Evaluator.run_failing)
    · exact .inl (not_forall.mp hw)

/-- An elementary action does not look at the fuel. -/
theorem elementary {x : Exec α} (h : Elementary .loop Set.univ x P) :
    Continuous (fun _ => x) P where
  toSteady := .const h.yields_univ
  ends m := by
    by_cases hend : x.faultOf m = some .exhausted
    · obtain ⟨items, depth, hx, hflat⟩ := h.of_exhausted hend
      exact .inr (.array hx hflat)
    · exact .inl ⟨0, hend⟩

end Continuous

/-- **Whatever is composed of effects ends with some fuel**, or stalls for a reason. -/
theorem continuous_composable : Composable .loop Continuous where
  pure ha := .const (fun h => by cases h; exact ha) fun _ => nofun
  elementary := .elementary
  bind := .bind
  weaken := .weaken
  allocate _ := .const (fun _ => trivial) fun _ => nofun
  newScope := .const (fun _ => trivial) fun _ => nofun
  copyScope := .const (fun _ => trivial) fun _ => nofun
  eval {_ w} _ := .run w
  catchThrown := .catchThrown
  orElseShow _ := .orElseShow

/-- The steps of a call end with some fuel. -/
theorem continuous_calls : CallParts Continuous where
  currentScope := .const (fun _ => trivial) fun _ => nofun
  pushFrame {name line} := by
    refine .const (fun _ => trivial) fun m => ?_
    rcases Nat.lt_or_ge m.frames.length m.limits.maxCallDepth with h | h
    · rw [Exec.faultOf_of_ok (Exec.pushFrame_of_lt h)]
      nofun
    · rw [Exec.faultOf_of_error (Exec.pushFrame_of_le h)]
      nofun
  popFrame := .const (fun _ => trivial) fun _ => nofun
  showCall := .followedBy
  showReturn := .const (fun _ => trivial) fun _ => nofun

/-- **An action is stopped by an array without end**: everything it asks for comes to an end, and
yet it is exhausted, where there is an array that cannot be flattened. -/
structure EndlessArray (x : Evaluator → Exec α) (m : Machine) : Prop where
  settled : ∀ {β : Type} {w : Work β} {m₁ : Machine}, Asks x .unbounded m w m₁ → ¬ w.Hangs m₁
  endless : ∃ (m' : Machine) (items : Array Value) (depth : Float),
    x .unbounded m = .error .exhausted m' ∧
      flatten m'.heap m'.limits.maxLength depth items = none

section

variable {x : Evaluator → Exec α} {Q : World → α → Prop} {m : Machine}

/-- **An action for which no fuel is enough** asks for a piece of work that hangs, or is stopped by
an array without end. -/
theorem Action.hangs (hx : Action .loop Set.univ x Q)
    (h : ∀ fuel, (x (.bounded fuel)).faultOf m = some .exhausted) :
    (∃ (β : Type) (w : Work β) (m₁ : Machine), Asks x .unbounded m w m₁ ∧ w.Hangs m₁) ∨
      EndlessArray x m := by
  have hcontinuous := hx.has (continuous_composable.compositional continuous_calls) rfl
  by_cases hasks : ∃ (β : Type) (w : Work β) (m₁ : Machine), Asks x .unbounded m w m₁ ∧ w.Hangs m₁
  · exact .inl hasks
  · rcases hcontinuous.ends m with ⟨fuel, hfuel⟩ | hstall
    · exact absurd (h fuel) hfuel
    · cases hstall with
      | work hw hfails => exact (hasks ⟨_, _, _, .of_failing hfails, hw⟩).elim
      | array hend hflat =>
        exact .inr ⟨fun ha hw => hasks ⟨_, _, _, ha, hw⟩, _, _, _, hend, hflat⟩

/-- If some fuel is enough for an action, it is enough for all that the action asks for. -/
theorem Action.ends_of_asks (hx : Action .loop Set.univ x Q) {fuel : Nat}
    (h : (x (.bounded fuel)).faultOf m ≠ some .exhausted) {w : Work β} {m₁ : Machine}
    (ha : Asks x .unbounded m w m₁) : (w.exec fuel).faultOf m₁ ≠ some .exhausted := by
  intro hw
  obtain ⟨ev, hagree, hne⟩ := ha
  have hunder : (Evaluator.bounded fuel).Under .unbounded :=
    Evaluator.bounded_under_unbounded fuel
  have hsame := (hx.steady.same hunder m).resolve_left h
  exact hne (((hx.steady.same (hunder.agreesBut hagree hw) m).resolve_left h).trans hsame.symm)

/-- If some fuel is enough for an action, no array without end stops it. -/
theorem Action.not_endlessArray (hx : Action .loop Set.univ x Q) {fuel : Nat}
    (h : (x (.bounded fuel)).faultOf m ≠ some .exhausted) : ¬ EndlessArray x m := by
  rintro ⟨-, m', items, depth, hend, -⟩
  have hsame := (hx.steady.same (Evaluator.bounded_under_unbounded fuel) m).resolve_left h
  exact h ((Exec.faultOf_congr hsame).symm.trans (Exec.faultOf_of_error hend))

end

end ScriptTrace
