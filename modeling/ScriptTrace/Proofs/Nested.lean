import ScriptTrace.Proofs.Invariant

/-!
# Proofs/Nested — the evaluations inside an evaluation

An action *asks* for a piece of work in a machine if it would do something else were that piece of
work, there, to do something else.  The pieces that it asks for, the pieces that these ask for, and
so on, are nested in it.

What is nested in an action begins in a machine that the action may lead to, and a fault that no
program can catch ends the action just as it ended the nested piece (`Action.nested`): what is
caught on the way are thrown values only.
-/

namespace ScriptTrace

/-- A machine and a later one in which nothing but calls was shown since. -/
def Machine.ShowsCalls (m m' : Machine) : Prop :=
  ∃ shown : List Step, (∀ s ∈ shown, s.kind = .functionCall) ∧
    m' = { m with steps := m.steps ++ shown.toArray }

namespace Machine.ShowsCalls

theorem refl (m : Machine) : m.ShowsCalls m := ⟨[], nofun, by simp⟩

/-- Calls that are shown one behind the other are calls that are shown. -/
theorem trans {m m₁ m₂ : Machine} (h₁ : m.ShowsCalls m₁) (h₂ : m₁.ShowsCalls m₂) :
    m.ShowsCalls m₂ := by
  obtain ⟨shown₁, hkind₁, rfl⟩ := h₁
  obtain ⟨shown₂, hkind₂, rfl⟩ := h₂
  refine ⟨shown₁ ++ shown₂, fun s hs => ?_, by simp⟩
  rcases List.mem_append.mp hs with hs | hs
  · exact hkind₁ s hs
  · exact hkind₂ s hs

/-- The step of a call shows a call. -/
theorem recorded (m : Machine) (scope : ScopeId) (line : Nat) (description : String) :
    m.ShowsCalls (m.recorded scope line .functionCall description) :=
  ⟨[m.view scope line .functionCall description],
    fun _ hs => List.mem_singleton.mp hs ▸ rfl, by simp [Machine.recorded]⟩

end Machine.ShowsCalls

/-! ## Pieces of work that are asked for -/

section

variable {α β γ : Type} {x : Evaluator → Exec α} {ev ev' : Evaluator} {w : Work β} {v : Work γ}
  {m m₁ : Machine}

/-- Evaluators that do the same, except with one piece of work in one machine. -/
def Evaluator.AgreesBut (ev ev' : Evaluator) (w : Work β) (m : Machine) : Prop :=
  ∀ {γ : Type} (v : Work γ) (m' : Machine),
    ((⟨γ, v⟩ : Σ α, Work α) ≠ ⟨β, w⟩ ∨ m' ≠ m) → ev'.run v m' = ev.run v m'

/-- **An action asks for a piece of work** in the machine `m₁` if what it does depends on it. -/
def Asks (x : Evaluator → Exec α) (ev : Evaluator) (m : Machine) (w : Work β) (m₁ : Machine) :
    Prop :=
  ∃ ev' : Evaluator, ev.AgreesBut ev' w m₁ ∧ x ev' m ≠ x ev m

theorem not_asks_const {x : Exec α} : ¬ Asks (fun _ => x) ev m w m₁ :=
  fun ⟨_, _, h⟩ => h rfl

/-- A request asks for nothing but itself. -/
theorem Asks.of_run (h : Asks (fun ev => ev.run v) ev m w m₁) :
    (⟨γ, v⟩ : Σ α, Work α) = ⟨β, w⟩ ∧ m = m₁ := by
  obtain ⟨ev', hagree, hne⟩ := h
  by_contra hother
  exact hne (hagree v m (not_and_or.mp hother))

/-- What one action behind another asks for, the first or the second asks for. -/
theorem Asks.of_bind {k : α → Evaluator → Exec γ}
    (h : Asks (fun ev => x ev >>= fun a => k a ev) ev m w m₁) :
    Asks x ev m w m₁ ∨ ∃ a m₂, x ev m = .ok a m₂ ∧ Asks (k a) ev m₂ w m₁ := by
  obtain ⟨ev', hagree, hne⟩ := h
  by_cases hx : x ev' m = x ev m
  · right
    cases hxm : x ev m with
    | ok a m₂ =>
      refine ⟨a, m₂, rfl, ev', hagree, fun hk => hne ?_⟩
      change (x ev' >>= fun a => k a ev') m = (x ev >>= fun a => k a ev) m
      rw [Exec.bind_of_ok (hx.trans hxm), Exec.bind_of_ok hxm, hk]
    | error f m₂ =>
      exact absurd ((Exec.bind_of_error (hx.trans hxm)).trans (Exec.bind_of_error hxm).symm) hne
  · exact .inl ⟨ev', hagree, hx⟩

/-- An action that does in one machine what another one does in another asks for the same. -/
theorem Asks.congr {y : Evaluator → Exec γ} {x : Evaluator → Exec γ} {m' : Machine}
    (h : Asks x ev m w m₁) (hxy : ∀ ev, x ev m = y ev m') : Asks y ev m' w m₁ := by
  obtain ⟨ev', hagree, hne⟩ := h
  exact ⟨ev', hagree, fun heq => hne ((hxy ev').trans (heq.trans (hxy ev).symm))⟩

/-- What is done behind an action asks for nothing. -/
theorem Asks.of_comp {F : Exec α → Exec γ} (hF : ∀ x y : Exec α, x m = y m → F x m = F y m)
    (h : Asks (fun ev => F (x ev)) ev m w m₁) : Asks x ev m w m₁ := by
  obtain ⟨ev', hagree, hne⟩ := h
  exact ⟨ev', hagree, fun hx => hne (hF _ _ hx)⟩

open Classical in
/-- An evaluator that ends in a fault when a piece of work is begun in one machine. -/
noncomputable def Evaluator.failing (ev : Evaluator) (w : Work β) (m₁ : Machine) (f : Fault) :
    Evaluator where
  run {γ} v m := if (⟨γ, v⟩ : Σ α, Work α) = ⟨β, w⟩ ∧ m = m₁ then .error f m else ev.run v m

theorem Evaluator.run_failing {f : Fault} :
    (ev.failing w m₁ f).run w m₁ = .error f m₁ := if_pos ⟨rfl, rfl⟩

theorem Evaluator.agreesBut_failing (ev : Evaluator) (w : Work β) (m₁ : Machine) (f : Fault) :
    ev.AgreesBut (ev.failing w m₁ f) w m₁ := fun _ _ hother => if_neg (not_and_or.mpr hother)

/-- What ends an action when it ends in a fault that cannot be caught is asked for. -/
theorem Asks.of_failing (h : ∀ f : Fault, f.isThrown = false →
    (x (ev.failing w m₁ f)).faultOf m = some f) : Asks x ev m w m₁ := by
  -- Of two faults one is not what the action ends in anyway.
  by_cases hx : (x ev).faultOf m = some .exhausted
  · refine ⟨_, ev.agreesBut_failing w m₁ .callDepth, fun heq => ?_⟩
    cases hx.symm.trans ((Exec.faultOf_congr heq).symm.trans (h .callDepth rfl))
  · refine ⟨_, ev.agreesBut_failing w m₁ .exhausted, fun heq => hx ?_⟩
    exact (Exec.faultOf_congr heq).symm.trans (h .exhausted rfl)

/-- What fails when a piece of work does asks for that piece. -/
theorem Asks.of_fails
    (h : ∀ (ev : Evaluator) (f : Fault), ev.run w m₁ = .error f m₁ → x ev m = .error f m₁) :
    Asks x ev m w m₁ :=
  .of_failing fun f _ => Exec.faultOf_of_error (h _ f Evaluator.run_failing)

/-- **The pieces of work nested in an action** with the fuel they are given and the machine they
begin in. -/
inductive Nested (x : Evaluator → Exec α) (fuel : Nat) (m : Machine) :
    {β : Type} → Work β → Nat → Machine → Prop
  | asked {β : Type} {w : Work β} {m₁ : Machine} (h : Asks x (.bounded fuel) m w m₁) :
    Nested x fuel m w fuel m₁
  | inside {β γ : Type} {w : Work β} {v : Work γ} {k : Nat} {m₁ m₂ : Machine}
    (hw : Nested x fuel m w (k + 1) m₁)
    (h : Asks (fun ev => ev.step w) (.bounded k) m₁ v m₂) : Nested x fuel m v k m₂

end

/-- An action in which something is nested asks for something itself. -/
theorem Nested.exists_asks {α β : Type} {x : Evaluator → Exec α} {fuel k : Nat} {m m₁ : Machine}
    {v : Work β} (h : Nested x fuel m v k m₁) :
    ∃ (γ : Type) (w : Work γ) (m₂ : Machine), Asks x (.bounded fuel) m w m₂ := by
  induction h with
  | asked h => exact ⟨_, _, _, h⟩
  | inside _ _ ih => exact ih

/-- What is nested in an action is nested in one that does the same. -/
theorem Nested.congr {α β : Type} {x y : Evaluator → Exec α} {fuel k : Nat} {m m' m₁ : Machine}
    {v : Work β} (h : Nested x fuel m v k m₁) (hxy : ∀ ev, x ev m = y ev m') :
    Nested y fuel m' v k m₁ := by
  induction h with
  | asked h => exact .asked (h.congr hxy)
  | inside _ h ih => exact ih.inside h

theorem Exec.enterPhase_eq {phase : Phase} {description : String} {m : Machine} :
    Exec.enterPhase phase description m =
      .ok () ({ m with phase }.recorded Scopes.globalId 0 .eventLoop description) := rfl

/-- The first statement of a program is nested in its run. -/
theorem Nested.first {s : Syntax.Stmt} {ss : List Syntax.Stmt} {fuel : Nat} {m m₁ : Machine}
    (h : Exec.hoistBody Scopes.globalId (s :: ss) m = .ok () m₁) :
    Nested (fun ev => ev.runProgram (s :: ss)) fuel m (.statement Scopes.globalId none s) fuel
      ({ m₁ with phase := .executing }.recorded Scopes.globalId 0 .eventLoop
        "Run script: synchronous code executes on the call stack") := by
  refine .asked (.of_fails fun ev f hf => ?_)
  have hstatements : ev.statements Scopes.globalId (s :: ss) _ = .error f _ :=
    Exec.bind_of_error hf
  refine (Exec.bind_of_ok h).trans ((Exec.bind_of_ok Exec.enterPhase_eq).trans ?_)
  exact Exec.bind_of_error (Exec.bind_of_error hstatements)

/-! ## What an action does with what it asks for -/

namespace Invariant

variable {I : Invariant} {l : Layer} {W : World} {α β : Type} {ev : Evaluator}

/-- What is asked for begins in a machine that is considered, and ends the action if it ends in a
fault that cannot be caught. -/
def Tracks (I : Invariant) (l : Layer) (ev : Evaluator) (W : World) (x : Evaluator → Exec α) :
    Prop :=
  ∀ ⦃m m₁ : Machine⦄ ⦃β : Type⦄ ⦃w : Work β⦄, I.State m → I.world m = W → Asks x ev m w m₁ →
    I.Leads m none m₁ ∧ w.Fits l (I.world m₁) ∧
      ∀ {f m₂}, ev.run w m₁ = .error f m₂ → f.isThrown = false →
        ∃ m', m₂.ShowsCalls m' ∧ x ev m = .error f m'

/-- An action that respects an invariant and does so with what it asks for. -/
structure Follows (I : Invariant) (l : Layer) (ev : Evaluator) (W : World)
    (x : Evaluator → Exec α) (Q : World → α → Prop) : Prop where
  keeps : I.Keeps W (x ev) Q
  tracks : I.Tracks l ev W x

namespace Tracks

theorem const {x : Exec α} : I.Tracks l ev W fun _ => x :=
  fun _ _ _ _ _ _ h => (not_asks_const h).elim

/-- What an action does with another one hands its faults on. -/
theorem comp {γ : Type} {x : Evaluator → Exec α} {F : Exec α → Exec γ}
    (hF : ∀ (x y : Exec α) (m : Machine), x m = y m → F x m = F y m)
    (hfault : ∀ {x : Exec α} {m f m₁}, x m = .error f m₁ → f.isThrown = false →
      ∀ {m₀ : Machine}, m₀.ShowsCalls m₁ → ∃ m₂, m₀.ShowsCalls m₂ ∧ F x m = .error f m₂)
    (hx : I.Tracks l ev W x) : I.Tracks l ev W fun ev => F (x ev) := by
  intro m m₁ β w hm hW h
  obtain ⟨hlead, hfit, hend⟩ := hx hm hW (h.of_comp fun x y => hF x y m)
  refine ⟨hlead, hfit, fun hw hf => ?_⟩
  obtain ⟨m', hshow, hxm⟩ := hend hw hf
  exact hfault hxm hf hshow

theorem catchThrown {x : Evaluator → Exec α} (hx : I.Tracks l ev W x) :
    I.Tracks l ev W fun ev => Exec.catchThrown (x ev) :=
  hx.comp (fun _ _ _ => Exec.catchThrown_congr)
    fun hxm hf _ hshow => ⟨_, hshow, Exec.catchThrown_of_error hxm hf⟩

theorem followedBy {x : Evaluator → Exec α} {scope : ScopeId} {line : Nat}
    {description : String} (hx : I.Tracks l ev W x) :
    I.Tracks l ev W fun ev =>
      Exec.followedBy (x ev) (Exec.record scope line .functionCall description) :=
  hx.comp (fun _ _ _ => Exec.followedBy_congr)
    fun hxm _ _ hshow => ⟨_, hshow.trans (.recorded _ _ _ _), Exec.followedBy_of_error hxm⟩

theorem orElseShow {x : Evaluator → Exec α} {y : Exec Unit} (hx : I.Tracks l ev W x) :
    I.Tracks l ev W fun ev => Exec.orElseShow (x ev) y :=
  hx.comp (fun _ _ _ => Exec.orElseShow_congr)
    fun hxm _ _ hshow => ⟨_, hshow, Exec.orElseShow_of_error hxm⟩

end Tracks

namespace Follows

theorem const {x : Exec α} {Q : World → α → Prop} (hx : I.Keeps W x Q) :
    I.Follows l ev W (fun _ => x) Q := ⟨hx, .const⟩

/-- One action behind another follows what both of them ask for. -/
theorem bind (hI : I.Composes l) {x : Evaluator → Exec α} {k : α → Evaluator → Exec β}
    {Q : World → α → Prop} {R : World → β → Prop} (hx : I.Follows l ev W x Q)
    (hk : ∀ W', W ⊆ W' → ∀ a, Q W' a → I.Follows l ev W' (k a) R) :
    I.Follows l ev W (fun ev => x ev >>= fun a => k a ev) R where
  keeps := hI.bind hx.keeps fun W' hW a ha => (hk W' hW a ha).keeps
  tracks := by
    intro m m₁ γ w hm hW h
    rcases h.of_bind with h | ⟨a, m₂, hxm, h⟩
    · obtain ⟨hlead, hfit, hend⟩ := hx.tracks hm hW h
      refine ⟨hlead, hfit, fun hw hf => ?_⟩
      obtain ⟨m', hshow, hxm⟩ := hend hw hf
      exact ⟨m', hshow, Exec.bind_of_error hxm⟩
    · obtain ⟨h₂, ha⟩ := hx.keeps.ok hm hW hxm
      obtain ⟨hlead, hfit, hend⟩ := (hk _ (hW ▸ h₂.grows) a ha).tracks h₂.state rfl h
      refine ⟨hI.chain h₂ hlead, hfit, fun hw hf => ?_⟩
      obtain ⟨m', hshow, hkm⟩ := hend hw hf
      exact ⟨m', hshow, (Exec.bind_of_ok hxm).trans hkm⟩

/-- **A call does with the work inside it** what its parts do. -/
theorem routine (hI : I.Stepwise l) {x : Evaluator → Exec α} {Q : World → α → Prop}
    (h : Routine l (fun W _ x Q => I.Follows l ev W x Q) W x Q) : I.Follows l ev W x Q := by
  induction h with
  | part h => exact h
  | plain hx h =>
    exact .const ((hI.plain hx).weaken fun _ _ a ha => ha.2 ▸ h a ha.1)
  | bind hx hk ihx ihk => exact bind hI.toComposes ihx ihk
  | newScope h hk hr => exact .const (hI.newScope h hk hr)
  | catchThrown hx ih => exact ⟨hI.catchThrown ih.keeps, ih.tracks.catchThrown⟩
  | currentScope => exact .const hI.currentScope
  | pushFrame => exact .const hI.pushFrame
  | popFrame => exact .const hI.popFrame
  | showCall hx h ih => exact ⟨hI.showCall ih.keeps h, ih.tracks.followedBy⟩
  | showReturn h => exact .const (hI.showReturn h)

/-- A request to an evaluator. -/
theorem run (hI : I.Composes l) (hev : ev.Keeps I l) {w : Work α} (hw : w.Fits l W) :
    I.Follows l ev W (fun ev => ev.run w) fun W' a => w.Yields W' a where
  keeps := hev hw
  tracks := by
    intro m m₁ β v hm hW h
    obtain ⟨hwv, rfl⟩ := h.of_run
    cases hwv
    exact ⟨hI.stay hm, hW ▸ hw, fun hwm _ => ⟨_, .refl _, hwm⟩⟩

end Follows

end Invariant

section

variable {I : Invariant} {l : Layer} {W : World} {α β : Type}

/-- **Every action follows what it asks for.** -/
theorem Action.follows [hl : l.Roams] (hI : I.Stepwise l) {ev : Evaluator} (hev : ev.Keeps I l)
    {x : Evaluator → Exec α} {Q : World → α → Prop} (h : Action l W x Q) :
    I.Follows l ev W x Q := by
  induction h with
  | plain hx h => exact .const ((hI.plain hx).weaken fun _ _ a ha => ha.2 ▸ h a ha.1)
  | seq hx hk ih =>
    refine .bind hI.toComposes (.const (hI.plain hx)) fun W' _ a ha => ?_
    obtain ⟨ha, rfl⟩ := ha
    exact ih a ha
  | bind hx hk ihx ihk => exact .bind hI.toComposes ihx ihk
  | weaken hx h ih => exact ⟨ih.keeps.weaken h, ih.tracks⟩
  | allocate h hf hc => exact .const (hI.allocate h hf hc)
  | newScope h hk hr => exact .const (hI.newScope h hk hr)
  | copyScope h => exact .const (hI.copyScope h)
  | eval h => exact .run hI.toComposes hev h
  | catchThrown hx ih => exact ⟨hI.catchThrown ih.keeps, ih.tracks.catchThrown⟩
  | orElseShow hx h hl ih => exact ⟨hI.orElseShow ih.keeps h, ih.tracks.orElseShow⟩
  | invoke hid hc ht hbind hbody _ ihbind ihbody =>
    exact .routine hI (.invoke hid hc ht ihbind (ihbody hl))

/-- **What is nested in an action** begins in a machine that the action may lead to, and ends the
action if it ends in a fault that cannot be caught. -/
theorem Action.nested [l.Executes] (hI : I.Stepwise l) {x : Evaluator → Exec α}
    {Q : World → α → Prop} {fuel k : Nat} {m m₁ : Machine} {w : Work β}
    (hx : Action l (I.world m) x Q) (hm : I.State m) (h : Nested x fuel m w k m₁) :
    I.Leads m none m₁ ∧ w.Fits l (I.world m₁) ∧
      ∀ {f m₂}, w.exec k m₁ = .error f m₂ → f.isThrown = false →
        ∃ m', m₂.ShowsCalls m' ∧ x (.bounded fuel) m = .error f m' := by
  have hev (fuel : Nat) : (Evaluator.bounded fuel).Keeps I l :=
    Evaluator.keeps_bounded hI.lawful fuel
  induction h with
  | asked h => exact (hx.follows hI (hev _)).tracks hm rfl h
  | @inside _ _ w _ _ m₁ _ _ h ih =>
    obtain ⟨hlead, hfit, hend⟩ := ih
    have hstep : Action l (I.world m₁) (fun ev => ev.step w) fun W' a => w.Yields W' a :=
      .step hfit
    obtain ⟨hlead', hfit', hend'⟩ := (hstep.follows hI (hev _)).tracks hlead.state rfl h
    refine ⟨hI.chain hlead hlead', hfit', fun hv hf => ?_⟩
    obtain ⟨m', hshow', hwm⟩ := hend' hv hf
    obtain ⟨m'', hshow, hxm⟩ := hend hwm hf
    exact ⟨m'', hshow'.trans hshow, hxm⟩

end

end ScriptTrace
