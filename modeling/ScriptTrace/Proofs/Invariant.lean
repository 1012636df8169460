import ScriptTrace.Proofs.Composition.Statement
import ScriptTrace.Proofs.Effect
import ScriptTrace.Proofs.Routine

/-!
# Proofs/Invariant — what every evaluation keeps

An invariant says which machines are considered, what they hold, and how a machine may be related to
one that evaluation leads to.  If elementary actions and calls respect it, every action does
(`Action.keeps`), and by induction on the fuel so does the evaluator (`Evaluator.keeps_bounded`).
What single effects respect, elementary actions do (`Composes.of_effects`).

An invariant for which the parts of a call need not be told apart is `Stepwise`: it is enough to
look at what is done at once.
-/

namespace ScriptTrace

/-- **What is kept by evaluation.** -/
structure Invariant where
  /-- The machines that are considered. -/
  State : Machine → Prop
  /-- What a machine holds. -/
  world : Machine → World
  /-- A machine and a later one, behind an action that ended in this fault or in none. -/
  Moves : Machine → Option Fault → Machine → Prop

namespace Invariant

variable {I : Invariant} {l : Layer} {W : World} {α β : Type}

/-- What holds between a machine and a later one. -/
structure Leads (I : Invariant) (m : Machine) (f : Option Fault) (m' : Machine) : Prop where
  state : I.State m'
  grows : I.world m ⊆ I.world m'
  held : ∀ g, f = some g → Within (I.world m') g
  moves : I.Moves m f m'

/-- **An action respects an invariant** in the machines that hold `W`. -/
structure Keeps (I : Invariant) (W : World) (x : Exec α) (Q : World → α → Prop) : Prop where
  ok : ∀ {m m' : Machine} {a : α}, I.State m → I.world m = W → x m = .ok a m' →
    I.Leads m none m' ∧ Q (I.world m') a
  error : ∀ {m m' : Machine} {f : Fault}, I.State m → I.world m = W → x m = .error f m' →
    I.Leads m (some f) m'

/-- What is kept is kept in a weaker form. -/
theorem Keeps.weaken {x : Exec α} {Q R : World → α → Prop} (hx : I.Keeps W x Q)
    (h : ∀ W', W ⊆ W' → ∀ a, Q W' a → R W' a) : I.Keeps W x R where
  ok hm hW hxa :=
    have ⟨h₁, ha⟩ := hx.ok hm hW hxa
    ⟨h₁, h _ (hW ▸ h₁.grows) _ ha⟩
  error := hx.error

/-! ## Laws -/

/-- Machines that are considered lead to such machines only, and results name what these hold. -/
structure Safe (I : Invariant) : Prop where
  current : ∀ {m}, I.State m → Sees (I.world m) m.scope
  effect : ∀ {l m f m'}, I.State m → Effect l (I.world m) m f m' →
    I.State m' ∧ I.world m ⊆ I.world m' ∧ ∀ g, f = some g → Within (I.world m') g
  call : ∀ {m f m'}, I.State m → CallEffect (I.world m) m f m' →
    I.State m' ∧ I.world m ⊆ I.world m'
  yields : ∀ {l W α} {x : Exec α} {P : α → Prop} {m m' a}, Elementary l W x P → I.State m →
    I.world m = W → x m = .ok a m' → P a ∧ I.world m' = W
  allocate : ∀ {m body className}, I.State m → Within (I.world m) body →
    .object m.heap.size ∈ I.world { m with heap := m.heap.add body className } ∧
      ((∃ r, body = .promise r) →
        .promise m.heap.size ∈ I.world { m with heap := m.heap.add body className })
  newScope : ∀ {m s}, I.State m →
    .scope m.scopes.size ∈ I.world { m with scopes := m.scopes.push s }

/-- What is kept by elementary actions is kept by their compositions. -/
structure Composes (I : Invariant) (l : Layer) : Prop where
  safe : I.Safe
  refl : ∀ {m}, I.State m → I.Moves m none m
  trans : ∀ {m m₁ m₂ f}, I.Moves m none m₁ → I.Moves m₁ f m₂ → I.Moves m f m₂
  caught : ∀ {m m'} {t : Thrown}, I.Moves m (some t.fault) m' → I.Moves m none m'
  acts : ∀ {W α m} {x : Exec α} {P : α → Prop}, Elementary l W x P → I.State m → I.world m = W →
    I.Moves m (x.faultOf m) (x.after m)
  makes : ∀ {m m'}, I.State m → Makes l (I.world m) m m' → I.Moves m none m'
  exhausts : ∀ {m}, I.State m → I.Moves m (some .exhausted) m

/-- **An invariant that every action respects**: calls do if the work inside them does. -/
structure Lawful (I : Invariant) (l : Layer) : Prop extends Composes I l where
  invoke : ∀ {W id} {c : Closure} {this args line} {ev : Evaluator}, .object id ∈ W →
    Within W c → Within W this →
    (∀ W', W ⊆ W' → ∀ scope, .scope scope ∈ W' →
      I.Keeps W' (ev.bindArguments scope c.definition args) Free) →
    (∀ W', W ⊆ W' → ∀ scope, .scope scope ∈ W' →
      I.Keeps W' (ev.runBody scope c.definition.body) Within) →
    I.Keeps W (ev.invoke id c this args line) Within

/-- An invariant of single actions.  The step that shows a call whose parameters could not be bound
is recorded behind the fault. -/
structure Stepwise (I : Invariant) (l : Layer) : Prop extends Composes I l where
  call : ∀ {m f m'}, I.State m → CallEffect (I.world m) m f m' → I.Moves m f m'
  shown : ∀ {m m' f scope line description}, I.Moves m (some f) m' → I.State m' →
    Sees (I.world m') scope →
    I.Moves m (some f) (m'.recorded scope line .functionCall description)

/-- Several effects lead to machines that are considered, too. -/
theorem Safe.effects (hI : I.Safe) {m m' : Machine} {f : Option Fault} (hm : I.State m)
    (hW : W ⊆ I.world m) (h : Effects l W m f m') :
    I.State m' ∧ I.world m ⊆ I.world m' ∧ ∀ g, f = some g → Within (I.world m') g := by
  induction h with
  | one h => exact hI.effect hm (h.mono hW)
  | more h _ ih =>
    obtain ⟨hs, hg, -⟩ := hI.effect hm (h.mono hW)
    obtain ⟨hs', hg', hh⟩ := ih hs (hW.trans hg)
    exact ⟨hs', hg.trans hg', hh⟩

/-- An elementary action is made of effects in the machines that are considered. -/
theorem Safe.elementary (hI : I.Safe) {x : Exec α} {P : α → Prop} {m : Machine}
    (h : Elementary l W x P) (hm : I.State m) (hW : I.world m = W) :
    Effects l W m (x.faultOf m) (x.after m) := by
  have hheap : Exec.heap m = .ok m.heap m := rfl
  exact h.effects (hI.yields (l := l) .heap hm hW hheap).1

namespace Composes

/-- **What single effects respect, their compositions do.** -/
theorem of_effects (safe : I.Safe) (refl : ∀ {m}, I.State m → I.Moves m none m)
    (trans : ∀ {m m₁ m₂ f}, I.Moves m none m₁ → I.Moves m₁ f m₂ → I.Moves m f m₂)
    (caught : ∀ {m m'} {t : Thrown}, I.Moves m (some t.fault) m' → I.Moves m none m')
    (effect : ∀ {m f m'}, I.State m → Effect l (I.world m) m f m' → I.Moves m f m') :
    I.Composes l where
  safe := safe
  refl := refl
  trans := trans
  caught := caught
  makes hm h := effect hm h.effect
  exhausts hm := effect hm (.fail rfl nofun)
  acts {W _ m x _} h hm hW := by
    have heffects := safe.elementary h hm hW
    generalize x.faultOf m = f, x.after m = m' at heffects ⊢
    clear h
    replace hW : W ⊆ I.world m := hW.ge
    induction heffects with
    | one h => exact effect hm (h.mono hW)
    | more h _ ih =>
      obtain ⟨hs, hg, -⟩ := safe.effect hm (h.mono hW)
      exact trans (effect hm (h.mono hW)) (ih hs (hW.trans hg))

/-- An elementary action leads from one machine to another as it may. -/
theorem leads (hI : I.Composes l) {x : Exec α} {P : α → Prop} {m : Machine}
    (h : Elementary l W x P) (hm : I.State m) (hW : I.world m = W) :
    I.Leads m (x.faultOf m) (x.after m) :=
  have ⟨hs, hg, hh⟩ := hI.safe.effects hm hW.ge (hI.safe.elementary h hm hW)
  ⟨hs, hg, hh, hI.acts h hm hW⟩

/-- What is made leads from one machine to another as it may. -/
theorem made (hI : I.Composes l) {m m' : Machine} (hm : I.State m)
    (h : Makes l (I.world m) m m') : I.Leads m none m' :=
  have ⟨hs, hg, hh⟩ := hI.safe.effect hm h.effect
  ⟨hs, hg, hh, hI.makes hm h⟩

theorem stay (hI : I.Composes l) {m : Machine} (hm : I.State m) : I.Leads m none m :=
  ⟨hm, subset_rfl, nofun, hI.refl hm⟩

theorem chain (hI : I.Composes l) {m m₁ m₂ : Machine} {f : Option Fault}
    (h₁ : I.Leads m none m₁) (h₂ : I.Leads m₁ f m₂) : I.Leads m f m₂ :=
  ⟨h₂.state, h₁.grows.trans h₂.grows, h₂.held, hI.trans h₁.moves h₂.moves⟩

/-! ## Compositions -/

theorem pure (hI : I.Composes l) {Q : World → α → Prop} {a : α} (ha : Q W a) :
    I.Keeps W (Pure.pure a) Q where
  ok hm hW h := by
    cases h
    exact ⟨hI.stay hm, hW ▸ ha⟩
  error _ _ h := by cases h

/-- One action behind another keeps what both keep, in a world that may have grown. -/
theorem bind (hI : I.Composes l) {x : Exec α} {k : α → Exec β} {Q : World → α → Prop}
    {R : World → β → Prop} (hx : I.Keeps W x Q)
    (hk : ∀ W', W ⊆ W' → ∀ a, Q W' a → I.Keeps W' (k a) R) : I.Keeps W (x >>= k) R where
  ok hm hW h := by
    obtain ⟨a, m₁, hxa, hka⟩ := Exec.bind_eq_ok h
    obtain ⟨h₁, ha⟩ := hx.ok hm hW hxa
    obtain ⟨h₂, hb⟩ := (hk _ (hW ▸ h₁.grows) a ha).ok h₁.state rfl hka
    exact ⟨hI.chain h₁ h₂, hb⟩
  error hm hW h := by
    rcases Exec.bind_eq_error h with hxf | ⟨a, m₁, hxa, hka⟩
    · exact hx.error hm hW hxf
    · obtain ⟨h₁, ha⟩ := hx.ok hm hW hxa
      exact hI.chain h₁ ((hk _ (hW ▸ h₁.grows) a ha).error h₁.state rfl hka)

/-- A thrown value that is caught leaves the machine as it was thrown. -/
theorem catchThrown (hI : I.Composes l) {x : Exec α} {Q : World → α → Prop}
    (hx : I.Keeps W x Q) : I.Keeps W (Exec.catchThrown x) (Caught Q) where
  ok hm hW h := by
    rcases Exec.catchThrown_eq_ok h with ⟨a, rfl, hxa⟩ | ⟨t, rfl, hxt⟩
    · exact hx.ok hm hW hxa
    · have h₁ := hx.error hm hW hxt
      exact ⟨⟨h₁.state, h₁.grows, nofun, hI.caught h₁.moves⟩, h₁.held _ rfl⟩
  error hm hW h := hx.error hm hW (Exec.catchThrown_eq_error h).1

/-- An elementary action is one effect. -/
theorem elementary (hI : I.Composes l) {x : Exec α} {P : α → Prop} (h : Elementary l W x P) :
    I.Keeps W x fun W' a => P a ∧ W' = W where
  ok hm hW hx := by
    refine ⟨?_, hI.safe.yields h hm hW hx⟩
    rw [← Exec.faultOf_of_ok hx, ← Exec.after_of_ok hx]
    exact hI.leads h hm hW
  error hm hW hx := by
    rw [← Exec.faultOf_of_error hx, ← Exec.after_of_error hx]
    exact hI.leads h hm hW

/-- A new object is known from then on. -/
theorem allocate (hI : I.Composes l) {body : Body} {className : Option String}
    (hb : Within W body) (hf : body.isFresh = true)
    (hc : ∀ c, body = .closure c → l.Evaluates) :
    I.Keeps W (Exec.allocate body className) fun W' id =>
      .object id ∈ W' ∧ ((∃ r, body = .promise r) → .promise id ∈ W') where
  ok hm hW h := by
    cases h
    subst hW
    exact ⟨hI.made hm (.object hb hf hc), hI.safe.allocate hm hb⟩
  error _ _ h := by cases h

/-- A new scope is known from then on. -/
theorem newScope (hI : I.Composes l) {parent : ScopeId} {kind : ScopeKind}
    {receiver : Option Value} (h : Sees W parent) (hk : kind ≠ .global)
    (hr : Within W receiver) :
    I.Keeps W (Exec.newScope ⟨some parent, kind, [], receiver⟩) fun W' id =>
      .scope id ∈ W' where
  ok hm hW hx := by
    cases hx
    subst hW
    exact ⟨hI.made hm (.scope h hk hr), hI.safe.newScope hm⟩
  error _ _ hx := by cases hx

/-- A copied scope is known from then on. -/
theorem copyScope (hI : I.Composes l) {scope : ScopeId} (h : .scope scope ∈ W) :
    I.Keeps W (Exec.copyScope scope) fun W' id => .scope id ∈ W' where
  ok hm hW hx := by
    cases hx
    subst hW
    exact ⟨hI.made hm (.copy h), hI.safe.newScope hm⟩
  error _ _ hx := by cases hx

/-- Evaluation that was given no room. -/
theorem exhausted (hI : I.Composes l) {Q : World → α → Prop} :
    I.Keeps W (throw .exhausted : Exec α) Q where
  ok _ _ h := by cases h
  error hm _ h := by
    cases h
    exact ⟨hm, subset_rfl, fun _ hg => Option.some.inj hg ▸ within_fault rfl, hI.exhausts hm⟩

/-- If something is thrown, the step that shows the expression comes behind it. -/
theorem orElseShow [l.Executes] (hI : I.Composes l) {x : Exec α} {Q : World → α → Prop}
    {scope : ScopeId} {line : Nat} {description : String} (hx : I.Keeps W x Q) (hs : Sees W scope) :
    I.Keeps W (Exec.orElseShow x (Exec.record scope line .expression description)) Free where
  ok {m m' _} hm hW h := by
    cases hxm : x m with
    | error f m₁ => cases (Exec.orElseShow_of_error hxm).symm.trans h
    | ok a m₁ =>
      obtain ⟨h₁, -⟩ := hx.ok hm hW hxm
      rw [Exec.orElseShow_of_ok hxm] at h
      split at h
      · cases h
        have hs₁ : Sees (I.world m₁) scope := hs.mono (hW ▸ h₁.grows)
        have hshow : Elementary l (I.world m₁)
            (Exec.record scope line .expression description) Any :=
            .record hs₁ rfl (fun _ => ‹_›) inferInstance
        exact ⟨hI.chain h₁ (hI.leads hshow h₁.state rfl), trivial⟩
      · cases h
        exact ⟨h₁, trivial⟩
  error {m m' f} hm hW h := by
    cases hxm : x m with
    | error g m₁ =>
      cases (Exec.orElseShow_of_error hxm).symm.trans h
      exact hx.error hm hW hxm
    | ok a m₁ =>
      rw [Exec.orElseShow_of_ok hxm] at h
      split at h <;> cases h

/-- Plain actions hold no more than they found. -/
theorem plain (hI : I.Composes l) {x : Exec α} {P : α → Prop} (h : Plain l W x P) :
    I.Keeps W x fun W' a => P a ∧ W' = W := by
  induction h with
  | pure ha => exact hI.pure ⟨ha, rfl⟩
  | elementary h => exact hI.elementary h
  | bind hx hk ihx ihk =>
    refine hI.bind ihx fun W' _ a ha => ?_
    obtain ⟨ha, rfl⟩ := ha
    exact ihk a ha
  | weaken hx h ih => exact ih.weaken fun _ _ a ha => ⟨h a ha.1, ha.2⟩

end Composes

/-! ## Calls, one effect at a time -/

namespace Stepwise

theorem call_leads (hI : I.Stepwise l) {m m' : Machine} {f : Option Fault} (hm : I.State m)
    (h : CallEffect (I.world m) m f m') (hf : ∀ g, f = some g → g = .callDepth) :
    I.Leads m f m' :=
  have ⟨hs, hg⟩ := hI.safe.call hm h
  ⟨hs, hg, fun g hfg => within_fault (hf g hfg ▸ rfl), hI.call hm h⟩

/-- A frame is opened, or the call is refused. -/
theorem pushFrame (hI : I.Stepwise l) {name : String} {line : Nat} :
    I.Keeps W (Exec.pushFrame name line) Free where
  ok {m _ _} hm hW h := by
    rcases Nat.lt_or_ge m.frames.length m.limits.maxCallDepth with hd | hd
    · cases (Exec.pushFrame_of_lt hd).symm.trans h
      exact ⟨hI.call_leads hm (.push hd) nofun, trivial⟩
    · cases (Exec.pushFrame_of_le hd).symm.trans h
  error {m _ _} hm hW h := by
    rcases Nat.lt_or_ge m.frames.length m.limits.maxCallDepth with hd | hd
    · cases (Exec.pushFrame_of_lt hd).symm.trans h
    · cases (Exec.pushFrame_of_le hd).symm.trans h
      exact hI.call_leads hm (.tooDeep hd) fun g hg => (Option.some.inj hg).symm

theorem currentScope (hI : I.Stepwise l) : I.Keeps W Exec.currentScope Sees where
  ok hm _ h := by
    cases h
    exact ⟨hI.stay hm, hI.safe.current hm⟩
  error _ _ h := by cases h

/-- Recording the step of a call. -/
theorem showCall (hI : I.Stepwise l) {x : Exec α} {Q : World → α → Prop} {scope : ScopeId}
    {line : Nat} {description : String} (hx : I.Keeps W x Q) (hs : Sees W scope) :
    I.Keeps W (Exec.followedBy x (Exec.record scope line .functionCall description)) Free where
  ok {m _ _} hm hW h := by
    cases hxm : x m with
    | error f m₁ => cases (Exec.followedBy_of_error hxm).symm.trans h
    | ok a m₁ =>
      cases (Exec.followedBy_of_ok hxm).symm.trans h
      obtain ⟨h₁, -⟩ := hx.ok hm hW hxm
      have hs₁ : Sees (I.world m₁) scope := hs.mono (hW ▸ h₁.grows)
      exact ⟨hI.chain h₁ (hI.call_leads h₁.state (.showCall hs₁) nofun), trivial⟩
  error {m _ _} hm hW h := by
    cases hxm : x m with
    | ok a m₁ => cases (Exec.followedBy_of_ok hxm).symm.trans h
    | error f m₁ =>
      cases (Exec.followedBy_of_error hxm).symm.trans h
      have h₁ := hx.error hm hW hxm
      have hs₁ : Sees (I.world m₁) scope := hs.mono (hW ▸ h₁.grows)
      have hcall : CallEffect (I.world m₁) m₁ none
          (m₁.recorded scope line .functionCall description) := .showCall hs₁
      obtain ⟨hstate, hgrows⟩ := hI.safe.call h₁.state hcall
      exact ⟨hstate, h₁.grows.trans hgrows, fun g hg => (h₁.held g hg).mono hgrows,
        hI.shown h₁.moves h₁.state hs₁⟩

theorem popFrame (hI : I.Stepwise l) : I.Keeps W Exec.popFrame Free where
  ok hm _ h := by
    cases h
    exact ⟨hI.call_leads hm .pop nofun, trivial⟩
  error _ _ h := by cases h

/-- The return is shown after its frame has gone. -/
theorem showReturn (hI : I.Stepwise l) {scope : ScopeId} {line : Nat} {description : String}
    (h : Sees W scope) :
    I.Keeps W (Exec.record scope line .functionReturn description) Free where
  ok hm hW hx := by
    cases hx
    subst hW
    exact ⟨hI.call_leads hm (.showReturn h) nofun, trivial⟩
  error _ _ hx := by cases hx

/-- **What the parts of a call respect, the call does.** -/
theorem routine (hI : I.Stepwise l) (ev : Evaluator) {x : Evaluator → Exec α}
    {Q : World → α → Prop} (h : Routine l (fun W _ x Q => I.Keeps W (x ev) Q) W x Q) :
    I.Keeps W (x ev) Q := by
  induction h with
  | part h => exact h
  | plain hx h => exact (hI.plain hx).weaken fun _ _ a ha => ha.2 ▸ h a ha.1
  | bind hx hk ihx ihk => exact hI.bind ihx ihk
  | newScope h hk hr => exact hI.newScope h hk hr
  | catchThrown hx ih => exact hI.catchThrown ih
  | currentScope => exact hI.currentScope
  | pushFrame => exact hI.pushFrame
  | popFrame => exact hI.popFrame
  | showCall hx h ih => exact hI.showCall ih h
  | showReturn h => exact hI.showReturn h

/-- An invariant that every step keeps is lawful. -/
theorem lawful [l.Roams] (hI : I.Stepwise l) : I.Lawful l :=
  { hI.toComposes with
    invoke := fun {_ _ _ _ _ _ ev} hid hc ht hbind hbody =>
      hI.routine ev (.invoke hid hc ht hbind hbody) }

end Stepwise

end Invariant

/-! ## Invariants of all machines -/

/-- An invariant of all machines, whatever they hold. -/
def Invariant.ofMoves (moves : Machine → Option Fault → Machine → Prop) : Invariant :=
  ⟨fun _ => True, fun _ => Set.univ, moves⟩

/-- In the world of all entities nothing is left to show of a result. -/
theorem Elementary.yields_univ {l : Layer} {α : Type} {x : Exec α} {P : α → Prop}
    (h : Elementary l Set.univ x P) {m m' : Machine} {a : α} (hx : x m = .ok a m') : P a := by
  cases h with
  | scopes => exact ⟨within_univ _, fun _ _ => sees_univ _⟩
  | throw | raise | fail => cases hx
  | _ => first | exact trivial | exact within_univ _

theorem Work.yields_univ {α : Type} (w : Work α) (a : α) : w.Yields Set.univ a := by
  cases w with
  | bind | microtasks | macrotasks => trivial
  | _ => exact within_univ a

/-- What relates the machines before and after asks nothing of the world. -/
theorem Invariant.safe_ofMoves (moves : Machine → Option Fault → Machine → Prop) :
    (ofMoves moves).Safe where
  current _ := sees_univ _
  effect _ _ := ⟨trivial, subset_rfl, fun _ _ => within_univ _⟩
  call _ _ := ⟨trivial, subset_rfl⟩
  yields h _ hW hx := by
    subst hW
    exact ⟨h.yields_univ hx, rfl⟩
  allocate _ _ := ⟨trivial, fun _ => trivial⟩
  newScope _ := trivial

/-- What is kept from every machine on relates its beginning and its end. -/
theorem Invariant.Keeps.moves_of_univ {moves : Machine → Option Fault → Machine → Prop} {α : Type}
    {x : Exec α} {Q : World → α → Prop} (hx : (ofMoves moves).Keeps Set.univ x Q) (m : Machine) :
    moves m (x.faultOf m) (x.after m) := by
  cases heq : x m with
  | ok a m' =>
    rw [Exec.faultOf_of_ok heq, Exec.after_of_ok heq]
    exact (hx.ok trivial rfl heq).1.moves
  | error f m' =>
    rw [Exec.faultOf_of_error heq, Exec.after_of_error heq]
    exact (hx.error trivial rfl heq).moves

/-- What relates each machine to the one it leads to is kept. -/
theorem Invariant.keeps_of_moves {moves : Machine → Option Fault → Machine → Prop} {α : Type}
    {W : World} {x : Exec α} {Q : World → α → Prop} (hQ : ∀ a, Q Set.univ a)
    (hx : ∀ m, moves m (x.faultOf m) (x.after m)) : (ofMoves moves).Keeps W x Q where
  ok {m _ a} _ _ heq := by
    have hm := hx m
    rw [Exec.faultOf_of_ok heq, Exec.after_of_ok heq] at hm
    exact ⟨⟨trivial, subset_rfl, nofun, hm⟩, hQ a⟩
  error {m _ _} _ _ heq := by
    have hm := hx m
    rw [Exec.faultOf_of_error heq, Exec.after_of_error heq] at hm
    exact ⟨trivial, subset_rfl, fun _ _ => within_univ _, hm⟩

/-! ## The evaluator -/

section

variable {I : Invariant} {l : Layer} {W : World} {α : Type}

/-- An evaluator that respects an invariant with every piece of work. -/
def Evaluator.Keeps (ev : Evaluator) (I : Invariant) (l : Layer) : Prop :=
  ∀ {α : Type} {w : Work α} {W : World}, w.Fits l W →
    I.Keeps W (ev.run w) fun W' a => w.Yields W' a

/-- **Every action respects a lawful invariant** if the evaluator does. -/
theorem Action.keeps [hl : l.Roams] (hI : I.Lawful l) {ev : Evaluator} (hev : ev.Keeps I l)
    {x : Evaluator → Exec α} {Q : World → α → Prop} (h : Action l W x Q) :
    I.Keeps W (x ev) Q := by
  induction h with
  | plain hx h => exact (hI.plain hx).weaken fun _ _ a ha => ha.2 ▸ h a ha.1
  | seq hx hk ih =>
    refine hI.bind (hI.plain hx) fun W' _ a ha => ?_
    obtain ⟨ha, rfl⟩ := ha
    exact ih a ha
  | bind hx hk ihx ihk => exact hI.bind ihx ihk
  | weaken hx h ih => exact ih.weaken h
  | allocate h hf hc => exact hI.allocate h hf hc
  | newScope h hk hr => exact hI.newScope h hk hr
  | copyScope h => exact hI.copyScope h
  | eval h => exact hev h
  | catchThrown hx ih => exact hI.catchThrown ih
  | orElseShow hx h hl ih => exact hI.orElseShow ih h
  | invoke hid hc ht hbind hbody _ ihbind ihbody => exact hI.invoke hid hc ht ihbind (ihbody hl)

/-- **Every piece of work respects a lawful invariant**, by induction on the fuel. -/
theorem Evaluator.keeps_bounded [l.Executes] (hI : I.Lawful l) : ∀ fuel, (bounded fuel).Keeps I l
  | 0, _, _, _, _ => hI.exhausted
  | fuel + 1, _, _, _, hw => Action.keeps hI (keeps_bounded hI fuel) (.step hw)

/-- All that an action does from some machine, if the invariant is one of all machines. -/
theorem Action.moves [l.Executes] {moves : Machine → Option Fault → Machine → Prop}
    (hI : (Invariant.ofMoves moves).Lawful l) {fuel : Nat} {x : Evaluator → Exec α}
    {Q : World → α → Prop} (h : Action l Set.univ x Q) (m : Machine) :
    moves m ((x (.bounded fuel)).faultOf m) ((x (.bounded fuel)).after m) :=
  (h.keeps hI (Evaluator.keeps_bounded hI fuel)).moves_of_univ m

end

end ScriptTrace
