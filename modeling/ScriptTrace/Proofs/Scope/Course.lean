import ScriptTrace.Proofs.Nested
import ScriptTrace.Proofs.Scope.Operand

/-!
# Proofs/Scope/Course — how actions go from scope to scope

Statements go to the scope that they stand in and ask for their operands there; what other
statements leave behind is in scopes of their own.  `Conducts` follows the current scope through an
action as far as it is known, and says where pieces of work are asked for.

The actions followed here record nothing from the current scope themselves: what is seen from there
was recorded in what they ask for (`Delegates`).
-/

namespace ScriptTrace

/-! ## What is recorded from the current scope -/

/-- Steps of printing, timers, microtasks and promises: they are recorded from the current scope. -/
def StepKind.isHere : StepKind → Bool
  | .console | .timer | .microtask | .promise => true
  | _ => false

/-- The steps recorded between a machine and a later one. -/
def Machine.shown (m m' : Machine) : List Step := m'.steps.toList.drop m.steps.size

theorem Machine.shown_eq {m m' : Machine} {shown : List Step}
    (h : m'.steps.toList = m.steps.toList ++ shown) : m.shown m' = shown := by
  rw [Machine.shown, h, ← Array.length_toList, List.drop_left]

section

variable {k : Nat} {α β : Type} {w : Work α}

theorem Work.grows (w : Work α) (k : Nat) (m : Machine) : m.Grows ((w.exec k).after m) :=
  (Evaluation.work w).grows k m

theorem Work.steps_append (w : Work α) (k : Nat) (m : Machine) :
    ((w.exec k).after m).steps.toList = m.steps.toList ++ m.shown ((w.exec k).after m) := by
  obtain ⟨shown, hshown, -⟩ := (w.grows k m).steps
  rw [Machine.shown_eq hshown, hshown]

/-- Work that is not cut short leaves the frames as it found them. -/
theorem Work.frames_eq (w : Work α) (k : Nat) (m : Machine)
    (h : ∀ g, (w.exec k).faultOf m = some g → g.isThrown = true) :
    ((w.exec k).after m).frames = m.frames := by
  have htraced : Traced m ((w.exec k).faultOf m) ((w.exec k).after m) :=
    (Evaluation.work w).action.moves (traced_lawful .loop) m
  cases hf : (w.exec k).faultOf m with
  | none => exact (hf ▸ htraced).frames_eq
  | some g =>
    obtain ⟨t, rfl⟩ := Exec.fault_of_isThrown (h g hf)
    exact Traced.frames_eq (Traced.caught (hf ▸ htraced))

end

/-! ## Pieces of work that are begun -/

section

variable {α β γ : Type} {x : Evaluator → Exec α} {ev : Evaluator} {v : Work β} {m m₁ : Machine}

/-- **An action begins a piece of work** in the machine `m₁` if a fault that cannot be caught would
end it there. -/
def Begins (x : Evaluator → Exec α) (ev : Evaluator) (m : Machine) (v : Work β) (m₁ : Machine) :
    Prop :=
  ∀ f : Fault, f.isThrown = false → (x (ev.failing v m₁ f)).faultOf m = some f

theorem Begins.asks (h : Begins x ev m v m₁) : Asks x ev m v m₁ := .of_failing h

/-- An action without this piece of work: it does the same, were that to fail. -/
def Forgoes (x : Evaluator → Exec α) (ev : Evaluator) (m : Machine) (v : Work β) (m₁ : Machine) :
    Prop :=
  ∀ f : Fault, f.isThrown = false → x (ev.failing v m₁ f) m = x ev m

/-- An action begins a piece of work or does without. -/
def Heeds (x : Evaluator → Exec α) (ev : Evaluator) (m : Machine) : Prop :=
  ∀ (β : Type) (v : Work β) (m₁ : Machine), Forgoes x ev m v m₁ ∨ Begins x ev m v m₁

namespace Begins

theorem run : Begins (fun ev => ev.run v) ev m v m :=
  fun _ _ => Exec.faultOf_of_error Evaluator.run_failing

theorem bind {k : α → Evaluator → Exec γ} (h : Begins x ev m v m₁) :
    Begins (fun ev => x ev >>= fun a => k a ev) ev m v m₁ := by
  intro f hf
  obtain ⟨m', hx⟩ := Exec.faultOf_eq_some.mp (h f hf)
  exact Exec.faultOf_of_error (Exec.bind_of_error hx)

/-- What begins in the second action begins behind the first one. -/
theorem behind {k : α → Evaluator → Exec γ} {a : α} {m₂ : Machine} (hx : Heeds x ev m)
    (hxm : x ev m = .ok a m₂) (h : Begins (k a) ev m₂ v m₁) :
    Begins (fun ev => x ev >>= fun a => k a ev) ev m v m₁ := by
  obtain hforgoes | hbegins := hx _ v m₁
  · intro f hf
    rw [Exec.faultOf_congr (Exec.bind_of_ok ((hforgoes f hf).trans hxm))]
    exact h f hf
  · exact hbegins.bind

theorem catchThrown (h : Begins x ev m v m₁) :
    Begins (fun ev => Exec.catchThrown (x ev)) ev m v m₁ := by
  intro f hf
  obtain ⟨m', hx⟩ := Exec.faultOf_eq_some.mp (h f hf)
  exact Exec.faultOf_of_error (Exec.catchThrown_of_error hx hf)

theorem orElseShow {y : Exec Unit} (h : Begins x ev m v m₁) :
    Begins (fun ev => Exec.orElseShow (x ev) y) ev m v m₁ := by
  intro f hf
  obtain ⟨m', hx⟩ := Exec.faultOf_eq_some.mp (h f hf)
  exact Exec.faultOf_of_error (Exec.orElseShow_of_error hx)

theorem followedBy {scope : ScopeId} {line : Nat} {kind : StepKind} {description : String}
    (h : Begins x ev m v m₁) :
    Begins (fun ev => Exec.followedBy (x ev) (Exec.record scope line kind description)) ev m v
      m₁ := by
  intro f hf
  obtain ⟨m', hx⟩ := Exec.faultOf_eq_some.mp (h f hf)
  exact Exec.faultOf_of_error (Exec.followedBy_of_error hx)

end Begins

namespace Heeds

theorem const {x : Exec α} : Heeds (fun _ => x) ev m := fun _ _ _ => .inl fun _ _ => rfl

/-- A piece of work begins with itself. -/
theorem run {w : Work α} : Heeds (fun ev => ev.run w) ev m := by
  intro β v m₁
  by_cases h : (⟨α, w⟩ : Σ α, Work α) = ⟨β, v⟩ ∧ m = m₁
  · obtain ⟨hw, rfl⟩ := h
    cases hw
    exact .inr .run
  · exact .inl fun _ _ => if_neg h

theorem bind {k : α → Evaluator → Exec γ} (hx : Heeds x ev m)
    (hk : ∀ {a m₂}, x ev m = .ok a m₂ → Heeds (k a) ev m₂) :
    Heeds (fun ev => x ev >>= fun a => k a ev) ev m := by
  intro β v m₁
  obtain hforgoes | hbegins := hx _ v m₁
  · cases hxm : x ev m with
    | ok a m₂ =>
      refine (hk hxm _ v m₁).imp (fun hforgoes' f hf => ?_) (Begins.behind hx hxm)
      have hbind : (x ev >>= fun a => k a ev) m = k a ev m₂ := Exec.bind_of_ok hxm
      exact (Exec.bind_of_ok ((hforgoes f hf).trans hxm)).trans ((hforgoes' f hf).trans hbind.symm)
    | error g m₂ =>
      refine .inl fun f hf => ?_
      exact (Exec.bind_of_error ((hforgoes f hf).trans hxm)).trans (Exec.bind_of_error hxm).symm
  · exact .inr hbegins.bind

theorem catchThrown (hx : Heeds x ev m) : Heeds (fun ev => Exec.catchThrown (x ev)) ev m :=
  fun β v m₁ => (hx β v m₁).imp (fun h f hf => Exec.catchThrown_congr (h f hf)) .catchThrown

theorem orElseShow {y : Exec Unit} (hx : Heeds x ev m) :
    Heeds (fun ev => Exec.orElseShow (x ev) y) ev m :=
  fun β v m₁ => (hx β v m₁).imp (fun h f hf => Exec.orElseShow_congr (h f hf)) .orElseShow

theorem followedBy {scope : ScopeId} {line : Nat} {kind : StepKind} {description : String}
    (hx : Heeds x ev m) :
    Heeds (fun ev => Exec.followedBy (x ev) (Exec.record scope line kind description)) ev m :=
  fun β v m₁ => (hx β v m₁).imp (fun h f hf => Exec.followedBy_congr (h f hf)) .followedBy

end Heeds

end

/-! ## Actions that stay where they are -/

/-- Nothing between a machine and a later one was recorded from the current scope. -/
def Machine.Quiet (m m' : Machine) : Prop :=
  ∃ shown, m'.steps.toList = m.steps.toList ++ shown ∧ ∀ s ∈ shown, s.kind.isHere = false

theorem Machine.Quiet.of_eq {m m' : Machine} (h : m'.steps = m.steps) : m.Quiet m' :=
  ⟨[], by rw [h, List.append_nil], nofun⟩

/-- **An action without a request** that stays in its scope and records nothing from it. -/
structure Machine.Holds (m m' : Machine) : Prop where
  scope : m'.scope = m.scope
  frames : m'.frames = m.frames
  quiet : m.Quiet m'

/-- An action that does so in all machines. -/
def Exec.Calm {α : Type} (x : Exec α) : Prop := ∀ m : Machine, m.Holds (x.after m)

namespace Exec.Calm

variable {α β : Type} {x : Exec α}

theorem of_eq (h : ∀ m, (x.after m).scope = m.scope ∧ (x.after m).frames = m.frames ∧
    (x.after m).steps = m.steps) : x.Calm :=
  fun m => ⟨(h m).1, (h m).2.1, .of_eq (h m).2.2⟩

theorem pure {a : α} : (Pure.pure a : Exec α).Calm := of_eq fun _ => ⟨rfl, rfl, rfl⟩

theorem bind {k : α → Exec β} (hx : x.Calm) (hk : ∀ a, (k a).Calm) : (x >>= k).Calm := by
  intro m
  obtain ⟨hscope, hframes, shown, hshown, hkind⟩ := hx m
  cases hxm : x m with
  | ok a m₁ =>
    rw [after_bind_of_ok hxm]
    rw [after_of_ok hxm] at hscope hframes hshown
    obtain ⟨hscope₁, hframes₁, shown₁, hshown₁, hkind₁⟩ := hk a m₁
    refine ⟨hscope₁.trans hscope, hframes₁.trans hframes, shown ++ shown₁, ?_, fun s hs => ?_⟩
    · rw [hshown₁, hshown, List.append_assoc]
    · exact (List.mem_append.mp hs).elim (hkind s) (hkind₁ s)
  | error f m₁ =>
    rw [after_bind_of_error hxm]
    rw [after_of_error hxm] at hscope hframes hshown
    exact ⟨hscope, hframes, shown, hshown, hkind⟩

theorem tick : Exec.tick.Calm := of_eq fun m => after_tick m ▸ ⟨rfl, rfl, rfl⟩

theorem inspect {v : Value} : (Exec.inspect v).Calm := of_eq fun _ => ⟨rfl, rfl, rfl⟩

theorem record {scope : ScopeId} {line : Nat} {kind : StepKind} {description : String}
    (hk : kind.isHere = false) : (Exec.record scope line kind description).Calm :=
  fun m => ⟨rfl, rfl, [m.view scope line kind description], Array.toList_push,
    fun _ hs => List.mem_singleton.mp hs ▸ hk⟩

theorem throwValue {v : Value} {line : Nat} : (Exec.throwValue v line : Exec α).Calm :=
  of_eq fun _ => ⟨rfl, rfl, rfl⟩

theorem resume {r : Except Thrown α} : (Exec.resume r).Calm := by
  cases r with
  | ok a => exact pure
  | error t => exact of_eq fun _ => ⟨rfl, rfl, rfl⟩

theorem innerScope {parent : ScopeId} {kind : ScopeKind} : (Exec.innerScope parent kind).Calm :=
  of_eq fun _ => ⟨rfl, rfl, rfl⟩

theorem copyScope {scope : ScopeId} : (Exec.copyScope scope).Calm :=
  of_eq fun _ => ⟨rfl, rfl, rfl⟩

theorem makeClosure {scope : ScopeId} {f : Syntax.Function} {name : String} :
    (Exec.makeClosure scope f name).Calm := of_eq fun _ => ⟨rfl, rfl, rfl⟩

/-- To make the functions of a block begins nothing. -/
theorem hoistBlock {scope : ScopeId} : ∀ {body : List Syntax.Stmt},
    (Exec.hoistBlock scope body).Calm
  | [] => pure
  | s :: _ => by
    unfold Exec.hoistBlock
    split
    · exact bind makeClosure fun _ => bind (of_eq fun _ => ⟨rfl, rfl, rfl⟩) fun _ => hoistBlock
    · exact hoistBlock

theorem iterate {v : Value} {line : Nat} : (Exec.iterate v line).Calm := by
  refine bind (of_eq fun _ => ⟨rfl, rfl, rfl⟩) fun h => ?_
  split
  · exact pure
  · exact pure
  · exact of_eq fun _ => ⟨rfl, rfl, rfl⟩

theorem loopItems {loop : Syntax.LoopOver} {v : Value} {line : Nat} :
    (Evaluator.loopItems loop v line).Calm := by
  cases loop with
  | keys => exact of_eq fun _ => ⟨rfl, rfl, rfl⟩
  | values => exact bind iterate fun _ => pure

end Exec.Calm

/-! ## Actions that leave to others what is seen from the current scope -/

/-- **An action records nothing from the current scope itself**: what was recorded from there was
recorded in a piece of work that it begins. -/
structure Delegates (k : Nat) {α : Type} (x : Evaluator → Exec α) : Prop where
  heeds : ∀ m, Heeds x (.bounded k) m
  /-- No frame is left, unless the action is cut short. -/
  returns : ∀ {m}, (∀ g, (x (.bounded k)).faultOf m = some g → g.isThrown = true) →
    ((x (.bounded k)).after m).frames = m.frames
  shows : ∀ m, ∃ shown, ((x (.bounded k)).after m).steps.toList = m.steps.toList ++ shown ∧
    ∀ s ∈ shown, s.kind.isHere = true → ∃ (β : Type) (v : Work β) (m₁ : Machine),
      Begins x (.bounded k) m v m₁ ∧ s ∈ m₁.shown ((v.exec k).after m₁)

namespace Delegates

variable {k : Nat} {α β : Type} {x : Evaluator → Exec α} {m m' : Machine}

theorem frames_of_ok (hx : Delegates k x) {a : α} (h : x (.bounded k) m = .ok a m') :
    m'.frames = m.frames := by
  have hframes := hx.returns (m := m) fun g hg => by cases (Exec.faultOf_of_ok h).symm.trans hg
  rwa [Exec.after_of_ok h] at hframes

theorem frames_of_error (hx : Delegates k x) {f : Fault} (h : x (.bounded k) m = .error f m')
    (hf : f.isThrown = true) : m'.frames = m.frames := by
  have hframes := hx.returns (m := m) fun g hg => by
    cases (Exec.faultOf_of_error h).symm.trans hg
    exact hf
  rwa [Exec.after_of_error h] at hframes

/-- An action that shows nothing and asks for nothing only hands on. -/
theorem of_quiet {x : Exec α} (hframes : ∀ m, (x.after m).frames = m.frames)
    (hquiet : ∀ m : Machine, m.Quiet (x.after m)) : Delegates k fun _ => x where
  heeds _ := .const
  returns _ := hframes _
  shows m := by
    obtain ⟨shown, hshown, hkind⟩ := hquiet m
    refine ⟨shown, hshown, fun s hs hhere => ?_⟩
    cases (hkind s hs).symm.trans hhere

theorem calm {x : Exec α} (hx : x.Calm) : Delegates k fun _ => x :=
  of_quiet (fun m => (hx m).frames) fun m => (hx m).quiet

theorem enter {scope : ScopeId} : Delegates k fun _ => Exec.enter scope :=
  of_quiet (fun _ => rfl) fun _ => .of_eq rfl

theorem bind {f : α → Evaluator → Exec β} (hx : Delegates k x) (hf : ∀ a, Delegates k (f a)) :
    Delegates k fun ev => x ev >>= fun a => f a ev where
  heeds m := (hx.heeds m).bind fun _ => (hf _).heeds _
  returns {m} h := by
    cases hxm : x (.bounded k) m with
    | ok a m₁ =>
      rw [Exec.faultOf_congr (Exec.bind_of_ok hxm)] at h
      rw [Exec.after_bind_of_ok hxm, (hf a).returns h, hx.frames_of_ok hxm]
    | error g m₁ =>
      rw [Exec.after_bind_of_error hxm]
      exact hx.frames_of_error hxm (h g (Exec.faultOf_of_error (Exec.bind_of_error hxm)))
  shows m := by
    obtain ⟨shown, hshown, hbegun⟩ := hx.shows m
    cases hxm : x (.bounded k) m with
    | ok a m₁ =>
      rw [Exec.after_bind_of_ok hxm]
      rw [Exec.after_of_ok hxm] at hshown
      obtain ⟨shown₁, hshown₁, hbegun₁⟩ := (hf a).shows m₁
      refine ⟨shown ++ shown₁, by rw [hshown₁, hshown, List.append_assoc], fun s hs hhere => ?_⟩
      obtain hs | hs := List.mem_append.mp hs
      · obtain ⟨γ, v, m₂, hv, hmem⟩ := hbegun s hs hhere
        exact ⟨γ, v, m₂, hv.bind, hmem⟩
      · obtain ⟨γ, v, m₂, hv, hmem⟩ := hbegun₁ s hs hhere
        exact ⟨γ, v, m₂, .behind (hx.heeds m) hxm hv, hmem⟩
    | error g m₁ =>
      rw [Exec.after_bind_of_error hxm]
      rw [Exec.after_of_error hxm] at hshown
      refine ⟨shown, hshown, fun s hs hhere => ?_⟩
      obtain ⟨γ, v, m₂, hv, hmem⟩ := hbegun s hs hhere
      exact ⟨γ, v, m₂, hv.bind, hmem⟩

theorem run {w : Work α} : Delegates k fun ev => ev.run w where
  heeds _ := .run
  returns h := w.frames_eq k _ h
  shows m := ⟨_, w.steps_append k m, fun _ hs _ => ⟨α, w, m, .run, hs⟩⟩

theorem catchThrown (hx : Delegates k x) : Delegates k fun ev => Exec.catchThrown (x ev) where
  heeds m := (hx.heeds m).catchThrown
  returns {m} h := by
    rw [Exec.after_catchThrown]
    refine hx.returns fun g hg => ?_
    obtain ⟨m', hxm⟩ := Exec.faultOf_eq_some.mp hg
    cases hthrown : g.isThrown with
    | true => rfl
    | false =>
      have hend := h g (Exec.faultOf_of_error (Exec.catchThrown_of_error hxm hthrown))
      cases hthrown.symm.trans hend
  shows m := by
    obtain ⟨shown, hshown, hbegun⟩ := hx.shows m
    refine ⟨shown, by rw [Exec.after_catchThrown, hshown], fun s hs hhere => ?_⟩
    obtain ⟨γ, v, m₁, hv, hmem⟩ := hbegun s hs hhere
    exact ⟨γ, v, m₁, hv.catchThrown, hmem⟩

theorem orElseShow {scope : ScopeId} {line : Nat} {kind : StepKind} {description : String}
    (hx : Delegates k x) (hk : kind.isHere = false) :
    Delegates k fun ev => Exec.orElseShow (x ev) (Exec.record scope line kind description) where
  heeds m := (hx.heeds m).orElseShow
  returns {m} h := by
    have hframes : ((x (.bounded k)).after m).frames = m.frames := by
      refine hx.returns fun g hg => h g ?_
      obtain ⟨m', hxm⟩ := Exec.faultOf_eq_some.mp hg
      exact Exec.faultOf_of_error (Exec.orElseShow_of_error hxm)
    obtain hafter | hafter :=
      @Exec.after_orElseShow α (x (.bounded k)) m scope line kind description
    · rw [hafter, hframes]
    · rw [hafter]
      exact hframes
  shows m := by
    obtain ⟨shown, hshown, hbegun⟩ := hx.shows m
    have hbegun' : ∀ s ∈ shown, s.kind.isHere = true → ∃ (β : Type) (v : Work β) (m₁ : Machine),
        Begins (fun ev => Exec.orElseShow (x ev) (Exec.record scope line kind description))
          (.bounded k) m v m₁ ∧ s ∈ m₁.shown ((v.exec k).after m₁) := fun s hs hhere => by
      obtain ⟨γ, v, m₁, hv, hmem⟩ := hbegun s hs hhere
      exact ⟨γ, v, m₁, hv.orElseShow, hmem⟩
    obtain hafter | hafter :=
      @Exec.after_orElseShow α (x (.bounded k)) m scope line kind description
    · exact ⟨shown, by rw [hafter, hshown], hbegun'⟩
    · refine ⟨shown ++ [((x (.bounded k)).after m).view scope line kind description], ?_, ?_⟩
      · rw [hafter, Machine.recorded, Array.toList_push, hshown, List.append_assoc]
      · intro s hs hhere
        obtain hs | hs := List.mem_append.mp hs
        · exact hbegun' s hs hhere
        · cases List.mem_singleton.mp hs
          cases hk.symm.trans hhere

end Delegates

/-! ## Actions that go from scope to scope -/

/-- Statements, which go to their own scope first. -/
def Work.IsStatement {α : Type} : Work α → Prop
  | .statement .. => True
  | _ => False

/-- **How an action goes from scope to scope.**  Begun in the scope `s`, if that is known, it asks
for pieces of work other than statements where `At` allows them, and ends in the scope `s'` unless
it fails. -/
structure Conducts (k : Nat) (At : {β : Type} → Work β → ScopeId → Prop) (s : Option ScopeId)
    {α : Type} (x : Evaluator → Exec α) (s' : Option ScopeId) : Prop extends Delegates k x where
  asks : ∀ {m m₁ : Machine} {β : Type} {v : Work β}, (∀ scope ∈ s, m.scope = scope) →
    Asks x (.bounded k) m v m₁ → m₁.frames = m.frames ∧ (v.IsStatement ∨ At v m₁.scope)
  leaves : ∀ {m m' : Machine} {a : α}, (∀ scope ∈ s, m.scope = scope) →
    x (.bounded k) m = .ok a m' → ∀ scope ∈ s', m'.scope = scope

namespace Conducts

variable {k : Nat} {At : {β : Type} → Work β → ScopeId → Prop} {s s' s'' : Option ScopeId}
  {α β : Type} {x : Evaluator → Exec α}

theorem calm {x : Exec α} (hx : x.Calm) : Conducts k At s (fun _ => x) s where
  toDelegates := .calm hx
  asks _ h := (not_asks_const h).elim
  leaves {m _ _} hm h scope hs := by
    have hscope := (hx m).scope
    rw [Exec.after_of_ok h] at hscope
    exact hscope.trans (hm scope hs)

theorem pure {a : α} : Conducts k At s (fun _ => Pure.pure a) s := .calm .pure

/-- Whatever scope it was, there is nothing to know of it. -/
theorem forget (hx : Conducts k At s x s') : Conducts k At s x none :=
  ⟨hx.toDelegates, hx.asks, nofun⟩

theorem enter {scope : ScopeId} : Conducts k At s (fun _ => Exec.enter scope) (some scope) where
  toDelegates := .enter
  asks _ h := (not_asks_const h).elim
  leaves _ h _ hs := by
    cases h
    exact Option.some.inj hs

theorem bind {f : α → Evaluator → Exec β} (hx : Conducts k At s x s')
    (hf : ∀ a, Conducts k At s' (f a) s'') :
    Conducts k At s (fun ev => x ev >>= fun a => f a ev) s'' where
  toDelegates := hx.toDelegates.bind fun a => (hf a).toDelegates
  asks hm h := by
    obtain h | ⟨a, m₂, hxm, h⟩ := h.of_bind
    · exact hx.asks hm h
    · obtain ⟨hframes, hat⟩ := (hf a).asks (hx.leaves hm hxm) h
      exact ⟨hframes.trans (hx.frames_of_ok hxm), hat⟩
  leaves hm h := by
    obtain ⟨a, m₁, hxm, hfm⟩ := Exec.bind_eq_ok h
    exact (hf a).leaves (hx.leaves hm hxm) hfm

/-- Something that asks for nothing comes first. -/
theorem seq {x : Exec α} {f : α → Evaluator → Exec β} (hx : x.Calm)
    (hf : ∀ a, Conducts k At s (f a) s'') :
    Conducts k At s (fun ev => x >>= fun a => f a ev) s'' := .bind (.calm hx) hf

theorem map {g : α → β} (hx : Conducts k At s x s') :
    Conducts k At s (fun ev => x ev >>= fun a => Pure.pure (g a)) s' := hx.bind fun _ => pure

theorem discard (hx : Conducts k At s x s') :
    Conducts k At s (fun ev => Functor.discard (x ev)) s' := hx.map

theorem ite {c : Prop} [Decidable c] {y : Evaluator → Exec α} (hx : c → Conducts k At s x s')
    (hy : ¬ c → Conducts k At s y s') :
    Conducts k At s (fun ev => if c then x ev else y ev) s' := by
  split
  · exact hx ‹_›
  · exact hy ‹_›

/-- A request; it leads anywhere. -/
theorem request {v : Work α} (h : ∀ σ, (∀ scope ∈ s, σ = scope) → v.IsStatement ∨ At v σ) :
    Conducts k At s (fun ev => ev.run v) none where
  toDelegates := .run
  asks hm hv := by
    obtain ⟨heq, rfl⟩ := hv.of_run
    cases heq
    exact ⟨rfl, h _ hm⟩
  leaves := nofun

/-- **An operand**: it leads back. -/
theorem operand {v : Work α} (hv : v.IsOperand) (h : ∀ σ, (∀ scope ∈ s, σ = scope) → At v σ) :
    Conducts k At s (fun ev => ev.run v) s where
  toDelegates := .run
  asks := (request fun σ hσ => .inr (h σ hσ)).asks
  leaves {m _ _} hm hvm scope hs := by
    have hstays := hv.stays k m
    change v.exec k m = _ at hvm
    rw [Exec.faultOf_of_ok hvm, Exec.after_of_ok hvm] at hstays
    exact (hstays.returns nofun).1.trans (hm scope hs)

theorem statement {scope : ScopeId} {label : Option String} {st : Syntax.Stmt} :
    Conducts k At s (fun ev => ev.run (.statement scope label st)) none :=
  request fun _ _ => .inl trivial

/-- A fault that is held up may come from anywhere. -/
theorem catchThrown (hx : Conducts k At s x s') :
    Conducts k At s (fun ev => Exec.catchThrown (x ev)) none where
  toDelegates := hx.toDelegates.catchThrown
  asks hm h := hx.asks hm (h.of_comp fun _ _ => Exec.catchThrown_congr)
  leaves := nofun

theorem orElseShow {scope : ScopeId} {line : Nat} {kind : StepKind} {description : String}
    (hx : Conducts k At s x s') (hk : kind.isHere = false) :
    Conducts k At s (fun ev => Exec.orElseShow (x ev) (Exec.record scope line kind description)) s'
    where
  toDelegates := hx.toDelegates.orElseShow hk
  asks hm h := hx.asks hm (h.of_comp fun _ _ => Exec.orElseShow_congr)
  leaves {m m' _} hm h := by
    cases hxm : x (.bounded k) m with
    | error f m₁ => cases (Exec.orElseShow_of_error hxm).symm.trans h
    | ok a m₁ =>
      have hleaves := hx.leaves hm hxm
      rw [Exec.orElseShow_of_ok hxm] at h
      split at h
      · cases h
        exact hleaves
      · cases h
        exact hleaves

end Conducts

end ScriptTrace
