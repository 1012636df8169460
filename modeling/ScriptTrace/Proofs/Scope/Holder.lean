import ScriptTrace.Proofs.Closed
import ScriptTrace.Proofs.Scope.Frame

/-!
# Proofs/Scope/Holder — a scope is changed from outside by functions that hold it

Work in scopes that do not lie inside a scope comes there only through calls of functions that were
made inside it.  So what changes a binding of the scope, in such work, is an assignment in a call of
a function that holds it (`Work.holderAssigns`).
-/

namespace ScriptTrace

/-! ## The way outward, later on -/

namespace Machine.Grows

variable {m m' : Machine} {σ : ScopeId} {r : Scope}

/-- The way outward from a scope stays as it is. -/
theorem chain_eq (h : m.Grows m') (hm : m.scopes.IsTree) (hσ : σ < m.scopes.size) :
    m'.scopes.chain σ = m.scopes.chain σ := by
  have hwithin : ∀ (n : Nat) {σ : ScopeId}, σ < m.scopes.size →
      m'.scopes.chainWithin n σ = m.scopes.chainWithin n σ := by
    intro n
    induction n with
    | zero => exact fun _ => rfl
    | succ n ih =>
      intro σ hσ
      obtain ⟨r, hr⟩ := Scopes.IsTree.exists_of_lt hσ
      obtain ⟨r', hr', hlater⟩ := h.scope hr
      simp only [Scopes.chainWithin, hr, hr', hlater.parent]
      cases hp : r.parent with
      | none => rfl
      | some p => exact congrArg (σ :: ·) (ih (hm.parent_lt hr hp).2)
  exact hwithin _ hσ

end Machine.Grows

/-! ## Outside a scope -/

/-- **The way outward from a scope bypasses another one**, up to the scope of a function that was
called. -/
inductive Machine.Bypasses (m : Machine) (s : ScopeId) : ScopeId → Prop
  | root {σ : ScopeId} {r : Scope} (hr : m.scopes[σ]? = some r) (hp : r.parent = none)
    (hne : σ ≠ s) : Bypasses m s σ
  | call {σ : ScopeId} {r : Scope} {id : ObjectId} {c : Closure} (hr : m.scopes[σ]? = some r)
    (hp : r.parent = some c.scope) (hk : r.kind = .function c.name) (hne : σ ≠ s)
    (hc : m.heap.body? id = some (.closure c)) : Bypasses m s σ
  | inside {σ p : ScopeId} {r : Scope} (hr : m.scopes[σ]? = some r) (hp : r.parent = some p)
    (hne : σ ≠ s) (h : Bypasses m s p) : Bypasses m s σ

/-- A scope inside a call of a function. -/
def Machine.InCall (m : Machine) (c : Closure) (σ : ScopeId) : Prop :=
  ∃ callee ∈ m.scopes.chain σ, ∃ r, m.scopes[callee]? = some r ∧ r.parent = some c.scope ∧
    r.kind = .function c.name

namespace Machine.Bypasses

variable {m m' : Machine} {s σ : ScopeId}

theorem ne (h : m.Bypasses s σ) : σ ≠ s := by cases h <;> assumption

/-- What a scope bypasses it bypasses later on. -/
theorem later (h : m.Bypasses s σ) (hg : m.Grows m') : m'.Bypasses s σ := by
  induction h with
  | root hr hp hne =>
    obtain ⟨r', hr', hlater⟩ := hg.scope hr
    exact .root hr' (hlater.parent.trans hp) hne
  | call hr hp hk hne hc =>
    obtain ⟨r', hr', hlater⟩ := hg.scope hr
    exact .call hr' (hlater.parent.trans hp) (hlater.kind.trans hk) hne (hg.closure hc)
  | inside hr hp hne _ ih =>
    obtain ⟨r', hr', hlater⟩ := hg.scope hr
    exact .inside hr' (hlater.parent.trans hp) hne ih

/-- No way outward leads to a younger scope. -/
theorem of_lt (hm : m.scopes.IsTree) (hσ : σ < m.scopes.size) (h : σ < s) : m.Bypasses s σ := by
  induction σ using Nat.strongRecOn with
  | ind σ ih =>
    obtain ⟨r, hr⟩ := Scopes.IsTree.exists_of_lt hσ
    cases hp : r.parent with
    | none => exact .root hr hp h.ne
    | some p =>
      obtain ⟨hlt, hsize⟩ := hm.parent_lt hr hp
      exact .inside hr hp h.ne (ih p hlt hsize (hlt.trans h))

/-- Where the way outward does pass the scope, it has left a call of a function that holds it. -/
theorem holder (h : m.Bypasses s σ) (hm : m.scopes.IsTree) (hmem : s ∈ m.scopes.chain σ) :
    ∃ id c, m.heap.body? id = some (.closure c) ∧ m.InCall c σ ∧ s ∈ m.scopes.chain c.scope := by
  induction h with
  | root hr hp hne =>
    rw [hm.chain_eq hr, hp] at hmem
    exact absurd (List.mem_singleton.mp hmem).symm hne
  | @call σ r id c hr hp hk hne hc =>
    have hself : σ ∈ m.scopes.chain σ := by
      rw [hm.chain_eq hr]
      exact List.mem_cons_self
    rw [hm.chain_eq hr, hp] at hmem
    have hholds := (List.mem_cons.mp hmem).resolve_left hne.symm
    exact ⟨id, c, hc, ⟨σ, hself, r, hr, hp, hk⟩, hholds⟩
  | inside hr hp hne _ ih =>
    rw [hm.chain_eq hr, hp] at hmem
    obtain ⟨id, c, hc, ⟨callee, hcallee, hcall⟩, hholds⟩ :=
      ih ((List.mem_cons.mp hmem).resolve_left hne.symm)
    refine ⟨id, c, hc, ⟨callee, ?_, hcall⟩, hholds⟩
    rw [hm.chain_eq hr, hp]
    exact List.mem_cons_of_mem _ hcallee

end Machine.Bypasses

/-- All work, in scopes from which the way outward bypasses one. -/
def Ward.bypassing (s : ScopeId) (name : String) (h : s ≠ Scopes.globalId) : Ward where
  scope := s
  name := name
  local_scope := h
  Region m σ := m.Bypasses s σ
  Parts _ := True
  later hg hσ := hσ.later hg

/-- Nothing has to be asked of the source for that. -/
theorem Ward.isFree_bypassing {s : ScopeId} {name : String} {h : s ≠ Scopes.globalId} :
    (bypassing s name h).IsFree where
  parts _ := trivial
  inner _ hs hσ := .inside Array.getElem?_push_size rfl hs.ne' (hσ.later (.scopePushed ..))
  copy {m σ} hs hσ := by
    have hcopy {r : Scope} (hr : m.scopes[σ]? = some r) :
        (m.scopes.push (m.scopes.getD σ default))[m.scopes.size]? = some r := by
      rw [Array.getElem?_push_size, Array.getD_eq_getD_getElem?, hr, Option.getD_some]
    cases hσ with
    | root hr hp => exact .root (hcopy hr) hp hs.ne'
    | call hr hp hk _ hc => exact .call (hcopy hr) hp hk hs.ne' hc
    | inside hr hp _ h => exact .inside (hcopy hr) hp hs.ne' (h.later (.scopePushed ..))
  call _ hs hc := .call Array.getElem?_push_size rfl rfl hs.ne' hc

/-! ## Who changes a scope from outside -/

/-- **A function that holds a scope assigns to a name**: work nested in an action, inside a call of
the function, assigns to the name, and the way outward passes the scope. -/
inductive HolderAssigns (s : ScopeId) (name : String) {α : Type} (x : Evaluator → Exec α)
    (fuel : Nat) (m : Machine) : Prop
  | intro {β : Type} {v : Work β} {k : Nat} {m₁ : Machine} {σ : ScopeId} {id : ObjectId}
    {c : Closure} (h : Nested x fuel m v k m₁) (hv : v.Assigns σ name)
    (hs : s ∈ m₁.scopes.chain σ) (hc : m₁.heap.body? id = some (.closure c))
    (hcall : m₁.InCall c σ) (hholds : s ∈ m₁.scopes.chain c.scope)

/-- Work that is not done inside a scope. -/
def Work.Bypasses {α : Type} (w : Work α) (m : Machine) (s : ScopeId) : Prop :=
  match w with
  | .expr σ _ | .bind σ .. | .statement σ .. | .whileLoop σ .. | .doLoop σ .. | .forLoop σ _ =>
    m.Bypasses s σ
  | .apply .. | .microtasks | .macrotasks => True

/-- The invariant that machines grow, and stay closed. -/
theorem growing_closed : (Invariant.closed fun m _ m' => m.Grows m').Stepwise .loop where
  toComposes := .of_effects (Invariant.safe_closed _) (fun _ => .refl _) .trans id
    fun _ => .effect
  call _ := .call
  shown h _ _ := h.shown

section

variable {α β : Type} {x : Evaluator → Exec α} {Q : World → α → Prop} {fuel k : Nat}
  {m m₁ m' : Machine}

/-- Where an action leads that begins in a closed machine. -/
theorem Action.leads (hx : Action .loop m.world x Q) (hm : m.Closed) (fuel : Nat) :
    ((x (.bounded fuel)).after m).Closed ∧ m.Grows ((x (.bounded fuel)).after m) := by
  have hI := growing_closed.lawful
  have hkeeps := hx.keeps hI (Evaluator.keeps_bounded hI fuel)
  cases heq : x (.bounded fuel) m with
  | ok a m' =>
    obtain ⟨hlead, -⟩ := hkeeps.ok hm rfl heq
    rw [Exec.after_of_ok heq]
    exact ⟨hlead.state, hlead.moves⟩
  | error f m' =>
    have hlead := hkeeps.error hm rfl heq
    rw [Exec.after_of_error heq]
    exact ⟨hlead.state, hlead.moves⟩

theorem Action.leads_ok (hx : Action .loop m.world x Q) (hm : m.Closed) {a : α}
    (h : x (.bounded fuel) m = .ok a m') : m'.Closed ∧ m.Grows m' := by
  have hleads := hx.leads hm fuel
  rwa [Exec.after_of_ok h] at hleads

/-- The same for what asks for nothing. -/
theorem Action.leads_made {x : Exec α} (hx : Action .loop m.world (fun _ => x) Q) (hm : m.Closed)
    {a : α} (h : x m = .ok a m') : m'.Closed ∧ m.Grows m' := by
  have hleads := hx.leads hm 0
  rwa [Exec.after_of_ok h] at hleads

/-- What is nested in an action that begins in a closed machine begins in one, too. -/
theorem Nested.leads {v : Work β} (hx : Action .loop m.world x Q) (hm : m.Closed)
    (h : Nested x fuel m v k m₁) : m₁.Closed ∧ m.Grows m₁ ∧ v.Fits .loop m₁.world := by
  obtain ⟨hlead, hfit, -⟩ := Action.nested growing_closed hx hm h
  exact ⟨hlead.state, hlead.moves, hfit⟩

end

/-- **A scope is changed from outside by functions that hold it.**  If a binding of a scope is
another one behind a piece of work that is not done inside the scope, then a function that holds the
scope was called in it, and the call assigned to the name. -/
theorem Work.holderAssigns {α : Type} {w : Work α} {k : Nat} {m : Machine} {s : ScopeId}
    {name : String} (hm : m.Closed) (hw : w.Fits .loop m.world) (hb : w.Bypasses m s)
    (hs : s ≠ Scopes.globalId) (hsize : s < m.scopes.size)
    (hne : ((w.exec k).after m).scopes.bindingIn? name s ≠ m.scopes.bindingIn? name s) :
    HolderAssigns s name (fun ev => ev.run w) k m := by
  have hfree := @Ward.isFree_bypassing s name hs
  have hallows : (Ward.bypassing s name hs).Allows m w := by
    cases w with
    | expr | bind => exact ⟨hb, fun _ _ => trivial⟩
    | statement | whileLoop | doLoop | forLoop => exact ⟨hfree, hb⟩
    | apply | microtasks | macrotasks => exact hfree
  have hrun : Nested (fun ev => ev.run w) k m w k m := .asked Begins.run.asks
  obtain ⟨h, hv, hassigns, hgrows, hbinder⟩ :=
    (Ward.writtenIn_of_nested (fun _ _ => hfree) hrun hallows hsize hne).assignedIn
      Machine.Bypasses.ne
  rename_i v k₁ m₁ m₂ σ
  obtain ⟨hm₁, -, hfit⟩ := h.leads (.eval hw) hm
  have hregion : m₁.Bypasses s σ ∧ σ < m₁.scopes.size := by
    cases v with
    | expr | bind =>
      obtain ⟨rfl, -⟩ := hassigns
      exact ⟨hv.1, hm₁.sees_iff.mp (by first | exact hfit.2 | exact hfit.2.1)⟩
    | _ => exact hassigns.elim
  have hchain := Scopes.mem_chain_of_binder hbinder
  rw [hgrows.chain_eq hm₁.tree hregion.2] at hchain
  obtain ⟨id, c, hc, hcall, hholds⟩ := hregion.1.holder hm₁.tree hchain
  exact ⟨h, hassigns, hchain, hc, hcall, hholds⟩

end ScriptTrace
