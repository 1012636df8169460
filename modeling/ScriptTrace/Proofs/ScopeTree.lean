import Mathlib.Data.List.Nodup
import ScriptTrace.Machine.Scope

/-!
# Proofs/ScopeTree — the scopes form a tree

A scope that is made lies inside an older one, so the way outward from any scope ends, in the global
scope.  No scope binds a name twice.
-/

namespace ScriptTrace

/-! ## Bindings of one scope -/

/-- A binding is put in under a new name, or takes the place of the old one. -/
theorem keys_putBinding (name : String) (b : Binding) (es : List (String × Binding)) :
    (putBinding name b es).map Prod.fst =
      if name ∈ es.map Prod.fst then es.map Prod.fst else es.map Prod.fst ++ [name] := by
  induction es with
  | nil => rfl
  | cons e es ih =>
    by_cases he : e.1 = name
    · simp [putBinding, he]
    · have hne : name ≠ e.1 := fun h => he h.symm
      simp only [putBinding, if_neg he, List.map_cons, ih, List.mem_cons, hne, false_or]
      split <;> rfl

/-- No name is bound twice in a scope. -/
theorem nodup_putBinding {name : String} {b : Binding} {es : List (String × Binding)}
    (h : (es.map Prod.fst).Nodup) : ((putBinding name b es).map Prod.fst).Nodup := by
  rw [keys_putBinding]
  split
  · exact h
  · rename_i hnew
    refine List.nodup_append.mpr ⟨h, List.nodup_singleton _, ?_⟩
    rintro key hkey _ hname rfl
    exact hnew (List.mem_singleton.mp hname ▸ hkey)

/-- **A scope in its place**: the global scope alone has no parent, every other scope an older one.
-/
structure Scope.FitsAt (s : Scope) (id : ScopeId) : Prop where
  older : ∀ p, s.parent = some p → p < id
  root : s.parent = none ↔ id = Scopes.globalId
  kind : s.kind = .global ↔ id = Scopes.globalId
  unique : (s.bindings.map Prod.fst).Nodup

namespace Scope.FitsAt

variable {s : Scope} {id : ScopeId}

theorem put (h : s.FitsAt id) (name : String) (b : Binding) : (s.put name b).FitsAt id :=
  { h with unique := nodup_putBinding h.unique }

/-- A copy behind the scope itself. -/
theorem later (h : s.FitsAt id) {next : ScopeId} (hid : id ≠ Scopes.globalId) (hlt : id < next) :
    s.FitsAt next := by
  have hnext : next ≠ Scopes.globalId := Nat.ne_of_gt (Nat.zero_lt_of_lt hlt)
  exact
    { h with
      older := fun p hp => Nat.lt_trans (h.older p hp) hlt
      root := by simp [h.root, hid, hnext]
      kind := by simp [h.kind, hid, hnext] }

/-- A new scope fits behind its parent. -/
theorem inside {parent next : ScopeId} {kind : ScopeKind} {receiver : Option Value}
    (hlt : parent < next) (hk : kind ≠ .global) :
    (⟨some parent, kind, [], receiver⟩ : Scope).FitsAt next := by
  have hnext : next ≠ Scopes.globalId := Nat.ne_of_gt (Nat.zero_lt_of_lt hlt)
  refine ⟨?_, by simp [hnext], by simp [hk, hnext], List.nodup_nil⟩
  rintro p ⟨⟩
  exact hlt

end Scope.FitsAt

/-! ## All scopes -/

/-- **Scopes that form a tree** around the global one. -/
structure Scopes.IsTree (scopes : Scopes) : Prop where
  nonempty : 0 < scopes.size
  fits : ∀ {id : ScopeId} {s : Scope}, scopes[id]? = some s → s.FitsAt id

namespace Scopes.IsTree

variable {scopes : Scopes} {id : ScopeId}

/-- The global scope alone is a tree. -/
theorem initial : Scopes.initial.IsTree where
  nonempty := by decide
  fits {id s} h := by
    obtain ⟨hlt, rfl⟩ := Array.getElem?_eq_some_iff.mp h
    obtain rfl : id = 0 := Nat.lt_one_iff.mp hlt
    exact ⟨nofun, iff_of_true rfl rfl, iff_of_true rfl rfl, List.nodup_nil⟩

/-- The scopes stay a tree when one that fits is put behind them. -/
theorem push (h : scopes.IsTree) {s : Scope} (hs : s.FitsAt scopes.size) :
    Scopes.IsTree (scopes.push s) where
  nonempty := by simp
  fits hid := by
    rw [Array.getElem?_push] at hid
    split at hid
    · cases hid
      exact ‹_ = scopes.size› ▸ hs
    · exact h.fits hid

/-- The scopes stay a tree when one is changed in a way that fits. -/
theorem modify (h : scopes.IsTree) {f : Scope → Scope} {owner : ScopeId}
    (hf : ∀ {s : Scope} {id : ScopeId}, s.FitsAt id → (f s).FitsAt id) :
    Scopes.IsTree (scopes.modify owner f) where
  nonempty := by simpa using h.nonempty
  fits hid := by
    rw [Array.getElem?_modify] at hid
    split at hid
    · obtain ⟨s, hs, rfl⟩ := Option.map_eq_some_iff.mp hid
      exact hf (h.fits hs)
    · exact h.fits hid

theorem exists_of_lt (hid : id < scopes.size) : ∃ s, scopes[id]? = some s :=
  ⟨_, Array.getElem?_eq_getElem hid⟩

/-- The parent of a scope is there and older. -/
theorem parent_lt (h : scopes.IsTree) {s : Scope} {p : ScopeId} (hs : scopes[id]? = some s)
    (hp : s.parent = some p) : p < id ∧ p < scopes.size :=
  have hlt := (h.fits hs).older p hp
  ⟨hlt, Nat.lt_trans hlt (Array.getElem?_eq_some_iff.mp hs).1⟩

/-! ## The way outward -/

/-- More fuel than there are older scopes changes nothing. -/
theorem chainWithin_eq (h : scopes.IsTree) : ∀ {n k : Nat} {id : ScopeId}, id < n → id < k →
    chainWithin scopes n id = chainWithin scopes k id
  | n + 1, k + 1, id, hn, hk => by
    unfold chainWithin
    split
    · rfl
    · rename_i s hs
      split
      · rfl
      · rename_i p hp
        have hlt := (h.fits hs).older p hp
        rw [h.chainWithin_eq (Nat.lt_of_lt_of_le hlt (Nat.le_of_lt_succ hn))
          (Nat.lt_of_lt_of_le hlt (Nat.le_of_lt_succ hk))]

/-- **A scope is followed by all around its parent**: the bound in `chain` is never reached. -/
theorem chain_eq (h : scopes.IsTree) {s : Scope} (hs : scopes[id]? = some s) :
    chain scopes id = id :: s.parent.elim [] (chain scopes) := by
  simp only [chain, chainWithin, hs]
  cases hp : s.parent with
  | none => rfl
  | some p =>
    exact congrArg (id :: ·) (h.chainWithin_eq ((h.fits hs).older p hp) (Nat.lt_succ_self p))

/-- **The way outward** from any scope leads to ever older scopes and ends in the global one. -/
theorem chain_outward (h : scopes.IsTree) : ∀ {id : ScopeId}, id < scopes.size →
    (∃ inner, chain scopes id = inner ++ [globalId]) ∧ (chain scopes id).Pairwise (· > ·) ∧
      ∀ a ∈ chain scopes id, a ≤ id := by
  intro id
  induction id using Nat.strongRecOn with
  | ind id ih =>
    intro hid
    obtain ⟨s, hs⟩ := exists_of_lt hid
    rw [h.chain_eq hs]
    cases hp : s.parent with
    | none =>
      obtain rfl := (h.fits hs).root.mp hp
      exact ⟨⟨[], rfl⟩, List.pairwise_singleton _ _, by simp⟩
    | some p =>
      obtain ⟨hlt, hsize⟩ := h.parent_lt hs hp
      obtain ⟨⟨inner, hinner⟩, hsorted, hle⟩ := ih p hlt hsize
      have hold : ∀ a ∈ chain scopes p, a < id := fun a ha => Nat.lt_of_le_of_lt (hle a ha) hlt
      refine ⟨⟨id :: inner, by simp [hinner]⟩, List.pairwise_cons.mpr ⟨hold, hsorted⟩, ?_⟩
      intro a ha
      rcases List.mem_cons.mp ha with rfl | ha
      · exact Nat.le_refl _
      · exact Nat.le_of_lt (hold a ha)

end Scopes.IsTree

end ScriptTrace
