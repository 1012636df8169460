import ScriptTrace.Proofs.Scope.Course

/-!
# Proofs/Scope/Requests — what actions ask for while machines grow

`Requests` says of an action, from one machine on, what holds of the pieces of work that it asks for
and of its result.  What is known of a scope when it is made is still known when work is asked for
in it: scopes keep their place and their parent, so facts are handed on to later machines.
-/

namespace ScriptTrace

open Syntax (Expr Pattern Key)

namespace Machine.Grows

variable {m m' : Machine} {σ : ScopeId} {r : Scope}

theorem size_le (h : m.Grows m') : m.scopes.size ≤ m'.scopes.size := by
  have hprefix := h.scopes.map_prefix (g := Scope.parent) fun h => h.parent
  simpa using hprefix.length_le

theorem scope (h : m.Grows m') (hr : m.scopes[σ]? = some r) :
    ∃ r', m'.scopes[σ]? = some r' ∧ r.Later r' := by
  rw [← Array.getElem?_toList] at hr ⊢
  exact h.scopes.getElem?_later hr

/-- A scope is made. -/
theorem scopePushed (m : Machine) (s : Scope) : m.Grows { m with scopes := m.scopes.push s } :=
  .of_store rfl (.refl .refl _) (scopes_push ..) le_rfl le_rfl

end Machine.Grows

/-- **What an action asks for** from a machine on, with the fuel `k`: every piece of work has the
property `P` in the machine that it begins in, and the result has the property `Q` in the machine
that the action leaves. -/
structure Requests (k : Nat) (P : Machine → {β : Type} → Work β → Prop) (m₀ : Machine) {α : Type}
    (x : Evaluator → Exec α) (Q : Machine → α → Prop) : Prop where
  grows : ∀ {m}, m₀.Grows m → m.Grows ((x (.bounded k)).after m)
  asks : ∀ {m m₁} {β : Type} {v : Work β}, m₀.Grows m → Asks x (.bounded k) m v m₁ →
    m.Grows m₁ ∧ P m₁ v
  yields : ∀ {m m' a}, m₀.Grows m → x (.bounded k) m = .ok a m' → Q m' a

/-- What is known of a result of which nothing need be known. -/
abbrev Whatever {α : Type} (_ : Machine) (_ : α) : Prop := True

namespace Requests

variable {k : Nat} {P : Machine → {β : Type} → Work β → Prop} {m₀ m : Machine} {α β : Type}
  {x : Evaluator → Exec α} {Q R : Machine → α → Prop}

theorem later (hx : Requests k P m₀ x Q) (hm : m₀.Grows m) : Requests k P m x Q where
  grows h := hx.grows (hm.trans h)
  asks h := hx.asks (hm.trans h)
  yields h := hx.yields (hm.trans h)

theorem weaken (hx : Requests k P m₀ x Q) (h : ∀ m a, Q m a → R m a) : Requests k P m₀ x R :=
  { hx with yields := fun hm ha => h _ _ (hx.yields hm ha) }

/-! ## Actions that ask for nothing -/

theorem const {x : Exec α} (hgrows : ∀ m : Machine, m.Grows (x.after m))
    (hQ : ∀ {m m' a}, m₀.Grows m → x m = .ok a m' → Q m' a) :
    Requests k P m₀ (fun _ => x) Q where
  grows _ := hgrows _
  asks _ h := (not_asks_const h).elim
  yields := hQ

theorem still {x : Exec α} (hgrows : ∀ m : Machine, m.Grows (x.after m)) :
    Requests k P m₀ (fun _ => x) Whatever := .const hgrows fun _ _ => trivial

/-- What is made without a request. -/
theorem made {x : Exec α} {Q : World → α → Prop} (hx : Action .loop Set.univ (fun _ => x) Q) :
    Requests k P m₀ (fun _ => x) Whatever := by
  have hgrows {y : Evaluator → Exec α} (hy : Action .loop Set.univ y Q) (m : Machine) :
      m.Grows ((y (.bounded k)).after m) := hy.moves (growing_stepwise .loop).lawful m
  exact .still (hgrows hx)

theorem plain {x : Exec α} {R : α → Prop} (hx : Plain .loop Set.univ x R) :
    Requests k P m₀ (fun _ => x) Whatever := .made (.done hx)

theorem pure {a : α} (h : ∀ {m}, m₀.Grows m → Q m a) :
    Requests k P m₀ (fun _ => Pure.pure a) Q := by
  refine .const (fun m => .refl m) fun hm ha => ?_
  cases ha
  exact h hm

theorem done {a : α} : Requests k P m₀ (fun _ => Pure.pure a) Whatever := .pure fun _ => trivial

theorem throwing {f : Fault} : Requests k P m₀ (fun _ => (throw f : Exec α)) Q :=
  .const (fun m => .refl m) nofun

theorem record {scope : ScopeId} {line : Nat} {kind : StepKind} {description : String} :
    Requests k P m₀ (fun _ => Exec.record scope line kind description) Whatever :=
  .still fun m => .recorded m ..

theorem enter {scope : ScopeId} : Requests k P m₀ (fun _ => Exec.enter scope) Whatever :=
  .plain (.enter (sees_univ scope))

theorem tick : Requests k P m₀ (fun _ => Exec.tick) Whatever := .plain (.elementary .tick)

theorem inspect {v : Value} : Requests k P m₀ (fun _ => Exec.inspect v) Whatever :=
  .plain .inspect

theorem resume {r : Except Thrown α} : Requests k P m₀ (fun _ => Exec.resume r) Whatever := by
  cases r with
  | ok a => exact .done
  | error t => exact .throwing

/-- A new scope. -/
theorem pushScope {x : Exec ScopeId} {s : Machine → Scope} {Q : Machine → ScopeId → Prop}
    (hx : ∀ m, x m = .ok m.scopes.size { m with scopes := m.scopes.push (s m) })
    (h : ∀ {m}, m₀.Grows m → Q { m with scopes := m.scopes.push (s m) } m.scopes.size) :
    Requests k P m₀ (fun _ => x) Q := by
  refine .const (fun m => ?_) fun {m _ _} hm ha => ?_
  · rw [Exec.after_of_ok (hx m)]
    exact .scopePushed m _
  · cases (hx m).symm.trans ha
    exact h hm

/-! ## Actions put together -/

/-- What one action behind another asks for, one of them does. -/
theorem bind {f : α → Evaluator → Exec β} {R : Machine → β → Prop} (hx : Requests k P m₀ x Q)
    (hf : ∀ a m, m₀.Grows m → Q m a → Requests k P m (f a) R) :
    Requests k P m₀ (fun ev => x ev >>= fun a => f a ev) R := by
  have hnext {m a m₁} (hm : m₀.Grows m) (hxm : x (.bounded k) m = .ok a m₁) :
      m.Grows m₁ ∧ Requests k P m₁ (f a) R := by
    have hgrows := hx.grows hm
    rw [Exec.after_of_ok hxm] at hgrows
    exact ⟨hgrows, hf a m₁ (hm.trans hgrows) (hx.yields hm hxm)⟩
  refine ⟨fun {m} hm => ?_, fun hm h => ?_, fun hm h => ?_⟩
  · cases hxm : x (.bounded k) m with
    | ok a m₁ =>
      obtain ⟨hgrows, hfa⟩ := hnext hm hxm
      rw [Exec.after_bind_of_ok hxm]
      exact hgrows.trans (hfa.grows (.refl m₁))
    | error g m₁ =>
      rw [Exec.after_bind_of_error hxm, ← Exec.after_of_error hxm]
      exact hx.grows hm
  · rcases h.of_bind with h | ⟨a, m₂, hxm, h⟩
    · exact hx.asks hm h
    · obtain ⟨hgrows, hfa⟩ := hnext hm hxm
      obtain ⟨hgrows', hP⟩ := hfa.asks (.refl m₂) h
      exact ⟨hgrows.trans hgrows', hP⟩
  · obtain ⟨a, m₁, hxm, hfm⟩ := Exec.bind_eq_ok h
    exact (hnext hm hxm).2.yields (.refl m₁) hfm

/-- What is done with any result, of which nothing is known. -/
theorem before {f : α → Evaluator → Exec β} {R : Machine → β → Prop} (hx : Requests k P m₀ x Q)
    (hf : ∀ a, Requests k P m₀ (f a) R) :
    Requests k P m₀ (fun ev => x ev >>= fun a => f a ev) R :=
  hx.bind fun a _ hm _ => (hf a).later hm

theorem discard (hx : Requests k P m₀ x Q) :
    Requests k P m₀ (fun ev => Functor.discard (x ev)) Whatever := hx.before fun _ => .done

theorem ite {c : Prop} [Decidable c] {y : Evaluator → Exec α} (hx : c → Requests k P m₀ x Q)
    (hy : ¬ c → Requests k P m₀ y Q) :
    Requests k P m₀ (fun ev => if c then x ev else y ev) Q := by
  split
  · exact hx ‹_›
  · exact hy ‹_›

/-- **A request.** -/
theorem run {w : Work α} (h : ∀ {m}, m₀.Grows m → P m w) :
    Requests k P m₀ (fun ev => ev.run w) Whatever where
  grows _ := w.grows k _
  asks hm hv := by
    obtain ⟨heq, rfl⟩ := hv.of_run
    cases heq
    exact ⟨.refl _, h hm⟩
  yields _ _ := trivial

/-- A handler asks for nothing itself. -/
theorem caught {R : Machine → Except Thrown α → Prop} (hx : Requests k P m₀ x Q)
    (hok : ∀ m a, Q m a → R m (.ok a)) (herror : ∀ m t, R m (.error t)) :
    Requests k P m₀ (fun ev => Exec.catchThrown (x ev)) R where
  grows hm := by
    rw [Exec.after_catchThrown]
    exact hx.grows hm
  asks hm h := hx.asks hm (h.of_comp fun _ _ => Exec.catchThrown_congr)
  yields hm h := by
    rcases Exec.catchThrown_eq_ok h with ⟨a, rfl, hxa⟩ | ⟨t, rfl, -⟩
    · exact hok _ a (hx.yields hm hxa)
    · exact herror _ t

theorem catchThrown (hx : Requests k P m₀ x Q) :
    Requests k P m₀ (fun ev => Exec.catchThrown (x ev)) Whatever :=
  hx.caught (fun _ _ _ => trivial) fun _ _ => trivial

theorem followedBy {scope : ScopeId} {line : Nat} {kind : StepKind} {description : String}
    (hx : Requests k P m₀ x Q) :
    Requests k P m₀ (fun ev => Exec.followedBy (x ev) (Exec.record scope line kind description))
      Whatever where
  grows hm := by
    rw [Exec.after_followedBy]
    exact (hx.grows hm).shown
  asks hm h := hx.asks hm (h.of_comp fun _ _ => Exec.followedBy_congr)
  yields _ _ := trivial

theorem orElseShow {scope : ScopeId} {line : Nat} {kind : StepKind} {description : String}
    (hx : Requests k P m₀ x Q) :
    Requests k P m₀ (fun ev => Exec.orElseShow (x ev) (Exec.record scope line kind description))
      Whatever where
  grows {m} hm := by
    rcases Exec.after_orElseShow (x := x (.bounded k)) (m := m) with h | h
    · rw [h]
      exact hx.grows hm
    · rw [h]
      exact (hx.grows hm).shown
  asks hm h := hx.asks hm (h.of_comp fun _ _ => Exec.orElseShow_congr)
  yields _ _ := trivial

/-! ## Expressions -/

section

variable {scope : ScopeId} (hexpr : ∀ m e, P m (.expr scope e))

include hexpr

theorem expr {e : Expr} : Requests k P m₀ (fun ev => ev.expr scope e) Whatever :=
  .run (w := .expr scope e) fun _ => hexpr _ e

theorem exprFor {target : Pattern} {e : Expr} :
    Requests k P m₀ (fun ev => ev.exprFor scope target e) Whatever := by
  unfold Evaluator.exprFor
  split
  · unfold Evaluator.exprNamed
    split
    · exact .made (.makeClosure (sees_univ scope))
    · exact expr hexpr
  · exact expr hexpr

theorem key {name : Key} : Requests k P m₀ (fun ev => ev.key scope name) Whatever := by
  cases name with
  | static name => exact .done
  | computed e => exact (expr hexpr).before fun _ => .plain .text

theorem reference {target : Expr} :
    Requests k P m₀ (fun ev => ev.reference scope target) Whatever := by
  unfold Evaluator.reference
  split
  · exact .done
  · exact (expr hexpr).before fun _ => (key hexpr).before fun _ => .done
  · exact .throwing

end

end Requests

end ScriptTrace
