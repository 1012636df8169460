import ScriptTrace.Proofs.Scope.Requests
import ScriptTrace.Proofs.Syntax.Part

/-!
# Proofs/Scope/Watch — who changes a binding

A watch is kept over one name in one scope.  An action passes it (`Watch.Clears`) if it asks for
nothing but what the watch allows, and if it changes the binding only where it may write it itself,
or in a piece of work that it begins.

Functions of the host bind global names only, so what they are made of is enough to know of them
(`Watch.Clears.library`).
-/

namespace ScriptTrace

open Syntax (Node)

/-! ## Bindings -/

namespace Scope

/-- Only the name that was put in is found with another binding. -/
theorem find?_putBinding {es : List (String × Binding)} {name other : String} {b : Binding} :
    ((putBinding name b es).find? (·.1 = other)).map Prod.snd =
      if name = other then some b else (es.find? (·.1 = other)).map Prod.snd := by
  induction es with
  | nil => by_cases h : name = other <;> simp [putBinding, h]
  | cons e es ih =>
    obtain ⟨key, old⟩ := e
    by_cases hkey : key = name
    · subst hkey
      by_cases h : key = other <;> simp [putBinding, h]
    · rw [putBinding, if_neg hkey]
      by_cases h : key = other
      · subst h
        simp [Ne.symm hkey]
      · simpa [h] using ih

theorem find?_put (s : Scope) (name other : String) (b : Binding) :
    (s.put name b).find? other = if name = other then some b else s.find? other :=
  find?_putBinding

end Scope

namespace Scopes

variable {scopes : Scopes} {id other : ScopeId} {name x : String} {b : Binding} {s : Scope}

/-- A binding that is put changes no other one. -/
theorem bindingIn?_put (h : id = other → name ≠ x) :
    bindingIn? (scopes.modify id (·.put name b)) x other = scopes.bindingIn? x other := by
  unfold bindingIn?
  rw [Array.getElem?_modify]
  split
  · rename_i heq
    cases scopes[other]? with
    | none => rfl
    | some s =>
      change (s.put name b).find? x = s.find? x
      rw [Scope.find?_put, if_neg (h heq)]
  · rfl

/-- A name that is bound in a scope there is. -/
theorem bindingIn?_put_self (h : id < scopes.size) :
    bindingIn? (scopes.modify id (·.put name b)) name id = some b := by
  obtain ⟨s, hs⟩ := IsTree.exists_of_lt h
  rw [bindingIn?, Array.getElem?_modify, if_pos rfl, hs]
  change (s.put name b).find? name = some b
  rw [Scope.find?_put, if_pos rfl]

/-- A new scope changes no older one. -/
theorem bindingIn?_push (h : other < scopes.size) :
    bindingIn? (scopes.push s) x other = scopes.bindingIn? x other := by
  unfold bindingIn?
  rw [Array.getElem?_push, if_neg h.ne]

theorem bindingIn?_isSome_of_binder (h : scopes.binder? id x = some other) :
    (scopes.bindingIn? x other).isSome = true :=
  List.find?_some (p := fun id => (scopes.bindingIn? x id).isSome) h

theorem mem_chain_of_binder (h : scopes.binder? id x = some other) : other ∈ scopes.chain id :=
  List.mem_of_find?_eq_some h

end Scopes

/-- What is written to objects binds no names. -/
theorem Writing.scopes_eq {W : World} {m : Machine} {x : Exec Unit} (h : Writing W m.heap x) :
    (x.after m).scopes = m.scopes := by
  induction h with
  | withHeap _ ih => exact ih
  | withCeiling _ ih => exact ih m.limits.maxLength
  | _ => rfl

/-- **What an assignment does**: it binds a global name, writes to the next binding of the name, or
fails at a constant. -/
theorem Exec.assign_cases (scope : ScopeId) (name : String) (v : Value) (line : Nat)
    (m : Machine) :
    (m.scopes.binder? scope name = none ∧
      assign scope name v line m = define Scopes.globalId name v .var m) ∨
    ∃ owner b, m.scopes.binder? scope name = some owner ∧
      m.scopes.bindingIn? name owner = some b ∧
      assign scope name v line m =
        (if b.kind = .const then misuse .assignmentToConstant line
        else putIn owner name ⟨v, b.kind⟩ : Exec Unit) m := by
  cases howner : m.scopes.binder? scope name with
  | none =>
    refine .inl ⟨rfl, (bind_of_ok rfl).trans ?_⟩
    rw [howner]
  | some owner =>
    obtain ⟨b, hb⟩ := Option.isSome_iff_exists.mp (Scopes.bindingIn?_isSome_of_binder howner)
    refine .inr ⟨owner, b, rfl, hb, (bind_of_ok rfl).trans ?_⟩
    simp only [howner, hb]

/-- Elementary actions bind at most one name; functions of the host bind global ones. -/
theorem Elementary.scopes_eq {l : Layer} {α : Type} {x : Exec α} {P : α → Prop}
    (h : Elementary l Set.univ x P) (m : Machine) : (x.after m).scopes = m.scopes ∨
      ∃ scope name b, (scope ≠ Scopes.globalId → l.Binds) ∧
        (x.after m).scopes = m.scopes.modify scope (·.put name b) := by
  cases h with
  | putIn _ _ hl => exact .inr ⟨_, _, _, hl, rfl⟩
  | tick => exact .inl (by rw [Exec.after_tick])
  | write h => exact .inl (h m.heap (within_univ _)).scopes_eq
  | flattened => exact .inl (by rw [Exec.after_flattened])
  | @addReaction id r =>
    rcases Exec.addReaction_cases id r m with ⟨-, h⟩ | ⟨rs, -, h⟩ | ⟨outcome, rs, label, -, -, h⟩
    all_goals exact .inl (by rw [Exec.after_of_ok h])
  | @settle id outcome line _ _ hp =>
    rcases Exec.settleFlat_cases id line m hp with h | ⟨rs, tasks, description, -, -, -, h⟩
    · exact .inl (by rw [Exec.after_of_ok h])
    · refine .inl ?_
      rw [Exec.after_of_ok h]
      rfl
  | nextMicrotask? =>
    cases hm : m.microtasks with
    | nil => exact .inl (by rw [Exec.after_of_ok (Exec.nextMicrotask_of_nil hm)])
    | cons => exact .inl (by rw [Exec.after_of_ok (Exec.nextMicrotask_of_cons hm)])
  | nextCallback? =>
    cases hm : m.callbacks with
    | nil => exact .inl (by rw [Exec.after_of_ok (Exec.nextCallback_of_nil hm)])
    | cons => exact .inl (by rw [Exec.after_of_ok (Exec.nextCallback_of_cons hm)])
  | _ => exact .inl rfl

/-! ## Watches -/

/-- Expressions that call: all that may lead to other functions. -/
def Syntax.Node.IsCall : Node → Prop
  | .expr (.call ..) | .expr (.new ..) => True
  | _ => False

/-- **What is watched**: one name in one scope, which is not the global one, and where work may be
asked for meanwhile. -/
structure Ward where
  scope : ScopeId
  name : String
  local_scope : scope ≠ Scopes.globalId
  /-- The scopes where work may be asked for. -/
  Region : Machine → ScopeId → Prop
  /-- What the work may be made of. -/
  Parts : Node → Prop
  later : ∀ {m m' : Machine} {σ : ScopeId}, m.Grows m' → Region m σ → Region m' σ

namespace Ward

/-- The binding in a machine. -/
def bound (q : Ward) (m : Machine) : Option Binding := m.scopes.bindingIn? q.name q.scope

/-- A scope where work may be asked for, and not the one that is watched. -/
def Fresh (q : Ward) (m : Machine) (σ : ScopeId) : Prop := q.Region m σ ∧ σ ≠ q.scope

/-- **A ward where all is allowed**: its scopes are closed under all ways to make one. -/
structure IsFree (q : Ward) : Prop where
  parts : ∀ node, q.Parts node
  inner : ∀ {m : Machine} {σ : ScopeId} (kind : ScopeKind), q.scope < m.scopes.size →
    q.Region m σ → q.Region { m with scopes := m.scopes.push ⟨some σ, kind, [], none⟩ }
      m.scopes.size
  copy : ∀ {m : Machine} {σ : ScopeId}, q.scope < m.scopes.size → q.Region m σ →
    q.Region { m with scopes := m.scopes.push (m.scopes.getD σ default) } m.scopes.size
  call : ∀ {m : Machine} {id : ObjectId} {c : Closure} (receiver : Option Value),
    q.scope < m.scopes.size → m.heap.body? id = some (.closure c) →
    q.Region { m with scopes := m.scopes.push ⟨some c.scope, .function c.name, [], receiver⟩ }
      m.scopes.size

/-- Expressions that call, which lead to other functions, are allowed only where all is. -/
def Calls (q : Ward) : Prop := ∀ {node : Node}, node.IsCall → q.Parts node → q.IsFree

/-- All nodes are allowed. -/
def Permits (q : Ward) (parts : List Node) : Prop := ∀ node ∈ parts, q.Parts node

/-- **The pieces of work that may be asked for**: expressions and patterns, and others where all is
allowed. -/
def Allows (q : Ward) (m : Machine) {β : Type} : Work β → Prop
  | .expr scope e => q.Region m scope ∧ q.Permits e.nodes
  | .bind scope p _ _ _ => q.Region m scope ∧ q.Permits p.nodes
  | .statement scope .. | .whileLoop scope .. | .doLoop scope .. | .forLoop scope _ =>
    q.IsFree ∧ q.Region m scope
  | .apply .. | .microtasks | .macrotasks => q.IsFree

section

variable {α : Type} {q : Ward} {node : Node} {parts others : List Node} {vs : List α}
  {f : α → List Node}

@[simp] theorem permits_nil : q.Permits [] := nofun

@[simp] theorem permits_cons : q.Permits (node :: parts) ↔ q.Parts node ∧ q.Permits parts :=
  List.forall_mem_cons

@[simp] theorem permits_append :
    q.Permits (parts ++ others) ↔ q.Permits parts ∧ q.Permits others := List.forall_mem_append

@[simp] theorem permits_flatMap : q.Permits (vs.flatMap f) ↔ ∀ v ∈ vs, q.Permits (f v) :=
  List.forall_mem_flatMap

theorem permits_expr {e : Syntax.Expr} :
    q.Permits e.nodes ↔ q.Parts (.expr e.node) ∧ q.Permits e.node.inside := by
  cases e
  exact permits_cons

theorem IsFree.permits (hq : q.IsFree) (parts : List Node) : q.Permits parts :=
  fun node _ => hq.parts node

end

/-- The same name, with all work allowed. -/
def opened (q : Ward) : Ward where
  scope := q.scope
  name := q.name
  local_scope := q.local_scope
  Region _ _ := True
  Parts _ := True
  later _ := id

theorem isFree_opened (q : Ward) : q.opened.IsFree where
  parts _ := trivial
  inner _ _ := id
  copy _ := id
  call _ _ _ := trivial

end Ward

/-- **A watch over a name** during one action. -/
structure Watch extends Ward where
  /-- The fuel of the pieces of work that are asked for. -/
  fuel : Nat
  /-- Where the name may be written by the action itself. -/
  Writes : Machine → Prop

/-- A watch over what writes nothing itself. -/
def Ward.watch (q : Ward) (fuel : Nat) : Watch := ⟨q, fuel, fun _ => False⟩

namespace Watch

variable {q : Watch} {m₀ m m' : Machine}

/-- A later machine than one in which the scope is there. -/
structure From (q : Watch) (m₀ m : Machine) : Prop where
  grows : m₀.Grows m
  present : q.scope < m₀.scopes.size

theorem From.made (h : q.From m₀ m) : q.scope < m.scopes.size :=
  h.present.trans_le h.grows.size_le

theorem From.later (h : q.From m₀ m) (hm : m.Grows m') : q.From m₀ m' :=
  ⟨h.grows.trans hm, h.present⟩

theorem From.start (h : q.From m₀ m) : q.From m m := ⟨.refl m, h.made⟩

/-- **Who changes the binding** in an action: a piece of work that it begins, or the action itself.
-/
def Changed (q : Watch) {α : Type} (x : Evaluator → Exec α) (m : Machine) : Prop :=
  (∃ (β : Type) (v : Work β) (m₁ : Machine), Begins x (.bounded q.fuel) m v m₁ ∧
    q.bound ((v.exec q.fuel).after m₁) ≠ q.bound m₁) ∨ ∃ m₂, m.Grows m₂ ∧ q.Writes m₂

/-- What begins all that another action begins is changed by the same. -/
theorem Changed.imp {α β : Type} {x : Evaluator → Exec α} {y : Evaluator → Exec β}
    (h : q.Changed x m) (hxy : ∀ {γ : Type} {v : Work γ} {m₁ : Machine},
      Begins x (.bounded q.fuel) m v m₁ → Begins y (.bounded q.fuel) m v m₁) : q.Changed y m := by
  refine Or.imp_left ?_ h
  rintro ⟨γ, v, m₁, hv, hchange⟩
  exact ⟨γ, v, m₁, hxy hv, hchange⟩

/-- What is changed by an action behind another one. -/
theorem Changed.behind {α β : Type} {x : Evaluator → Exec α} {f : α → Evaluator → Exec β} {a : α}
    (h : q.Changed (f a) m') (hx : Heeds x (.bounded q.fuel) m)
    (hxm : x (.bounded q.fuel) m = .ok a m') (hgrows : m.Grows m') :
    q.Changed (fun ev => x ev >>= fun a => f a ev) m := by
  refine Or.imp ?_ ?_ h
  · rintro ⟨γ, v, m₂, hv, hchange⟩
    exact ⟨γ, v, m₂, .behind hx hxm hv, hchange⟩
  · rintro ⟨m₂, hm₂, hwrites⟩
    exact ⟨m₂, hgrows.trans hm₂, hwrites⟩

/-- **An action passes a watch.**  `Q` is what is known of its result in the machine that it
leaves. -/
structure Clears (q : Watch) (m₀ : Machine) {α : Type} (x : Evaluator → Exec α)
    (Q : Machine → α → Prop) : Prop where
  requests : q.scope < m₀.scopes.size → Requests q.fuel (fun m _ w => q.Allows m w) m₀ x Q
  heeds : ∀ {m}, q.From m₀ m → Heeds x (.bounded q.fuel) m
  /-- Who changes the binding until the action ends. -/
  changes : ∀ {m}, q.From m₀ m → q.bound ((x (.bounded q.fuel)).after m) ≠ q.bound m →
    q.Changed x m
  /-- Who changes the binding until the action asks for a piece of work. -/
  reaches : ∀ {m m₁} {β : Type} {v : Work β}, q.From m₀ m → Asks x (.bounded q.fuel) m v m₁ →
    q.bound m₁ ≠ q.bound m → q.Changed x m

namespace Clears

variable {α β : Type} {x : Evaluator → Exec α} {Q R : Machine → α → Prop}

theorem grows (hx : q.Clears m₀ x Q) (hm : q.From m₀ m) :
    m.Grows ((x (.bounded q.fuel)).after m) := (hx.requests hm.present).grows hm.grows

theorem asks (hx : q.Clears m₀ x Q) (hm : q.From m₀ m) {v : Work β} {m₁ : Machine}
    (h : Asks x (.bounded q.fuel) m v m₁) : m.Grows m₁ ∧ q.Allows m₁ v :=
  (hx.requests hm.present).asks hm.grows h

theorem later (hx : q.Clears m₀ x Q) (hm : q.From m₀ m) : q.Clears m x Q where
  requests _ := (hx.requests hm.present).later hm.grows
  heeds h := hx.heeds (hm.later h.grows)
  changes h := hx.changes (hm.later h.grows)
  reaches h := hx.reaches (hm.later h.grows)

theorem weaken (hx : q.Clears m₀ x Q) (h : ∀ m a, Q m a → R m a) : q.Clears m₀ x R :=
  { hx with requests := fun hpresent => (hx.requests hpresent).weaken h }

theorem any (hx : q.Clears m₀ x Q) : q.Clears m₀ x Whatever := hx.weaken fun _ _ _ => trivial

/-! ### Actions that ask for nothing -/

/-- An action that changes no guarded binding, and asks for what is allowed, is cleared. -/
theorem const {x : Exec α} (hx : q.scope < m₀.scopes.size →
      Requests q.fuel (fun m _ w => q.Allows m w) m₀ (fun _ => x) Q)
    (hbound : ∀ {m}, q.From m₀ m → q.bound (x.after m) ≠ q.bound m →
      ∃ m₂, m.Grows m₂ ∧ q.Writes m₂) : q.Clears m₀ (fun _ => x) Q where
  requests := hx
  heeds _ := .const
  changes hm h := .inr (hbound hm h)
  reaches _ h := (not_asks_const h).elim

/-- Scopes are left alone. -/
theorem still {x : Exec α} (hx : Requests q.fuel (fun m _ w => q.Allows m w) m₀ (fun _ => x) Q)
    (hscopes : ∀ m : Machine, (x.after m).scopes = m.scopes) : q.Clears m₀ (fun _ => x) Q := by
  refine .const (fun _ => hx) fun {m} _ h => absurd ?_ h
  rw [Ward.bound, Ward.bound, hscopes]

theorem pure {a : α} (h : ∀ {m}, q.From m₀ m → Q m a) : q.Clears m₀ (fun _ => Pure.pure a) Q :=
  .const (fun hpresent => .pure fun hm => h ⟨hm, hpresent⟩) fun _ hne => absurd rfl hne

theorem done {a : α} : q.Clears m₀ (fun _ => Pure.pure a) Whatever := .pure fun _ => trivial

theorem record {scope : ScopeId} {line : Nat} {kind : StepKind} {description : String} :
    q.Clears m₀ (fun _ => Exec.record scope line kind description) Whatever :=
  .still .record fun _ => rfl

theorem recordHere {line : Nat} {kind : StepKind} {description : String} :
    q.Clears m₀ (fun _ => Exec.recordHere line kind description) Whatever :=
  .still (.still fun m => .recorded m ..) fun _ => rfl

theorem enter {scope : ScopeId} : q.Clears m₀ (fun _ => Exec.enter scope) Whatever :=
  .still .enter fun _ => rfl

theorem currentScope : q.Clears m₀ (fun _ => Exec.currentScope) Whatever :=
  .still (.still fun m => .refl m) fun _ => rfl

theorem pushFrame {name : String} {line : Nat} :
    q.Clears m₀ (fun _ => Exec.pushFrame name line) Whatever := by
  have hpush (m : Machine) : ((Exec.pushFrame name line).after m).scopes = m.scopes ∧
      m.Grows ((Exec.pushFrame name line).after m) := by
    rcases Nat.lt_or_ge m.frames.length m.limits.maxCallDepth with h | h
    · rw [Exec.after_of_ok (Exec.pushFrame_of_lt h)]
      exact ⟨rfl, .of_eq rfl rfl rfl le_rfl le_rfl⟩
    · rw [Exec.after_of_error (Exec.pushFrame_of_le h)]
      exact ⟨rfl, .refl m⟩
  exact .still (.still fun m => (hpush m).2) fun m => (hpush m).1

theorem popFrame : q.Clears m₀ (fun _ => Exec.popFrame) Whatever :=
  .still (.still fun _ => .of_eq rfl rfl rfl le_rfl le_rfl) fun _ => rfl

theorem throwing {f : Fault} : q.Clears m₀ (fun _ => (throw f : Exec α)) Q :=
  .still .throwing fun _ => rfl

theorem allocate {body : Body} {className : Option String} :
    q.Clears m₀ (fun _ => Exec.allocate body className) Whatever :=
  have hgrows (m : Machine) : m.Grows ((Exec.allocate body className).after m) :=
    .of_store rfl (Machine.Grows.objects_add ..) (.refl .refl _) le_rfl le_rfl
  .still (.still hgrows) fun _ => rfl

/-- A new scope. -/
theorem pushScope {x : Exec ScopeId} {s : Machine → Scope}
    (hx : ∀ m, x m = .ok m.scopes.size { m with scopes := m.scopes.push (s m) })
    {Q : Machine → ScopeId → Prop}
    (h : ∀ {m}, q.From m₀ m → Q { m with scopes := m.scopes.push (s m) } m.scopes.size) :
    q.Clears m₀ (fun _ => x) Q := by
  refine .const (fun hpresent => .pushScope hx fun hm => h ⟨hm, hpresent⟩) fun {m} hm hne => ?_
  rw [Exec.after_of_ok (hx m)] at hne
  exact absurd (Scopes.bindingIn?_push hm.made) hne

/-- A name is bound in a scope itself. -/
theorem define {scope : ScopeId} {name : String} {v : Value} {kind : BindingKind}
    (h : scope = q.scope → name = q.name → ∀ {m}, q.From m₀ m → q.Writes m) :
    q.Clears m₀ (fun _ => Exec.define scope name v kind) Whatever := by
  refine .const (fun _ => .plain (.define (sees_univ scope) (within_univ v))) fun {m} hm hne => ?_
  refine ⟨m, .refl m, ?_⟩
  by_contra hwrites
  exact hne (Scopes.bindingIn?_put fun heq hname => hwrites (h heq hname hm))

/-- What is assigned to is the next binding of the name on the way outward. -/
theorem assign {scope : ScopeId} {name : String} {v : Value} {line : Nat}
    (h : name = q.name → ∀ {m}, q.From m₀ m → m.scopes.binder? scope q.name = some q.scope →
      q.Writes m) :
    q.Clears m₀ (fun _ => Exec.assign scope name v line) Whatever := by
  refine .const (fun _ => .plain (.assign (within_univ v))) fun {m} hm hne => ⟨m, .refl m, ?_⟩
  by_contra hwrites
  have hput {owner : ScopeId} {b : Binding} (howner : owner = q.scope → name ≠ q.name) :
      q.bound ((Exec.putIn owner name b).after m) = q.bound m := Scopes.bindingIn?_put howner
  rcases Exec.assign_cases scope name v line m with ⟨-, hassign⟩ | ⟨owner, b, howner, -, hassign⟩
  · rw [Exec.after_congr hassign] at hne
    exact hne (hput fun hglobal => absurd hglobal.symm q.local_scope)
  · rw [Exec.after_congr hassign] at hne
    split at hne
    · exact hne rfl
    · refine hne (hput fun heq hname => hwrites (h hname hm ?_))
      rw [← hname, howner, heq]

/-! ### Actions put together -/

/-- One action behind another is cleared if both of them are. -/
theorem bind {f : α → Evaluator → Exec β} {R : Machine → β → Prop} (hx : q.Clears m₀ x Q)
    (hf : ∀ a m, q.From m₀ m → Q m a → q.Clears m (f a) R) :
    q.Clears m₀ (fun ev => x ev >>= fun a => f a ev) R := by
  have hnext {m a m₁} (hm : q.From m₀ m) (hxm : x (.bounded q.fuel) m = .ok a m₁) :
      m.Grows m₁ ∧ q.From m₁ m₁ ∧ q.Clears m₁ (f a) R := by
    have hgrows := hx.grows hm
    rw [Exec.after_of_ok hxm] at hgrows
    have hm₁ := hm.later hgrows
    exact ⟨hgrows, hm₁.start, hf a m₁ hm₁ ((hx.requests hm.present).yields hm.grows hxm)⟩
  refine ⟨fun hpresent => ?_, fun hm => ?_, fun {m} hm hne => ?_, fun {m m₂} _ _ hm h hne => ?_⟩
  · refine (hx.requests hpresent).bind fun a m hm ha => ?_
    exact (hf a m ⟨hm, hpresent⟩ ha).requests (hpresent.trans_le hm.size_le)
  · exact (hx.heeds hm).bind fun hxm => (hnext hm hxm).2.2.heeds (hnext hm hxm).2.1
  · cases hxm : x (.bounded q.fuel) m with
    | ok a m₁ =>
      obtain ⟨hgrows, hm₁, hfa⟩ := hnext hm hxm
      rw [Exec.after_bind_of_ok hxm] at hne
      by_cases hfirst : q.bound m₁ = q.bound m
      · exact (hfa.changes hm₁ (hfirst ▸ hne)).behind (hx.heeds hm) hxm hgrows
      · exact (hx.changes hm (by rwa [Exec.after_of_ok hxm])).imp .bind
    | error g m₁ =>
      rw [Exec.after_bind_of_error hxm] at hne
      exact (hx.changes hm (by rwa [Exec.after_of_error hxm])).imp .bind
  · rcases h.of_bind with h | ⟨a, m₁, hxm, h⟩
    · exact (hx.reaches hm h hne).imp .bind
    · obtain ⟨hgrows, hm₁, hfa⟩ := hnext hm hxm
      by_cases hfirst : q.bound m₁ = q.bound m
      · exact (hfa.reaches hm₁ h (hfirst ▸ hne)).behind (hx.heeds hm) hxm hgrows
      · exact (hx.changes hm (by rwa [Exec.after_of_ok hxm])).imp .bind

/-- What is done with any result, of which nothing is known. -/
theorem before {f : α → Evaluator → Exec β} {R : Machine → β → Prop} (hx : q.Clears m₀ x Q)
    (hf : ∀ a, q.Clears m₀ (f a) R) : q.Clears m₀ (fun ev => x ev >>= fun a => f a ev) R :=
  hx.bind fun a _ hm _ => (hf a).later hm

theorem discard (hx : q.Clears m₀ x Q) :
    q.Clears m₀ (fun ev => Functor.discard (x ev)) Whatever :=
  hx.before fun _ => .done

theorem ite {c : Prop} [Decidable c] {y : Evaluator → Exec α} (hx : c → q.Clears m₀ x Q)
    (hy : ¬ c → q.Clears m₀ y Q) : q.Clears m₀ (fun ev => if c then x ev else y ev) Q := by
  split
  · exact hx ‹_›
  · exact hy ‹_›

theorem run {w : Work α} (h : ∀ {m}, q.From m₀ m → q.Allows m w) :
    q.Clears m₀ (fun ev => ev.run w) Whatever where
  requests hpresent := .run fun hm => h ⟨hm, hpresent⟩
  heeds _ := .run
  changes _ hne := .inl ⟨α, w, _, .run, hne⟩
  reaches _ hv hne := absurd (congrArg q.bound hv.of_run.2.symm) hne

/-- A handler writes nothing itself. -/
theorem caught {R : Machine → Except Thrown α → Prop} (hx : q.Clears m₀ x Q)
    (hok : ∀ m a, Q m a → R m (.ok a)) (herror : ∀ m t, R m (.error t)) :
    q.Clears m₀ (fun ev => Exec.catchThrown (x ev)) R where
  requests hpresent := (hx.requests hpresent).caught hok herror
  heeds hm := (hx.heeds hm).catchThrown
  changes hm hne := by
    rw [Exec.after_catchThrown] at hne
    exact (hx.changes hm hne).imp .catchThrown
  reaches hm hv hne :=
    (hx.reaches hm (hv.of_comp fun _ _ => Exec.catchThrown_congr) hne).imp .catchThrown

theorem catchThrown (hx : q.Clears m₀ x Q) :
    q.Clears m₀ (fun ev => Exec.catchThrown (x ev)) Whatever :=
  hx.caught (fun _ _ _ => trivial) fun _ _ => trivial

theorem followedBy {scope : ScopeId} {line : Nat} {kind : StepKind} {description : String}
    (hx : q.Clears m₀ x Q) :
    q.Clears m₀ (fun ev => Exec.followedBy (x ev) (Exec.record scope line kind description))
      Whatever where
  requests hpresent := (hx.requests hpresent).followedBy
  heeds hm := (hx.heeds hm).followedBy
  changes hm hne := by
    rw [Exec.after_followedBy] at hne
    exact (hx.changes hm hne).imp .followedBy
  reaches hm hv hne :=
    (hx.reaches hm (hv.of_comp fun _ _ => Exec.followedBy_congr) hne).imp .followedBy

theorem orElseShow {scope : ScopeId} {line : Nat} {kind : StepKind} {description : String}
    (hx : q.Clears m₀ x Q) :
    q.Clears m₀ (fun ev => Exec.orElseShow (x ev) (Exec.record scope line kind description))
      Whatever where
  requests hpresent := (hx.requests hpresent).orElseShow
  heeds hm := (hx.heeds hm).orElseShow
  changes {m} hm hne := by
    have hbound : q.bound ((x (.bounded q.fuel)).after m) ≠ q.bound m := by
      rcases Exec.after_orElseShow (x := x (.bounded q.fuel)) (m := m) with h | h
      · rwa [h] at hne
      · rwa [h] at hne
    exact (hx.changes hm hbound).imp .orElseShow
  reaches hm hv hne :=
    (hx.reaches hm (hv.of_comp fun _ _ => Exec.orElseShow_congr) hne).imp .orElseShow

/-! ### Functions of the host -/

/-- What a function of the host is made of, for a watch that allows calls. -/
theorem composable (hq : q.IsFree) : Composable .library fun x P => q.Clears m₀ x fun _ => P where
  pure h := .pure fun _ => h
  elementary h := by
    have hgrows := ((growing_stepwise .library).elementary h).moves_of_univ
    refine .const (fun _ => .const hgrows fun _ => h.yields_univ) fun {m} hm hne => absurd ?_ hne
    rcases h.scopes_eq m with hscopes | ⟨scope, name, b, hl, hscopes⟩
    · rw [Ward.bound, Ward.bound, hscopes]
    · rw [Ward.bound, Ward.bound, hscopes]
      refine Scopes.bindingIn?_put fun heq => ?_
      have hbinds := hl (heq ▸ q.local_scope)
      exact absurd rfl hbinds.ne_library
  bind hx hk := hx.bind fun a m hm ha => (hk a ha).later hm
  weaken hx h := hx.weaken fun _ a => h a
  allocate _ := .allocate
  newScope := .pushScope (fun _ => rfl) fun _ => trivial
  copyScope := .pushScope (fun _ => rfl) fun _ => trivial
  eval {_ w} hw := by
    have hrun : q.Clears m₀ (fun ev => ev.run w) Whatever := by
      cases w with
      | apply => exact .run fun _ => hq
      | expr | bind | statement | whileLoop | doLoop | forLoop =>
        exact absurd rfl hw.1.ne_library
      | microtasks | macrotasks => cases hw
    exact hrun.weaken fun _ a _ => w.yields_univ a
  catchThrown hx := hx.caught (fun _ _ h => h) fun _ => within_univ
  orElseShow hl := absurd rfl hl.ne_library

/-- **Functions of the host pass** a watch that allows calls. -/
theorem library (hq : q.IsFree) {Q : World → α → Prop} (hx : Action .library Set.univ x Q) :
    q.Clears m₀ x Whatever :=
  (hx.has ⟨composable hq, fun hl => absurd rfl hl.ne_library⟩ rfl).any

/-- **What the host does without a call passes** every watch. -/
theorem made {x : Exec α} {Q : World → α → Prop} (hx : Action .library Set.univ (fun _ => x) Q) :
    q.Clears m₀ (fun _ => x) Whatever := by
  have hopen (m : Machine) : (q.opened.watch q.fuel).Clears m (fun _ => x) Whatever :=
    library q.isFree_opened hx
  have hgrows (hpresent : q.scope < m₀.scopes.size) := (hopen m₀).requests hpresent
  refine .const (fun hpresent => ⟨(hgrows hpresent).grows, ?_, fun _ _ => trivial⟩) ?_
  · exact fun _ h => (not_asks_const h).elim
  · intro m hm hne
    rcases (hopen m).changes ⟨.refl m, hm.made⟩ hne with ⟨β, v, m₁, hv, -⟩ | ⟨_, _, hwrites⟩
    · exact (not_asks_const hv.asks).elim
    · exact hwrites.elim

end Clears

end Watch

end ScriptTrace
