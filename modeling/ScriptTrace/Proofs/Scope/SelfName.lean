import ScriptTrace.Proofs.Scope.Assignment
import ScriptTrace.Proofs.Scope.Hoisting

/-!
# Proofs/Scope/SelfName — what a function's own name means in its calls

A call binds the name of its function in its own scope if the scopes around the definition leave the
name free (`Machine.callBinding?`), and then it means the function wherever the scope is seen, as
long as it is not declared or assigned to there; nothing outside is changed
(`own_name_means_function`).  A variable of the same name around the definition is not shadowed.
-/

namespace ScriptTrace

open Syntax (Expr)

variable {m m' m₀ m₁ : Machine} {id : ObjectId} {c : Closure} {this : Value} {args : List Value}
  {line fuel k : Nat} {scope σ : ScopeId} {name : String}

/-! ## Names and the scopes that bind them -/

namespace Scopes

variable {scopes : Scopes} {owner : ScopeId} {x : String}

/-- What a name means is its next binding outward. -/
theorem lookup?_of_binder (h : scopes.binder? σ x = some owner) :
    scopes.lookup? σ x = scopes.bindingIn? x owner := by
  obtain ⟨b, hb⟩ := Option.isSome_iff_exists.mp (bindingIn?_isSome_of_binder h)
  obtain ⟨-, inner, outer, hchain, hinner⟩ := List.find?_eq_some_iff_append.mp h
  rw [lookup?, hchain, hb]
  refine findSome?_of_none_before outer (fun s hs _ => ?_) hb
  simpa using hinner s hs

/-- A new scope leaves all names as they are in the older ones. -/
theorem lookup?_push (hm : m.scopes.IsTree) (hσ : σ < m.scopes.size) (s : Scope) :
    lookup? (m.scopes.push s) σ x = m.scopes.lookup? σ x := by
  have hchain : chain (m.scopes.push s) σ = m.scopes.chain σ :=
    (Machine.Grows.scopePushed m s).chain_eq hm hσ
  have hbinding (s' : ScopeId) (hs' : s' ∈ m.scopes.chain σ) :
      bindingIn? (m.scopes.push s) x s' = m.scopes.bindingIn? x s' :=
    bindingIn?_push (((hm.chain_outward hσ).2.2 s' hs').trans_lt hσ)
  rw [lookup?, lookup?, hchain, ← List.head?_filterMap, List.filterMap_congr hbinding,
    List.head?_filterMap]

/-- The next binding outward is not behind one that is there. -/
theorem le_of_binder (h : scopes.binder? σ x = some owner)
    (hsorted : (scopes.chain σ).Pairwise (· > ·)) {s : ScopeId} (hs : s ∈ scopes.chain σ)
    (hbound : (scopes.bindingIn? x s).isSome) : s ≤ owner := by
  obtain ⟨-, inner, outer, hchain, hinner⟩ := List.find?_eq_some_iff_append.mp h
  rw [hchain] at hs hsorted
  rcases List.mem_append.mp hs with hs | hs
  · have hfree := hinner s hs
    rw [hbound] at hfree
    cases hfree
  · rcases List.mem_cons.mp hs with rfl | hs
    · exact le_rfl
    · exact (List.rel_of_pairwise_cons (List.pairwise_append.mp hsorted).2.1 hs).le

end Scopes

namespace Machine.Inside

variable {s owner : ScopeId} {x : String}

theorem lt_size (h : m.Inside s σ) : σ < m.scopes.size := by
  cases h with
  | self h => exact h
  | under hr => exact (Array.getElem?_eq_some_iff.mp hr).1

/-- What is passed on the way outward has the scope around it. -/
theorem of_mem_chain (h : m.Inside s owner) (hm : m.scopes.IsTree) (hσ : σ < m.scopes.size)
    (hmem : owner ∈ m.scopes.chain σ) : m.Inside s σ := by
  induction σ using Nat.strongRecOn with
  | ind σ ih =>
    obtain ⟨r, hr⟩ := Scopes.IsTree.exists_of_lt hσ
    rw [hm.chain_eq hr] at hmem
    rcases List.mem_cons.mp hmem with rfl | hmem
    · exact h
    · cases hp : r.parent with
      | none =>
        rw [hp] at hmem
        cases hmem
      | some p =>
        rw [hp] at hmem
        obtain ⟨hlt, hsize⟩ := hm.parent_lt hr hp
        exact .under hr hp (ih p hlt hsize hmem)

/-- **An assignment from inside a scope that binds the name** is not seen outside. -/
theorem lookup?_assign (h : m.Inside s σ) (hm : m.scopes.IsTree)
    (hbound : (m.scopes.bindingIn? x s).isSome) (v : Value) {σ' : ScopeId}
    (hσ' : σ' < m.scopes.size) (houtside : ¬ m.Inside s σ') (y : String) :
    ((Exec.assign σ x v line).after m).scopes.lookup? σ' y = m.scopes.lookup? σ' y := by
  obtain ⟨owner, howner, hin⟩ := h.binder hm hbound
  rcases Exec.assign_cases σ x v line m with ⟨hnone, -⟩ | ⟨owner', b, howner', -, hassign⟩
  · cases howner.symm.trans hnone
  · cases howner.symm.trans howner'
    rw [Exec.after_congr hassign]
    split
    · rfl
    · refine Scopes.lookup?_put_of_shadowed fun _ ⟨inner, outer, hchain, _⟩ => houtside ?_
      refine hin.of_mem_chain hm hσ' ?_
      rw [hchain]
      exact List.mem_append_right _ List.mem_cons_self

end Machine.Inside

/-! ## The scope of a call -/

/-- **The binding of a function's own name** in the scope of a call: there is none for arrow
functions and functions without name, nor where the name is bound around the definition. -/
def Machine.callBinding? (m : Machine) (id : ObjectId) (c : Closure) : Option Binding :=
  if !c.definition.isArrow && !c.name.isEmpty && (m.scopes.lookup? c.scope c.name).isNone then
    some ⟨.object id, .function⟩
  else none

/-- The scopes of a call: a new one, and that binding in it. -/
theorem Evaluator.callScope_scopes (hm : m.scopes.IsTree) (hc : c.scope < m.scopes.size)
    (h : callScope id c this m = .ok scope m') :
    let pushed : Scopes := m.scopes.push ⟨some c.scope, .function c.name, [], c.receiver? this⟩
    m'.scopes = (m.callBinding? id c).elim pushed fun b =>
      pushed.modify m.scopes.size (·.put c.name b) := by
  have hmade : callScope id c this m = _ :=
    (Exec.bind_of_ok rfl).trans ((Exec.bind_of_ok rfl).trans (Exec.bind_of_ok rfl))
  rw [hmade, Scopes.lookup?_push hm hc] at h
  unfold Machine.callBinding?
  split at h
  all_goals
    rename_i hnamed
    cases h
    simp [hnamed]

/-- **The scope of a call** binds nothing else. -/
theorem Evaluator.bindingIn?_callScope (hm : m.scopes.IsTree) (hc : c.scope < m.scopes.size)
    (h : callScope id c this m = .ok scope m') :
    m'.scopes.bindingIn? c.name m.scopes.size = m.callBinding? id c := by
  rw [callScope_scopes hm hc h]
  cases m.callBinding? id c with
  | none =>
    rw [Option.elim_none, Scopes.bindingIn?, Array.getElem?_push_size]
    rfl
  | some b => exact Scopes.bindingIn?_put_self (by simp)

/-! ## Who gives the name another meaning -/

/-- **A name of a scope is written to** in an action: a piece of work nested in it assigns to the
name where it means this binding, or declares it in the scope. -/
inductive WritesName (s : ScopeId) (name : String) {α : Type} (x : Evaluator → Exec α) (fuel : Nat)
    (m : Machine) : Prop
  | assigned {β : Type} {v : Work β} {k : Nat} {m₁ m₂ : Machine} {σ : ScopeId}
    (h : Nested x fuel m v k m₁) (hv : v.Assigns σ name) (hgrows : m₁.Grows m₂)
    (hbinder : m₂.scopes.binder? σ name = some s)
  | declared {β : Type} {v : Work β} {k : Nat} {m₁ : Machine} (h : Nested x fuel m v k m₁)
    (hv : v.Declares s name)

/-- What writes to the guarded name assigns it or declares it again. -/
theorem Ward.WrittenIn.writesName {q : Ward} {α : Type} {x : Evaluator → Exec α}
    (h : q.WrittenIn x fuel m) : WritesName q.scope q.name x fuel m := by
  cases h with
  | assigned h =>
    obtain ⟨h, -, hassigns, hgrows, hbinder⟩ := h
    exact .assigned h hassigns hgrows hbinder
  | declared h _ hdeclares => exact .declared h hdeclares

theorem WritesName.congr {s : ScopeId} {α : Type} {x y : Evaluator → Exec α}
    (h : WritesName s name x fuel m) (hxy : ∀ ev, x ev m = y ev m') :
    WritesName s name y fuel m' := by
  cases h with
  | assigned h hv hgrows hbinder => exact .assigned (h.congr hxy) hv hgrows hbinder
  | declared h hv => exact .declared (h.congr hxy) hv

section

variable {β : Type} {v : Work β} {b : Binding}

/-- **The binding that a call makes stays** until the name is declared or assigned to. -/
theorem Nested.callBinding (hm : m.Closed) (hid : m.heap.body? id = some (.closure c))
    (hb : m.callBinding? id c = some b)
    (h : Nested (fun ev => ev.invoke id c this args line) fuel m v k m₁) :
    (m₁.scopes.bindingIn? c.name m.scopes.size).isSome ∧
      (m₁.scopes.bindingIn? c.name m.scopes.size = some b ∨ c.definition.body.Hoists c.name ∨
        WritesName m.scopes.size c.name (fun ev => ev.invoke id c this args line) fuel m) := by
  obtain ⟨γ, w, m₂, hasks⟩ := h.exists_asks
  obtain ⟨m₀, shown, hscope, hinvoke⟩ := hasks.invoke_eq
  have hown : m₀.scopes.bindingIn? c.name m.scopes.size = some b := by
    let called := { m with work := m.work + 1, frames := ⟨c.title, line⟩ :: m.frames }
    have hbinding := Evaluator.bindingIn?_callScope (m := called) hm.tree
      (hm.sees_iff.mp (hm.heap.of_body? hid)) hscope
    exact hbinding.trans hb
  have hmade : m.scopes.size < m₀.scopes.size := by
    obtain ⟨r, hr, -⟩ := Option.bind_eq_some_iff.mp hown
    exact (Array.getElem?_eq_some_iff.mp hr).1
  let everywhere := (Ward.bypassing m.scopes.size c.name hm.tree.nonempty.ne').opened
  have hfree : everywhere.IsFree := Ward.isFree_opened _
  let q : Watch := ⟨everywhere, fuel, fun _ => c.definition.body.Hoists c.name⟩
  have hclears : q.Clears m₀ (fun ev => Exec.catchThrown
      (ev.runCall m.scopes.size c args shown line) >>= Evaluator.endCall c m.scope line)
      Whatever :=
    (Watch.Clears.runCall hfree trivial fun _ h _ _ => h).catchThrown.before fun _ => .endCall
  obtain ⟨hgrows, -, hwritten⟩ :=
    hclears.written_before (fun _ _ => hfree) hmade (h.congr hinvoke)
  refine ⟨hgrows.isSome_bindingIn? (Option.isSome_iff_exists.mpr ⟨b, hown⟩), ?_⟩
  by_cases hkept : q.bound m₁ = q.bound m₀
  · exact .inl (hkept.trans hown)
  · rcases hwritten hkept with hwritten | ⟨_, _, hhoists⟩
    · exact .inr (.inr (hwritten.writesName.congr fun ev => (hinvoke ev).symm))
    · exact .inr (.inl hhoists)

/-- **An older binding of the name** is changed in a call only by what is done outside its scope. -/
theorem Machine.Closed.written_outside (hm : m.Closed)
    (hid : m.heap.body? id = some (.closure c)) (hthis : Within m.world this)
    (hargs : Within m.world args) (hb : m.callBinding? id c = some b) {g : ScopeId}
    (hlocal : g ≠ Scopes.globalId) (hg : g < m.scopes.size)
    (hne : (((Evaluator.bounded fuel).invoke id c this args line).after m).scopes.bindingIn?
      c.name g ≠ m.scopes.bindingIn? c.name g) :
    ∃ (β : Type) (v : Work β) (k : Nat) (m₁ : Machine) (σ : ScopeId),
      Nested (fun ev => ev.invoke id c this args line) fuel m v k m₁ ∧
      (v.Assigns σ c.name ∨ v.Declares σ c.name) ∧ ¬ m₁.Inside m.scopes.size σ := by
  let q := (Ward.bypassing g c.name hlocal).opened
  have hfree : q.IsFree := Ward.isFree_opened _
  have hclears : (q.watch fuel).Clears m (fun ev => ev.invoke id c this args line) Whatever :=
    .invoke hfree hid
  have hfrom : (q.watch fuel).From m m := ⟨.refl m, hg⟩
  obtain ⟨Q, hx⟩ := hm.action_invoke hid hthis hargs
  obtain hwritten | ⟨_, _, hwrites⟩ :=
    hclears.written (fun _ _ => hfree) hfrom (hclears.changes hfrom hne)
  · cases hwritten.writesName with
    | declared h hv =>
      obtain ⟨hm₁, -, -⟩ := h.leads hx hm
      exact ⟨_, _, _, _, g, h, .inr hv, fun hin => absurd (hin.le hm₁.tree) hg.not_ge⟩
    | @assigned β v k m₁ m₂ σ h hv hgrows hbinder =>
      obtain ⟨hm₁, -, -⟩ := h.leads hx hm
      refine ⟨_, _, _, _, σ, h, .inl hv, fun hin => absurd ?_ hg.not_ge⟩
      have hchain := hgrows.chain_eq hm₁.tree hin.lt_size
      refine Scopes.le_of_binder hbinder ?_ ?_
        (hgrows.isSome_bindingIn? (h.callBinding hm hid hb).1)
      · rw [hchain]
        exact (hm₁.tree.chain_outward hin.lt_size).2.1
      · rw [hchain]
        exact hin.mem_chain hm₁.tree
  · exact hwrites.elim

end

/-! ## What the name means -/

/-- A name that is found has the value of its binding. -/
theorem Exec.valueOf_of_lookup {b : Binding} (h : m.scopes.lookup? σ name = some b) :
    valueOf σ name line m = .ok b.value m := by
  have hvalue : valueOf? σ name m = .ok (some b.value) m := by
    change EStateM.Result.ok
      ((m.scopes.lookup? σ name).map Binding.value <|> globalValue? name) m = _
    rw [h]
    rfl
  exact bind_of_ok hvalue

/-- The name of a function is bound if nothing around has it. -/
theorem Machine.callBinding?_of_free (harrow : c.definition.isArrow = false) (hname : c.name ≠ "")
    (hfree : m.scopes.lookup? c.scope c.name = none) :
    m.callBinding? id c = some ⟨.object id, .function⟩ := by
  simp [callBinding?, harrow, hname, hfree]

/-- **A function knows itself by its name** in every call of it, if no scope around its definition
binds the name at that time.  From inside the scope of the call the name means the function, unless
a scope in between binds it, a `var` or a function of the body has it, or the binding was written
to.  What is assigned to it from there is not seen outside, and what it means in older scopes is
changed only by what is done outside, the global scope apart. -/
theorem own_name_means_function (hm : m.Closed) (hid : m.heap.body? id = some (.closure c))
    (harrow : c.definition.isArrow = false) (hname : c.name ≠ "")
    (hfree : m.scopes.lookup? c.scope c.name = none) (hthis : Within m.world this)
    (hargs : Within m.world args) :
    (∀ {β : Type} {v : Work β} {k : Nat} {m₁ : Machine} {σ : ScopeId},
      Nested (fun ev => ev.invoke id c this args line) fuel m v k m₁ →
      m₁.Inside m.scopes.size σ →
        ((∀ ev p, Evaluator.evalExpr ev σ (.mk (.name c.name) p) m₁ = .ok (.object id) m₁) ∨
          (∃ owner, m₁.scopes.binder? σ c.name = some owner ∧ owner ≠ m.scopes.size ∧
            m₁.Inside m.scopes.size owner) ∨
          c.definition.body.Hoists c.name ∨
          WritesName m.scopes.size c.name (fun ev => ev.invoke id c this args line) fuel m) ∧
        ∀ x line' σ', σ' < m₁.scopes.size → ¬ m₁.Inside m.scopes.size σ' →
          ∀ y, ((Exec.assign σ c.name x line').after m₁).scopes.lookup? σ' y =
            m₁.scopes.lookup? σ' y) ∧
    ∀ g, g ≠ Scopes.globalId → g < m.scopes.size →
      (((Evaluator.bounded fuel).invoke id c this args line).after m).scopes.bindingIn? c.name g ≠
        m.scopes.bindingIn? c.name g →
      ∃ (β : Type) (v : Work β) (k : Nat) (m₁ : Machine) (σ : ScopeId),
        Nested (fun ev => ev.invoke id c this args line) fuel m v k m₁ ∧
        (v.Assigns σ c.name ∨ v.Declares σ c.name) ∧ ¬ m₁.Inside m.scopes.size σ := by
  have hb : m.callBinding? id c = some ⟨.object id, .function⟩ :=
    Machine.callBinding?_of_free harrow hname hfree
  refine ⟨fun {β v k m₁ σ} h hσ => ?_, fun g hlocal hg hne =>
    hm.written_outside hid hthis hargs hb hlocal hg hne⟩
  obtain ⟨Q, hx⟩ := hm.action_invoke hid hthis hargs
  obtain ⟨hm₁, -, -⟩ := h.leads hx hm
  obtain ⟨hbound, hkept⟩ := h.callBinding hm hid hb
  refine ⟨?_, fun x line' σ' => hσ.lookup?_assign hm₁.tree hbound x⟩
  obtain ⟨owner, howner, hin⟩ := hσ.binder hm₁.tree hbound
  by_cases hself : owner = m.scopes.size
  · subst hself
    refine hkept.imp (fun hkept ev p => ?_) .inr
    exact Exec.valueOf_of_lookup ((Scopes.lookup?_of_binder howner).trans hkept)
  · exact .inr (.inl ⟨owner, howner, hself, hin⟩)

/-- The statement `return f;`. -/
def returnSelf : Syntax.Stmt := .mk (.return (some (.mk (.name "f") ⟨1, 1⟩))) ⟨1, 1⟩ ""

/-- A function `f` with this body. -/
def selfReturning : Syntax.Function := .mk (some "f") [] none (.block [returnSelf]) false ⟨1, 1⟩

/-- A call of it comes to its only statement in the scope of the call. -/
theorem selfReturning_means_itself :
    let m := (Exec.makeClosure Scopes.globalId selfReturning "").after (.initial .default)
    let call := fun ev : Evaluator => ev.invoke 0 ⟨"f", selfReturning, 0⟩ .undefined [] 1
    ∃ m₁, Nested call 1 m (.statement 1 none returnSelf) 1 m₁ ∧
      ((∀ ev p, Evaluator.evalExpr ev 1 (.mk (.name "f") p) m₁ = .ok (.object 0) m₁) ∨
        (∃ owner, m₁.scopes.binder? 1 "f" = some owner ∧ owner ≠ 1 ∧ m₁.Inside 1 owner) ∨
        selfReturning.body.Hoists "f" ∨ WritesName 1 "f" call 1 m) := by
  intro m call
  have hm : m.Closed := (Action.leads_made (.makeClosure sees_global) (.initial .default) rfl).1
  obtain ⟨m₁, hsize, hcall⟩ : ∃ m₁ : Machine, m₁.scopes.size = 2 ∧
      Begins call (.bounded 1) m (.statement 1 none returnSelf) m₁ :=
    ⟨_, by rfl, .behind .const (Exec.tick_of_lt (by decide)) <| .behind .const rfl <|
      .behind .const (Exec.pushFrame_of_lt (by decide)) <| .behind .const rfl <|
      .behind .const rfl <| .bind <| .catchThrown <|
      .behind (.followedBy (.bind .const fun _ => .const)) rfl <| .behind .const rfl <|
      .bind (.bind .run)⟩
  have hnested : Nested call 1 m (.statement 1 none returnSelf) 1 m₁ := .asked hcall.asks
  have hinside : m₁.Inside 1 1 := .self (hsize ▸ Nat.one_lt_two)
  exact ⟨m₁, hnested, ((own_name_means_function hm rfl rfl (by decide) rfl within_undefined
    within_nil).1 hnested hinside).1⟩

/-- A program with a variable of the name of a function. -/
def outerNameUse : String :=
  "let f = \"outer\"; const g = function f() \x7b return f \x7d; console.log(g() === g)"

/-- The same program without the variable. -/
def ownNameUse : String := "const g = function f() \x7b return f \x7d; console.log(g() === g)"

/-- **A named function does not know itself** where a variable around it has its name. -/
theorem outerNameUse_misses_itself :
    ((run .default ownNameUse).consoleTexts, (run .default ownNameUse).error) = (["true"], none) ∧
    ((run .default outerNameUse).consoleTexts, (run .default outerNameUse).error) =
      (["false"], none) := ⟨by decide +kernel, by decide +kernel⟩

end ScriptTrace
