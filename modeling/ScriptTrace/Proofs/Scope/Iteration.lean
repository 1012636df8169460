import ScriptTrace.Proofs.Scope.Holder

/-!
# Proofs/Scope/Iteration — the scopes of the rounds of a counting loop

A loop over lexical names runs each of its bodies in a scope of its own, copied from that of the
round before when its body has ended.  Outside the bodies nothing is written to the scopes of
earlier rounds, and in the bodies only functions write there that hold them.
-/

namespace ScriptTrace

open Syntax (Expr Stmt StmtNode Declarator DeclarationKind ForStart Node)

/-- A result is computed without a trace. -/
theorem Exec.after_bind_pure {α β : Type} {x : Exec α} {f : α → β} {m : Machine} :
    (x >>= fun a => pure (f a)).after m = x.after m := by
  cases h : x m with
  | ok a m' =>
    rw [after_bind_of_ok h, after_of_ok h]
    rfl
  | error g m' => rw [after_bind_of_error h, after_of_error h]

/-! ## Rounds -/

namespace Evaluator

variable (ev : Evaluator)

/-- Begins a round of a counting loop, and tells whether its body runs. -/
def beginRound (scope : ScopeId) (loop : CountingLoop) : Exec Bool := do
  Exec.tick
  Exec.enter scope
  ev.countingTest scope loop

/-- Goes on to the next round of a counting loop; the result is its scope. -/
def nextRound (scope : ScopeId) (loop : CountingLoop) : Exec ScopeId := do
  let next ← nextScope scope loop.isFresh
  ev.countingUpdate next loop
  return next

/-- A counting loop begins a round, executes its body, and goes on to the next round. -/
theorem execCounting_eq (scope : ScopeId) (loop : CountingLoop) :
    ev.execCounting scope loop = (do
      if !(← ev.beginRound scope loop) then return .normal
      match loopEnd? loop.label (← ev.statement scope loop.body) with
      | some c => return c
      | none => ev.run (.forLoop (← ev.nextRound scope loop) loop)) := by
  unfold execCounting beginRound
  rw [bind_assoc]
  refine bind_congr fun _ => ?_
  rw [bind_assoc]
  refine bind_congr fun _ => bind_congr fun runs => ?_
  cases runs with
  | false => rfl
  | true =>
    refine bind_congr fun c => ?_
    cases loopEnd? loop.label c with
    | some c => rfl
    | none => simp only [nextRound, bind_assoc, pure_bind]

/-- Begins a counting loop: the results are the scope of its first round, and whether every round
has its own. -/
def startLoop (scope : ScopeId) (start : Option ForStart) (line : Nat) : Exec (ScopeId × Bool) := do
  Exec.tick
  Exec.enter scope
  let outer ← Exec.innerScope scope .loop
  let isFresh ← ev.execStart outer start line
  return (← nextScope outer isFresh, isFresh)

end Evaluator

/-- **A round of a counting loop**: the scope and the fuel of its body, and the machines in which
the body begins and ends. -/
structure Round where
  scope : ScopeId
  fuel : Nat
  begun : Machine
  ended : Machine

/-- **The rounds of a counting loop** whose bodies run, in their order. -/
def CountingLoop.rounds (loop : CountingLoop) : Nat → ScopeId → Machine → List Round
  | 0, _, _ => []
  | k + 1, scope, m =>
    match (Evaluator.bounded k).beginRound scope loop m with
    | .ok true begun =>
      match (Evaluator.bounded k).statement scope loop.body begun with
      | .ok c ended =>
        ⟨scope, k, begun, ended⟩ ::
          match loopEnd? loop.label c with
          | some _ => []
          | none =>
            match (Evaluator.bounded k).nextRound scope loop ended with
            | .ok next m' => loop.rounds k next m'
            | .error _ _ => []
      | .error _ ended => [⟨scope, k, begun, ended⟩]
    | _ => []

/-- The course of a counting loop, with its rounds and the machine that it leaves. -/
inductive CountingLoop.Course (loop : CountingLoop) :
    Nat → ScopeId → Machine → List Round → Machine → Prop
  | exhausted {scope : ScopeId} {m : Machine} : Course loop 0 scope m [] m
  | refused {k : Nat} {scope : ScopeId} {m : Machine} :
    Course loop (k + 1) scope m [] (((Evaluator.bounded k).beginRound scope loop).after m)
  | last {k : Nat} {scope : ScopeId} {m begun : Machine}
    (hbegin : (Evaluator.bounded k).beginRound scope loop m = .ok true begun) :
    Course loop (k + 1) scope m
      [⟨scope, k, begun, ((Work.statement scope none loop.body).exec k).after begun⟩]
      (((Work.statement scope none loop.body).exec k).after begun)
  | stopped {k : Nat} {scope : ScopeId} {m begun ended : Machine} {c : Completion}
    (hbegin : (Evaluator.bounded k).beginRound scope loop m = .ok true begun)
    (hbody : (Work.statement scope none loop.body).exec k begun = .ok c ended) :
    Course loop (k + 1) scope m [⟨scope, k, begun, ended⟩]
      (((Evaluator.bounded k).nextRound scope loop).after ended)
  | next {k : Nat} {scope next : ScopeId} {m begun ended m' last : Machine} {c : Completion}
    {rounds : List Round}
    (hbegin : (Evaluator.bounded k).beginRound scope loop m = .ok true begun)
    (hbody : (Work.statement scope none loop.body).exec k begun = .ok c ended)
    (hnext : (Evaluator.bounded k).nextRound scope loop ended = .ok next m')
    (h : Course loop k next m' rounds last) :
    Course loop (k + 1) scope m (⟨scope, k, begun, ended⟩ :: rounds) last

namespace CountingLoop

variable {loop : CountingLoop}

/-- **The rounds are those of the execution.** -/
theorem course (loop : CountingLoop) : ∀ (k : Nat) (scope : ScopeId) (m : Machine),
    loop.Course k scope m (loop.rounds k scope m) (((Work.forLoop scope loop).exec k).after m)
  | 0, _, _ => .exhausted
  | k + 1, scope, m => by
    change loop.Course (k + 1) scope m _ (((Evaluator.bounded k).execCounting scope loop).after m)
    rw [Evaluator.execCounting_eq, rounds]
    cases hbegin : (Evaluator.bounded k).beginRound scope loop m with
    | error f m₁ =>
      rw [Exec.after_bind_of_error hbegin, ← Exec.after_of_error hbegin]
      exact .refused
    | ok passed begun =>
      rw [Exec.after_bind_of_ok hbegin]
      cases passed with
      | false =>
        have hrefused := @Course.refused loop k scope m
        rwa [Exec.after_of_ok hbegin] at hrefused
      | true =>
        have hlast := Course.last hbegin
        cases hbody : (Work.statement scope none loop.body).exec k begun with
        | error f ended =>
          have hstatement : (Evaluator.bounded k).statement scope loop.body begun =
              .error f ended := hbody
          simp only [Bool.not_true, Bool.false_eq_true, if_false]
          rw [Exec.after_bind_of_error hstatement]
          simp only [hstatement]
          rwa [Exec.after_of_error hbody] at hlast
        | ok c ended =>
          have hstatement : (Evaluator.bounded k).statement scope loop.body begun =
              .ok c ended := hbody
          simp only [Bool.not_true, Bool.false_eq_true, if_false]
          rw [Exec.after_bind_of_ok hstatement]
          simp only [hstatement]
          cases hend : loopEnd? loop.label c with
          | some c => rwa [Exec.after_of_ok hbody] at hlast
          | none =>
            have hstopped := Course.stopped hbegin hbody
            cases hnext : (Evaluator.bounded k).nextRound scope loop ended with
            | error f m₁ =>
              rw [Exec.after_of_error hnext] at hstopped
              simpa only [Exec.after_bind_of_error hnext] using hstopped
            | ok next m' =>
              simp only [Exec.after_bind_of_ok hnext]
              exact .next hbegin hbody hnext (loop.course k next m')

end CountingLoop

/-! ## Where a loop goes on -/

/-- A scope directly inside another one, in a closed machine. -/
structure Machine.Stands (m : Machine) (parent scope : ScopeId) : Prop where
  closed : m.Closed
  made : ∃ r, m.scopes[scope]? = some r ∧ r.parent = some parent

namespace Machine.Stands

variable {m m' : Machine} {parent scope s : ScopeId}

/-- What stands in a scope stands there later on. -/
theorem later (h : m.Stands parent scope) (hc : m'.Closed) (hg : m.Grows m') :
    m'.Stands parent scope := by
  obtain ⟨r, hr, hp⟩ := h.made
  obtain ⟨r', hr', hlater⟩ := hg.scope hr
  exact ⟨hc, r', hr', hlater.parent.trans hp⟩

theorem lt_size (h : m.Stands parent scope) : scope < m.scopes.size := by
  obtain ⟨r, hr, -⟩ := h.made
  exact (Array.getElem?_eq_some_iff.mp hr).1

theorem parent_lt (h : m.Stands parent scope) : parent < scope := by
  obtain ⟨r, hr, hp⟩ := h.made
  exact (h.closed.tree.parent_lt hr hp).1

theorem mem_world (h : m.Stands parent scope) : .scope scope ∈ m.world :=
  ⟨(Nat.zero_lt_of_lt h.parent_lt).ne', h.lt_size⟩

theorem sees (h : m.Stands parent scope) : Sees m.world scope := h.closed.sees_iff.mpr h.lt_size

/-- From the scope of a round the way outward goes by its parent. -/
theorem chain_eq (h : m.Stands parent scope) :
    m.scopes.chain scope = scope :: m.scopes.chain parent := by
  obtain ⟨r, hr, hp⟩ := h.made
  rw [h.closed.tree.chain_eq hr, hp, Option.elim_some]

/-- The way outward passes older scopes than its parent only. -/
theorem not_mem_chain (h : m.Stands parent scope) (hs : s ≠ scope) (hp : parent < s) :
    s ∉ m.scopes.chain scope := by
  intro hmem
  rw [h.chain_eq] at hmem
  have hmem := (List.mem_cons.mp hmem).resolve_left hs
  have hle := (h.closed.tree.chain_outward (h.parent_lt.trans h.lt_size)).2.2 s hmem
  exact absurd hp hle.not_gt

theorem bypasses (h : m.Stands parent scope) (hs : scope ≠ s) (hp : parent < s) :
    m.Bypasses s scope := by
  obtain ⟨r, hr, hparent⟩ := h.made
  exact .inside hr hparent hs (.of_lt h.closed.tree (h.parent_lt.trans h.lt_size) hp)

end Machine.Stands

/-- Work without calls, in one scope. -/
def Ward.within (scope s : ScopeId) (name : String) (h : s ≠ Scopes.globalId) : Ward where
  scope := s
  name := name
  local_scope := h
  Region _ σ := σ = scope
  Parts node := ¬ node.IsCall
  later _ := id

/-- **What calls nothing changes nothing** but on the way outward. -/
theorem Machine.Stands.quiet {m : Machine} {parent scope s : ScopeId} {k : Nat} {α : Type}
    {x : Evaluator → Exec α} {Q : World → α → Prop} (h : m.Stands parent scope)
    (hx : Action .loop m.world x Q) (hs : s ≠ scope) (hp : parent < s)
    (hsize : s < m.scopes.size)
    (hclears : ∀ q : Ward, q.Region m scope → (∀ node, q.Parts node ↔ ¬ node.IsCall) →
      (q.watch k).Clears m x Whatever) (name : String) :
    ((x (.bounded k)).after m).scopes.bindingIn? name s = m.scopes.bindingIn? name s := by
  have hlocal : s ≠ Scopes.globalId := (Nat.zero_lt_of_lt hp).ne'
  let q := Ward.within scope s name hlocal
  by_contra hne
  have hcalls : q.Calls := fun hcall hpart => absurd hcall hpart
  obtain ⟨hv, hallows, hassigns, hgrows, hbinder⟩ :=
    (hclears q rfl fun _ => Iff.rfl).assignedIn hcalls (fun hσ => hσ.trans_ne hs.symm)
      ⟨.refl m, hsize⟩ hne
  rename_i v k₁ m₁ m₂ σ
  have hregion : σ = scope := by
    cases v with
    | expr | bind =>
      obtain ⟨rfl, -⟩ := hassigns
      exact hallows.1
    | _ => exact hassigns.elim
  subst hregion
  obtain ⟨-, hgrows₁, -⟩ := hv.leads hx h.closed
  have hchain := Scopes.mem_chain_of_binder hbinder
  rw [(hgrows₁.trans hgrows).chain_eq h.closed.tree h.lt_size] at hchain
  exact h.not_mem_chain hs hp hchain

/-! ## From round to round -/

namespace Action

variable {W : World} {scope : ScopeId} {loop : CountingLoop}

theorem beginRound (h : Sees W scope) :
    Action .loop W (fun ev => ev.beginRound scope loop) Free :=
  .seq (.elementary .tick) fun _ _ => .seq (.enter h) fun _ _ => countingTest h

theorem nextRound (h : .scope scope ∈ W) :
    Action .loop W (fun ev => ev.nextRound scope loop) fun W' next => .scope next ∈ W' :=
  .bind (nextScope h) fun _ _ _ hnext =>
    .bind (countingUpdate (sees_of_mem hnext)) fun _ hW _ _ => .pure (hW hnext)

end Action

/-- Test and update call nothing. -/
structure CountingLoop.CallFree (loop : CountingLoop) : Prop where
  test : ∀ node ∈ Syntax.optionExprNodes loop.test, ¬ node.IsCall
  update : ∀ node ∈ Syntax.optionExprNodes loop.update, ¬ node.IsCall

/-- The machine with a copy of a scope. -/
def Machine.copied (m : Machine) (scope : ScopeId) : Machine :=
  { m with scopes := m.scopes.push (m.scopes.getD scope default) }

theorem Machine.copied_eq {m : Machine} {scope : ScopeId} {s : Scope}
    (h : m.scopes[scope]? = some s) :
    m.copied scope = { m with scopes := m.scopes.push s } := by
  rw [copied, Array.getD_eq_getD_getElem?, h, Option.getD_some]

namespace Evaluator

variable {ev : Evaluator} {loop : CountingLoop} {scope : ScopeId} {m : Machine}

/-- A loop with its own variables goes on in a copy of its scope. -/
theorem nextRound_of_fresh (h : loop.isFresh = true) :
    ev.nextRound scope loop m =
      (ev.countingUpdate m.scopes.size loop >>= fun _ => pure m.scopes.size) (m.copied scope) := by
  rw [nextRound, nextScope, h]
  rfl

/-- A loop without variables of its own goes on in the same scope. -/
theorem nextRound_of_shared (h : loop.isFresh = false) :
    ev.nextRound scope loop m = (ev.countingUpdate scope loop >>= fun _ => pure scope) m := by
  rw [nextRound, nextScope, h]
  rfl

end Evaluator

namespace Machine.Stands

variable {m m' : Machine} {parent scope next s : ScopeId} {k : Nat} {loop : CountingLoop}

theorem begins (h : m.Stands parent scope) {b : Bool}
    (hbegin : (Evaluator.bounded k).beginRound scope loop m = .ok b m') :
    m'.Stands parent scope ∧ m.Grows m' := by
  obtain ⟨hc, hg⟩ := (Action.beginRound h.sees).leads_ok h.closed hbegin
  exact ⟨h.later hc hg, hg⟩

theorem body_fits (h : m.Stands parent scope) {label : Option String} {st : Stmt} :
    (Work.statement scope label st).Fits .loop m.world :=
  ⟨inferInstance, inferInstance, h.sees⟩

theorem ends (h : m.Stands parent scope) {label : Option String} {st : Stmt} {c : Completion}
    (hbody : (Work.statement scope label st).exec k m = .ok c m') :
    m'.Stands parent scope ∧ m.Grows m' := by
  obtain ⟨hc, hg⟩ := (Action.eval h.body_fits).leads_ok h.closed hbody
  exact ⟨h.later hc hg, hg⟩

/-- A copy stands where the scope stands. -/
theorem copied (h : m.Stands parent scope) :
    (m.copied scope).Stands parent m.scopes.size ∧ m.Grows (m.copied scope) := by
  obtain ⟨r, hr, hp⟩ := h.made
  have hcopy : Action .loop m.world (fun _ => Exec.copyScope scope) fun W' id => .scope id ∈ W' :=
    .copyScope h.mem_world
  obtain ⟨hc, hg⟩ := hcopy.leads h.closed 0
  refine ⟨⟨hc, r, ?_, hp⟩, hg⟩
  rw [Machine.copied_eq hr]
  exact Array.getElem?_push_size

/-- The next round has its own scope. -/
theorem next_fresh (h : m.Stands parent scope) (hfresh : loop.isFresh = true)
    (hnext : (Evaluator.bounded k).nextRound scope loop m = .ok next m') :
    next = m.scopes.size ∧ m'.Stands parent next ∧ m.Grows m' ∧
      (Evaluator.bounded k).countingUpdate next loop (m.copied scope) = .ok () m' := by
  obtain ⟨hc, hg⟩ := (Action.nextRound h.mem_world).leads_ok h.closed hnext
  rw [Evaluator.nextRound_of_fresh hfresh] at hnext
  obtain ⟨_, m₁, hupdate, hm₁⟩ := Exec.bind_eq_ok hnext
  cases hm₁
  obtain ⟨hcopied, -⟩ := h.copied
  obtain ⟨-, hg'⟩ := (Action.countingUpdate hcopied.sees).leads_ok hcopied.closed hupdate
  exact ⟨rfl, hcopied.later hc hg', hg, hupdate⟩

/-- The next round has the same scope. -/
theorem next_shared (h : m.Stands parent scope) (hshared : loop.isFresh = false)
    (hnext : (Evaluator.bounded k).nextRound scope loop m = .ok next m') :
    next = scope ∧ m'.Stands parent scope ∧ m.Grows m' := by
  obtain ⟨hc, hg⟩ := (Action.nextRound h.mem_world).leads_ok h.closed hnext
  rw [Evaluator.nextRound_of_shared hshared] at hnext
  obtain ⟨_, m₁, -, hm₁⟩ := Exec.bind_eq_ok hnext
  cases hm₁
  exact ⟨rfl, h.later hc hg, hg⟩

/-- Tests leave other scopes alone. -/
theorem begin_quiet (h : m.Stands parent scope) (hfree : loop.CallFree) (hs : s ≠ scope)
    (hp : parent < s) (hsize : s < m.scopes.size) (name : String) :
    (((Evaluator.bounded k).beginRound scope loop).after m).scopes.bindingIn? name s =
      m.scopes.bindingIn? name s := by
  refine h.quiet (Action.beginRound h.sees) hs hp hsize (fun q hregion hparts => ?_) name
  have htest : q.Permits (Syntax.optionExprNodes loop.test) :=
    fun node hnode => (hparts node).mpr (hfree.test node hnode)
  exact Watch.Clears.tick.before fun _ => Watch.Clears.enter.before fun _ =>
    .countingTest hregion htest

/-- Without calls a round leaves the scopes before it alone when it begins. -/
theorem begins_quiet (h : m.Stands parent scope) (hfree : loop.CallFree) (hs : s ≠ scope)
    (hp : parent < s) (hsize : s < m.scopes.size) {b : Bool}
    (hbegin : (Evaluator.bounded k).beginRound scope loop m = .ok b m') (name : String) :
    m'.scopes.bindingIn? name s = m.scopes.bindingIn? name s := by
  rw [← h.begin_quiet hfree hs hp hsize name, Exec.after_of_ok hbegin]

/-- Copies and updates leave older scopes alone. -/
theorem next_quiet (h : m.Stands parent scope) (hfresh : loop.isFresh = true)
    (hfree : loop.CallFree) (hp : parent < s) (hsize : s < m.scopes.size) (name : String) :
    (((Evaluator.bounded k).nextRound scope loop).after m).scopes.bindingIn? name s =
      m.scopes.bindingIn? name s := by
  obtain ⟨hcopied, hg⟩ := h.copied
  have hupdate : Action .loop (m.copied scope).world
      (fun ev => ev.countingUpdate m.scopes.size loop >>= fun _ => pure m.scopes.size) Free :=
    .bind (.countingUpdate hcopied.sees) fun _ _ _ _ => .pure trivial
  rw [Exec.after_congr (Evaluator.nextRound_of_fresh hfresh)]
  refine (hcopied.quiet hupdate hsize.ne hp (hsize.trans_le hg.size_le) ?_ name).trans ?_
  · intro q hregion hparts
    have hpermits : q.Permits (Syntax.optionExprNodes loop.update) :=
      fun node hnode => (hparts node).mpr (hfree.update node hnode)
    exact (Watch.Clears.countingUpdate hregion hpermits).before fun _ => .done
  · exact Scopes.bindingIn?_push hsize

/-- Without calls the next round leaves the scopes before it alone. -/
theorem nexts_quiet (h : m.Stands parent scope) (hfresh : loop.isFresh = true)
    (hfree : loop.CallFree) (hp : parent < s) (hsize : s < m.scopes.size)
    (hnext : (Evaluator.bounded k).nextRound scope loop m = .ok next m') (name : String) :
    m'.scopes.bindingIn? name s = m.scopes.bindingIn? name s := by
  rw [← h.next_quiet hfresh hfree hp hsize name, Exec.after_of_ok hnext]

end Machine.Stands

/-! ## The whole course -/

namespace Round

/-- **What is the same between the bodies** of rounds: at the end of each body and at the beginning
of the next one, and at both ends of the loop. -/
def Between {β : Type} (f : Machine → β) : Machine → List Round → Machine → Prop
  | m, [], last => f last = f m
  | m, r :: rounds, last => f r.begun = f m ∧ Between f r.ended rounds last

theorem Between.from {β : Type} {f : Machine → β} {m m' last : Machine} {rounds : List Round}
    (h : Between f m rounds last) (heq : f m = f m') : Between f m' rounds last := by
  cases rounds with
  | nil => exact Eq.trans h heq
  | cons r rounds => exact ⟨h.1.trans heq, h.2⟩

/-- What is the same between the bodies and in them is the same at the end. -/
theorem Between.eq {β : Type} {f : Machine → β} {m last : Machine} {rounds : List Round}
    (h : Between f m rounds last) (hbodies : ∀ r ∈ rounds, f r.ended = f r.begun) :
    f last = f m := by
  induction rounds generalizing m with
  | nil => exact h
  | cons r rounds ih =>
    obtain ⟨hr, hbodies⟩ := List.forall_mem_cons.mp hbodies
    exact (ih h.2 hbodies).trans (hr.trans h.1)

/-- **From one round to the next**, with a scope for each: the scope is made when the body has
ended, with the bindings and the parent that the scope of the body has then; there the loop is
updated and tested. -/
structure LeadsTo (loop : CountingLoop) (parent : ScopeId) (r r' : Round) : Prop where
  fuel : r.fuel = r'.fuel + 1
  fresh : r'.scope = r.ended.scopes.size
  copy : ∃ s m', r.ended.scopes[r.scope]? = some s ∧ s.parent = some parent ∧
    (Evaluator.bounded r.fuel).countingUpdate r'.scope loop
      { r.ended with scopes := r.ended.scopes.push s } = .ok () m' ∧
    (Evaluator.bounded r'.fuel).beginRound r'.scope loop m' = .ok true r'.begun

/-- **Behind the last round**: the loop ends with its body, or goes on to a scope of its own as if
to a next round. -/
inductive Ends (loop : CountingLoop) (parent : ScopeId) (r : Round) (last : Machine) : Prop
  | body (h : last = r.ended)
  | update {s : Scope} (hs : r.ended.scopes[r.scope]? = some s) (hp : s.parent = some parent)
    (h : last = ((Evaluator.bounded r.fuel).countingUpdate r.ended.scopes.size loop).after
      { r.ended with scopes := r.ended.scopes.push s })
  | test {s : Scope} {m' : Machine} {k : Nat} (hs : r.ended.scopes[r.scope]? = some s)
    (hp : s.parent = some parent) (hfuel : r.fuel = k + 1)
    (hupdate : (Evaluator.bounded r.fuel).countingUpdate r.ended.scopes.size loop
      { r.ended with scopes := r.ended.scopes.push s } = .ok () m')
    (h : last = ((Evaluator.bounded k).beginRound r.ended.scopes.size loop).after m')

end Round

namespace CountingLoop.Course

variable {loop : CountingLoop} {k : Nat} {parent scope : ScopeId} {m last : Machine}
  {rounds : List Round}

/-- From its first round to its end a loop takes nothing back. -/
theorem grows (h : loop.Course k scope m rounds last) (hm : m.Stands parent scope) :
    m.Grows last := by
  induction h with
  | exhausted => exact .refl _
  | refused => exact ((Action.beginRound hm.sees).leads hm.closed _).2
  | last hbegin => exact (hm.begins hbegin).2.trans (Work.grows ..)
  | stopped hbegin hbody =>
    obtain ⟨hbegun, hg⟩ := hm.begins hbegin
    obtain ⟨hended, hg'⟩ := hbegun.ends hbody
    exact hg.trans (hg'.trans ((Action.nextRound hended.mem_world).leads hended.closed _).2)
  | next hbegin hbody hnext h ih =>
    obtain ⟨hbegun, hg⟩ := hm.begins hbegin
    obtain ⟨hended, hg'⟩ := hbegun.ends hbody
    cases hfresh : loop.isFresh with
    | true =>
      obtain ⟨-, hm', hg'', -⟩ := hended.next_fresh hfresh hnext
      exact hg.trans (hg'.trans (hg''.trans (ih hm')))
    | false =>
      obtain ⟨rfl, hm', hg''⟩ := hended.next_shared hfresh hnext
      exact hg.trans (hg'.trans (hg''.trans (ih hm')))

/-- The first of the rounds. -/
theorem head {r : Round} (h : loop.Course k scope m (r :: rounds) last) :
    k = r.fuel + 1 ∧ r.scope = scope ∧
      (Evaluator.bounded r.fuel).beginRound scope loop m = .ok true r.begun := by
  cases h with
  | last hbegin | stopped hbegin | next hbegin => exact ⟨rfl, rfl, hbegin⟩

/-- In each round the body runs from its beginning to its end. -/
theorem bodies (h : loop.Course k scope m rounds last) : ∀ r ∈ rounds,
    r.ended = ((Work.statement r.scope none loop.body).exec r.fuel).after r.begun := by
  induction h with
  | exhausted | refused => exact fun _ hr => absurd hr List.not_mem_nil
  | last => exact List.forall_mem_singleton.mpr rfl
  | stopped _ hbody => exact List.forall_mem_singleton.mpr (Exec.after_of_ok hbody).symm
  | next _ hbody _ _ ih => exact List.forall_mem_cons.mpr ⟨(Exec.after_of_ok hbody).symm, ih⟩

/-- Without scopes of their own, all rounds share one. -/
theorem shared (h : loop.Course k scope m rounds last) (hm : m.Stands parent scope)
    (hshared : loop.isFresh = false) :
    ∀ r ∈ rounds, r.scope = scope ∧ r.begun.Stands parent scope ∧ m.Grows r.begun := by
  induction h with
  | exhausted | refused => exact fun _ hr => absurd hr List.not_mem_nil
  | last hbegin | stopped hbegin =>
    exact List.forall_mem_singleton.mpr ⟨rfl, hm.begins hbegin⟩
  | next hbegin hbody hnext _ ih =>
    obtain ⟨hbegun, hg⟩ := hm.begins hbegin
    obtain ⟨hended, hg'⟩ := hbegun.ends hbody
    obtain ⟨rfl, hm', hg''⟩ := hended.next_shared hshared hnext
    refine List.forall_mem_cons.mpr ⟨⟨rfl, hbegun, hg⟩, fun r hr => ?_⟩
    obtain ⟨hscope, hstands, hgr⟩ := ih hm' r hr
    exact ⟨hscope, hstands, hg.trans (hg'.trans (hg''.trans hgr))⟩

section

variable (hfresh : loop.isFresh = true)

include hfresh

/-- **Every round has a scope of its own**, younger than those before. -/
theorem fresh (h : loop.Course k scope m rounds last) (hm : m.Stands parent scope) :
    (∀ r ∈ rounds, scope ≤ r.scope ∧ r.scope < last.scopes.size) ∧
      (rounds.map Round.scope).Pairwise (· < ·) := by
  induction h with
  | exhausted | refused => exact ⟨fun _ hr => absurd hr List.not_mem_nil, .nil⟩
  | last hbegin =>
    have hsize := (hm.begins hbegin).1.lt_size
    exact ⟨List.forall_mem_singleton.mpr ⟨le_rfl, hsize.trans_le (Work.grows ..).size_le⟩,
      List.pairwise_singleton _ _⟩
  | stopped hbegin hbody =>
    obtain ⟨hended, -⟩ := (hm.begins hbegin).1.ends hbody
    refine ⟨List.forall_mem_singleton.mpr ⟨le_rfl, ?_⟩, List.pairwise_singleton _ _⟩
    exact hended.lt_size.trans_le
      ((Action.nextRound hended.mem_world).leads hended.closed _).2.size_le
  | next hbegin hbody hnext h ih =>
    obtain ⟨hended, -⟩ := (hm.begins hbegin).1.ends hbody
    obtain ⟨rfl, hm', hg, -⟩ := hended.next_fresh hfresh hnext
    obtain ⟨hrounds, hpairwise⟩ := ih hm'
    have hsize := hended.lt_size.trans_le (hg.trans (h.grows hm')).size_le
    refine ⟨List.forall_mem_cons.mpr ⟨⟨le_rfl, hsize⟩, fun r hr => ?_⟩,
      List.pairwise_cons.mpr ⟨fun σ hσ => ?_, hpairwise⟩⟩
    · obtain ⟨hle, hlt⟩ := hrounds r hr
      exact ⟨hended.lt_size.le.trans hle, hlt⟩
    · obtain ⟨r, hr, rfl⟩ := List.mem_map.mp hσ
      exact hended.lt_size.trans_le (hrounds r hr).1

/-- **Each round leads to the next one**, which begins with copies of its variables. -/
theorem leadsTo (h : loop.Course k scope m rounds last) (hm : m.Stands parent scope) :
    ∀ {before : List Round} {r r' : Round} {later : List Round},
      rounds = before ++ r :: r' :: later → r.LeadsTo loop parent r' := by
  induction h with
  | exhausted | refused | last | stopped =>
    rintro (_ | ⟨r₀, _ | ⟨r₁, before⟩⟩) r r' later hrounds <;> cases hrounds
  | next hbegin hbody hnext h ih =>
    obtain ⟨hended, -⟩ := (hm.begins hbegin).1.ends hbody
    obtain ⟨rfl, hm', -, hupdate⟩ := hended.next_fresh hfresh hnext
    rintro (_ | ⟨r₀, before⟩) r r' later hrounds
    · cases hrounds
      obtain ⟨hfuel, hscope, hbegin'⟩ := h.head
      obtain ⟨s, hs, hp⟩ := hended.made
      refine ⟨hfuel, hscope, s, _, hs, hp, ?_, hscope ▸ hbegin'⟩
      rw [hscope]
      rwa [Machine.copied_eq hs] at hupdate
    · exact ih hm' (List.cons.inj hrounds).2

theorem ends (h : loop.Course k scope m rounds last) (hm : m.Stands parent scope) :
    ∀ {before : List Round} {r : Round}, rounds = before ++ [r] → r.Ends loop parent last := by
  induction h with
  | exhausted | refused => rintro (_ | ⟨r₀, before⟩) r hrounds <;> cases hrounds
  | last =>
    rintro (_ | ⟨r₀, _ | ⟨r₁, before⟩⟩) r hrounds <;> cases hrounds
    exact .body rfl
  | stopped hbegin hbody =>
    rintro (_ | ⟨r₀, _ | ⟨r₁, before⟩⟩) r hrounds <;> cases hrounds
    obtain ⟨hended, -⟩ := (hm.begins hbegin).1.ends hbody
    obtain ⟨s, hs, hp⟩ := hended.made
    refine .update hs hp ?_
    rw [Exec.after_congr (Evaluator.nextRound_of_fresh hfresh), Machine.copied_eq hs]
    exact Exec.after_bind_pure
  | next hbegin hbody hnext h ih =>
    obtain ⟨hended, -⟩ := (hm.begins hbegin).1.ends hbody
    obtain ⟨s, hs, hp⟩ := hended.made
    obtain ⟨rfl, hm', -, hupdate⟩ := hended.next_fresh hfresh hnext
    rw [Machine.copied_eq hs] at hupdate
    rintro (_ | ⟨r₀, before⟩) r hrounds
    · cases hrounds
      cases h with
      | exhausted => exact .update hs hp (Exec.after_of_ok hupdate).symm
      | refused => exact .test hs hp rfl hupdate rfl
    · exact ih hm' (List.cons.inj hrounds).2

section

variable {s : ScopeId}

/-- Between the bodies of the rounds, older scopes stay as they are. -/
theorem between_older (h : loop.Course k scope m rounds last) (hm : m.Stands parent scope)
    (hfree : loop.CallFree) (hs : s ≠ scope) (hp : parent < s) (hsize : s < m.scopes.size)
    (name : String) : Round.Between (·.scopes.bindingIn? name s) m rounds last := by
  induction h with
  | exhausted => rfl
  | refused => exact hm.begin_quiet hfree hs hp hsize name
  | last hbegin =>
    exact ⟨hm.begins_quiet hfree hs hp hsize hbegin name, rfl⟩
  | stopped hbegin hbody =>
    obtain ⟨hstands, hg⟩ := hm.begins hbegin
    obtain ⟨hended, hg'⟩ := hstands.ends hbody
    have hsize' := hsize.trans_le (hg.trans hg').size_le
    exact ⟨hm.begins_quiet hfree hs hp hsize hbegin name,
      hended.next_quiet hfresh hfree hp hsize' name⟩
  | next hbegin hbody hnext h ih =>
    obtain ⟨hstands, hg⟩ := hm.begins hbegin
    obtain ⟨hended, hg'⟩ := hstands.ends hbody
    have hsize' := hsize.trans_le (hg.trans hg').size_le
    have hquiet := hended.nexts_quiet hfresh hfree hp hsize' hnext name
    obtain ⟨rfl, hm', hg'', -⟩ := hended.next_fresh hfresh hnext
    exact ⟨hm.begins_quiet hfree hs hp hsize hbegin name,
      (ih hm' hsize'.ne (hsize'.trans_le hg''.size_le)).from hquiet⟩

/-- In the bodies of the rounds, older scopes are changed by functions that hold them. -/
theorem changed_older (h : loop.Course k scope m rounds last) (hm : m.Stands parent scope)
    (hs : s ≠ scope) (hp : parent < s) (hsize : s < m.scopes.size) (name : String) :
    ∀ r ∈ rounds, r.ended.scopes.bindingIn? name s ≠ r.begun.scopes.bindingIn? name s →
      HolderAssigns s name (fun ev => ev.run (.statement r.scope none loop.body)) r.fuel
        r.begun := by
  have hlocal : s ≠ Scopes.globalId := (Nat.zero_lt_of_lt hp).ne'
  -- what the body of one round does
  have hbody {scope : ScopeId} {begun : Machine} {k : Nat} (hbegun : begun.Stands parent scope)
      (hs : s ≠ scope) (hsize : s < begun.scopes.size)
      (hne : (((Work.statement scope none loop.body).exec k).after begun).scopes.bindingIn? name s ≠
        begun.scopes.bindingIn? name s) :
      HolderAssigns s name (fun ev => ev.run (.statement scope none loop.body)) k begun :=
    Work.holderAssigns hbegun.closed hbegun.body_fits (hbegun.bypasses hs.symm hp) hlocal hsize hne
  induction h with
  | exhausted | refused => exact fun _ hr => absurd hr List.not_mem_nil
  | last hbegin =>
    obtain ⟨hbegun, hg⟩ := hm.begins hbegin
    exact List.forall_mem_singleton.mpr (hbody hbegun hs (hsize.trans_le hg.size_le))
  | stopped hbegin hended =>
    obtain ⟨hbegun, hg⟩ := hm.begins hbegin
    refine List.forall_mem_singleton.mpr fun hne => ?_
    exact hbody hbegun hs (hsize.trans_le hg.size_le) (by rwa [Exec.after_of_ok hended])
  | next hbegin hended hnext h ih =>
    obtain ⟨hbegun, hg⟩ := hm.begins hbegin
    obtain ⟨hstands, hg'⟩ := hbegun.ends hended
    have hsize' := hsize.trans_le (hg.trans hg').size_le
    obtain ⟨rfl, hm', hg'', -⟩ := hstands.next_fresh hfresh hnext
    refine List.forall_mem_cons.mpr ⟨fun hne => ?_, ?_⟩
    · exact hbody hbegun hs (hsize.trans_le hg.size_le) (by rwa [Exec.after_of_ok hended])
    · exact ih hm' hsize'.ne (hsize'.trans_le hg''.size_le)

end

/-- **Behind a round**, the loop changes nothing in its scope between the bodies, and in the bodies
functions do that hold the scope. -/
theorem behind (h : loop.Course k scope m rounds last) (hm : m.Stands parent scope) :
    ∀ {before : List Round} {r : Round} {later : List Round}, rounds = before ++ r :: later →
      ∀ name, (loop.CallFree →
          Round.Between (·.scopes.bindingIn? name r.scope) r.ended later last) ∧
        ∀ r' ∈ later,
          r'.ended.scopes.bindingIn? name r.scope ≠ r'.begun.scopes.bindingIn? name r.scope →
          HolderAssigns r.scope name (fun ev => ev.run (.statement r'.scope none loop.body)) r'.fuel
            r'.begun := by
  induction h with
  | exhausted | refused =>
    rintro (_ | ⟨r₀, before⟩) r later hrounds <;> cases hrounds
  | last =>
    rintro (_ | ⟨r₀, _ | ⟨r₁, before⟩⟩) r later hrounds name <;> cases hrounds
    exact ⟨fun _ => rfl, fun _ hr => absurd hr List.not_mem_nil⟩
  | stopped hbegin hbody =>
    rintro (_ | ⟨r₀, _ | ⟨r₁, before⟩⟩) r later hrounds name <;> cases hrounds
    obtain ⟨hended, -⟩ := (hm.begins hbegin).1.ends hbody
    exact ⟨fun hfree => hended.next_quiet hfresh hfree hended.parent_lt hended.lt_size name,
      fun _ hr => absurd hr List.not_mem_nil⟩
  | next hbegin hbody hnext h ih =>
    obtain ⟨hended, -⟩ := (hm.begins hbegin).1.ends hbody
    have hquiet := fun hfree : loop.CallFree =>
      hended.nexts_quiet hfresh hfree hended.parent_lt hended.lt_size hnext
    obtain ⟨rfl, hm', hg, -⟩ := hended.next_fresh hfresh hnext
    rintro (_ | ⟨r₀, before⟩) r later hrounds name
    · cases hrounds
      have hsize := hended.lt_size.trans_le hg.size_le
      refine ⟨fun hfree => ?_, ?_⟩
      · exact (h.between_older hfresh hm' hfree hended.lt_size.ne hended.parent_lt hsize name).from
          (hquiet hfree name)
      · exact h.changed_older hfresh hm' hended.lt_size.ne hended.parent_lt hsize name
    · exact ih hm' (List.cons.inj hrounds).2 name

end

end CountingLoop.Course

/-! ## Statements -/

/-- **The rounds of a statement** that is a counting loop behind a label. -/
def Syntax.Stmt.rounds (st : Stmt) (scope : ScopeId) (label : Option String) :
    Nat → Machine → List Round
  | 0, _ => []
  | k + 1, m =>
    match st.node with
    | .forLoop start test update body =>
      match (Evaluator.bounded k).startLoop scope start body.line m with
      | .ok (first, isFresh) m₁ =>
        CountingLoop.rounds ⟨test, update, body, label, isFresh⟩ k first m₁
      | .error _ _ => []
    | _ => []

/-- A `for` loop begins with its start and then goes round by round. -/
theorem Evaluator.execStatement_forLoop (ev : Evaluator) (scope : ScopeId)
    (label : Option String) {st : Stmt} {start : Option ForStart} {test update : Option Expr}
    {body : Stmt} (hst : st.node = .forLoop start test update body) :
    ev.execStatement scope label st = (do
      let (first, isFresh) ← ev.startLoop scope start body.line
      ev.run (.forLoop first ⟨test, update, body, label, isFresh⟩)) := by
  simp only [execStatement, execFor, startLoop, hst, bind_assoc, pure_bind]

/-- Where a loop begins that declares its names. -/
structure Machine.Starts (m : Machine) (parent : ScopeId) (kind : DeclarationKind)
    (first : ScopeId) (isFresh : Bool) (m₁ : Machine) : Prop where
  stands : m₁.Stands parent first
  grows : m.Grows m₁
  isFresh : isFresh = (kind != .var)
  lexical : kind ≠ .var → m.scopes.size < first
  var : kind = .var → first = m.scopes.size

/-- A loop that declares its names begins in a scope of its own, and another one unless by `var`. -/
theorem Machine.Closed.starts {m m₁ : Machine} (hm : m.Closed) {scope first : ScopeId} {k : Nat}
    {kind : DeclarationKind} {ds : List Declarator} {line : Nat} {isFresh : Bool}
    (hs : scope < m.scopes.size)
    (h : (Evaluator.bounded k).startLoop scope (some (.declare kind ds)) line m =
      .ok (first, isFresh) m₁) : m.Starts scope kind first isFresh m₁ := by
  obtain ⟨_, mt, htick, h⟩ := Exec.bind_eq_ok h
  obtain ⟨_, me, henter, h⟩ := Exec.bind_eq_ok h
  obtain ⟨outer, mi, hinner, h⟩ := Exec.bind_eq_ok h
  obtain ⟨fresh, md, hstart, h⟩ := Exec.bind_eq_ok h
  obtain ⟨next, mn, hnext, h⟩ := Exec.bind_eq_ok h
  cases h
  obtain ⟨hct, hgt⟩ := (Action.done (.elementary .tick)).leads_made hm htick
  have hmt : mt.scopes = m.scopes := by rw [Exec.eq_of_tick htick]
  have hst : Sees mt.world scope := hct.sees_iff.mpr (hmt ▸ hs)
  obtain ⟨hce, hge⟩ := (Action.done (.enter hst)).leads_made hct henter
  have hme : me.scopes = m.scopes := by
    cases henter
    exact hmt
  have hse : Sees me.world scope := hce.sees_iff.mpr (hme ▸ hs)
  have hopen : Action .loop me.world (fun _ => Exec.innerScope scope .loop) fun W' id =>
      .scope id ∈ W' := .innerScope hse nofun
  obtain ⟨hci, hgi⟩ := hopen.leads_made hce hinner
  have hmi : outer = m.scopes.size ∧ mi.Stands scope outer := by
    cases hinner
    exact ⟨congrArg Array.size hme, hci, _, Array.getElem?_push_size, rfl⟩
  obtain ⟨rfl, hmi⟩ := hmi
  obtain ⟨hcd, hgd⟩ := (Action.execStart hmi.sees).leads_ok hci hstart
  have hmd := hmi.later hcd hgd
  have hg := hgt.trans (hge.trans (hgi.trans hgd))
  obtain ⟨_, _, -, hfresh⟩ := Exec.bind_eq_ok hstart
  obtain rfl : (kind != .var) = isFresh := by
    cases hfresh
    rfl
  by_cases hkind : kind = .var
  · subst hkind
    cases hnext
    exact ⟨hmd, hg, rfl, fun h => absurd rfl h, fun _ => rfl⟩
  · have hfresh : (kind != .var) = true := bne_iff_ne.mpr hkind
    rw [hfresh] at hnext
    cases hnext
    obtain ⟨hcopied, hg'⟩ := hmd.copied
    exact ⟨hcopied, hg.trans hg', rfl, fun _ => hmd.lt_size, fun h => absurd h hkind⟩

/-- **What every round has for itself.**  It has a scope that is younger than that of the head and
those of the rounds before, a copy of the one before as it is when its body has ended; update and
test are evaluated there.  When its body has ended, nothing changes the scope but functions that
hold it, called in the bodies of later rounds or behind the loop, if update and test call nothing.
-/
structure CountingLoop.SeparateRounds (loop : CountingLoop) (header parent : ScopeId)
    (rounds : List Round) (last : Machine) : Prop where
  younger : ∀ r ∈ rounds, header < r.scope
  distinct : (rounds.map Round.scope).Pairwise (· < ·)
  leadsTo : ∀ {before : List Round} {r r' : Round} {later : List Round},
    rounds = before ++ r :: r' :: later → r.LeadsTo loop parent r'
  ends : ∀ {before : List Round} {r : Round}, rounds = before ++ [r] → r.Ends loop parent last
  between : loop.CallFree → ∀ {before : List Round} {r : Round} {later : List Round},
    rounds = before ++ r :: later → ∀ name,
      Round.Between (·.scopes.bindingIn? name r.scope) r.ended later last
  bodies : ∀ {before : List Round} {r : Round} {later : List Round},
    rounds = before ++ r :: later → ∀ name, ∀ r' ∈ later,
      r'.ended.scopes.bindingIn? name r.scope ≠ r'.begun.scopes.bindingIn? name r.scope →
      HolderAssigns r.scope name (fun ev => ev.run (.statement r'.scope none loop.body)) r'.fuel
        r'.begun
  seen : loop.CallFree → ∀ {before : List Round} {r : Round} {later : List Round},
    rounds = before ++ r :: later → ∀ name,
      last.scopes.bindingIn? name r.scope ≠ r.ended.scopes.bindingIn? name r.scope →
      ∃ r' ∈ later, HolderAssigns r.scope name
        (fun ev => ev.run (.statement r'.scope none loop.body)) r'.fuel r'.begun
  afterwards : ∀ r ∈ rounds, ∀ (name : String) {α : Type} {w : Work α} {k : Nat} {m' : Machine},
    last.Grows m' → m'.Closed → w.Fits .loop m'.world → w.Bypasses m' r.scope →
      ((w.exec k).after m').scopes.bindingIn? name r.scope ≠ m'.scopes.bindingIn? name r.scope →
      HolderAssigns r.scope name (fun ev => ev.run w) k m'

/-- A loop without rounds has nothing to keep apart. -/
theorem CountingLoop.SeparateRounds.nil {loop : CountingLoop} {header parent : ScopeId}
    {last : Machine} : loop.SeparateRounds header parent [] last where
  younger _ hr := absurd hr List.not_mem_nil
  distinct := .nil
  leadsTo h := absurd h.symm (List.append_ne_nil_of_right_ne_nil _ (List.cons_ne_nil _ _))
  ends h := absurd h.symm (List.append_ne_nil_of_right_ne_nil _ (List.cons_ne_nil _ _))
  between _ _ _ _ h :=
    absurd h.symm (List.append_ne_nil_of_right_ne_nil _ (List.cons_ne_nil _ _))
  bodies h := absurd h.symm (List.append_ne_nil_of_right_ne_nil _ (List.cons_ne_nil _ _))
  seen _ _ _ _ h := absurd h.symm (List.append_ne_nil_of_right_ne_nil _ (List.cons_ne_nil _ _))
  afterwards _ hr := absurd hr List.not_mem_nil

/-- **The rounds of a loop with its own variables have separate scopes.** -/
theorem CountingLoop.Course.separate {loop : CountingLoop} {k : Nat}
    {header parent scope : ScopeId} {m last : Machine} {rounds : List Round}
    (h : loop.Course k scope m rounds last) (hm : m.Stands parent scope)
    (hfresh : loop.isFresh = true) (hheader : header < scope) :
    loop.SeparateRounds header parent rounds last := by
  obtain ⟨hscopes, hdistinct⟩ := h.fresh hfresh hm
  have hyounger : ∀ r ∈ rounds, header < r.scope := fun r hr => hheader.trans_le (hscopes r hr).1
  refine ⟨hyounger, hdistinct, h.leadsTo hfresh hm, h.ends hfresh hm,
    fun hfree _ _ _ hrounds name => (h.behind hfresh hm hrounds name).1 hfree,
    fun hrounds name => (h.behind hfresh hm hrounds name).2, ?_, ?_⟩
  · intro hfree before r later hrounds name hne
    obtain ⟨hbetween, hbodies⟩ := h.behind hfresh hm hrounds name
    by_contra hnone
    refine hne ((hbetween hfree).eq fun r' hr' => ?_)
    by_contra hchanged
    exact hnone ⟨r', hr', hbodies r' hr' hchanged⟩
  · intro r hr name α w k m' hg hm' hw hb hne
    have hlocal : r.scope ≠ Scopes.globalId := (Nat.zero_lt_of_lt (hyounger r hr)).ne'
    exact w.holderAssigns hm' hw hb hlocal ((hscopes r hr).2.trans_le hg.size_le) hne

/-- **A counting loop over lexical names has a scope for each round**, and one over variables has
one scope for all of them: `header`, the scope that is made first. -/
theorem counting_rounds_have_scopes {m : Machine} (hm : m.Closed) {scope : ScopeId}
    (hs : scope < m.scopes.size) {st : Stmt} {kind : DeclarationKind} {ds : List Declarator}
    {test update : Option Expr} {body : Stmt}
    (hst : st.node = .forLoop (some (.declare kind ds)) test update body) (label : Option String)
    (k : Nat) :
    let loop : CountingLoop := ⟨test, update, body, label, kind != .var⟩
    let header := m.scopes.size
    let rounds := st.rounds scope label k m
    let last := ((Work.statement scope label st).exec k).after m
    (∀ r ∈ rounds,
      r.ended = ((Work.statement r.scope none body).exec r.fuel).after r.begun) ∧
    (kind ≠ .var → loop.SeparateRounds header scope rounds last) ∧
    (kind = .var → ∀ r ∈ rounds, r.scope = header ∧
      r.begun.scopes.chain r.scope = header :: m.scopes.chain scope) := by
  intro loop header rounds last
  have hnone (hrounds : rounds = []) : (∀ r ∈ rounds,
      r.ended = ((Work.statement r.scope none body).exec r.fuel).after r.begun) ∧
      (kind ≠ .var → loop.SeparateRounds header scope rounds last) ∧
      (kind = .var → ∀ r ∈ rounds, r.scope = header ∧
        r.begun.scopes.chain r.scope = header :: m.scopes.chain scope) := by
    rw [hrounds]
    exact ⟨fun _ hr => absurd hr List.not_mem_nil, fun _ => .nil,
      fun _ _ hr => absurd hr List.not_mem_nil⟩
  cases k with
  | zero => exact hnone rfl
  | succ k =>
    cases hstart : (Evaluator.bounded k).startLoop scope (some (.declare kind ds)) body.line m with
    | error f m₁ => exact hnone (by simp only [rounds, Stmt.rounds, hst, hstart])
    | ok result m₁ =>
      obtain ⟨first, isFresh⟩ := result
      obtain ⟨hstands, hg, rfl, hlexical, hvar⟩ := hm.starts hs hstart
      have hrounds : rounds = loop.rounds k first m₁ := by
        simp only [rounds, Stmt.rounds, hst, hstart]
        rfl
      have hlast : last = ((Work.forLoop first loop).exec k).after m₁ := by
        change ((Evaluator.bounded k).execStatement scope label st).after m = _
        rw [Evaluator.execStatement_forLoop _ _ _ hst, Exec.after_bind_of_ok hstart]
        rfl
      have hcourse : loop.Course k first m₁ rounds last := hrounds ▸ hlast ▸ loop.course k first m₁
      refine ⟨hcourse.bodies, fun hkind => ?_, fun hkind r hr => ?_⟩
      · exact hcourse.separate hstands (bne_iff_ne.mpr hkind) (hlexical hkind)
      · subst hkind
        obtain ⟨hscope, hbegun, hgr⟩ := hcourse.shared hstands rfl r hr
        rw [hscope, hbegun.chain_eq, (hg.trans hgr).chain_eq hm.tree hs, hvar rfl]
        exact ⟨rfl, rfl⟩

/-- The loop `for (let s = "a", t = "b"; s; s = t, t = "") \x7b\x7d`. -/
def stringLoop : Stmt :=
  let name (x : String) : Expr := .mk (.name x) ⟨1, 1⟩
  let string (s : String) : Expr := .mk (.string s) ⟨1, 1⟩
  let assign (x : String) (e : Expr) : Expr := .mk (.assign .plain (.name x) e) ⟨1, 1⟩
  .mk (.forLoop
    (some (.declare .lexical [.mk (.name "s") (some (string "a")),
      .mk (.name "t") (some (string "b"))]))
    (some (name "s"))
    (some (.mk (.sequence [assign "s" (name "t"), assign "t" (string "")]) ⟨1, 1⟩))
    (.mk (.block []) ⟨1, 1⟩ "")) ⟨1, 1⟩ ""

/-- Each of two rounds keeps the string that it had. -/
theorem stringLoop_keeps_strings :
    let rounds := stringLoop.rounds Scopes.globalId none 20 (.initial .default)
    let last := ((Work.statement Scopes.globalId none stringLoop).exec 20).after (.initial .default)
    rounds.map (fun r => (r.scope, (last.scopes.bindingIn? "s" r.scope).map fun b =>
      last.inspect b.value)) = [(2, some "\"a\""), (4, some "\"b\"")] ∧
    ∃ loop : CountingLoop, loop.CallFree ∧
      loop.SeparateRounds 1 Scopes.globalId rounds last := by
  intro rounds last
  have hsize : Scopes.globalId < (Machine.initial .default).scopes.size := by decide
  have hst : stringLoop.node = .forLoop (some (.declare .lexical _)) _ _ _ := rfl
  have hrounds :=
    (counting_rounds_have_scopes (.initial .default) hsize hst none 20).2.1 nofun
  refine ⟨by decide +kernel, _, ⟨?_, ?_⟩, hrounds⟩
  · simp [Node.IsCall]
  · simp [Node.IsCall]

end ScriptTrace
