import ScriptTrace.Proofs.EventLoop.Promises

/-!
# Proofs/EventLoop/Resolvers — which calls of resolving functions count

The two functions that settle a promise look only at whether it is pending.  A call that settles the
promise is therefore the last one that counts, but a call that passes another promise is not:

    pending ──settle──▸ settled, and every later call is ignored
        └────follow───▸ pending ──▸ settled by the next call, or by the outcome that is handed on,
                                    whichever comes first

What the executor throws is a call of the second function.
-/

namespace ScriptTrace

/-- **What a call of a resolving function asks for**: an outcome, or that of another promise. -/
inductive Verdict where
  | outcome (o : PromiseState)
  | follow (other : ObjectId)

/-- What a call asks for: whatever is passed to the function that rejects is a reason, and a promise
that is passed to the other one is followed, unless it is the promise itself. -/
def Heap.verdict (h : Heap) (id : ObjectId) : Bool → Value → Verdict
  | true, v => .outcome (.rejected v)
  | false, .object other =>
    if other ≠ id ∧ h.isPromise other then .follow other
    else .outcome (.fulfilled (.object other))
  | false, v => .outcome (.fulfilled v)

/-- **What a call asks for is done**: the promise has its outcome, whatever happens from then on; or
it is still pending, and has registered at the other one. -/
def Verdict.Enacted (m : Machine) (id : ObjectId) (line : Nat) (m' : Machine) : Verdict → Prop
  | .outcome o => ∀ {es m''}, History .loop m' es m'' → m''.heap.Settled id o
  | .follow other =>
    (∃ rs, m'.heap.promise? id = some ⟨.pending, rs⟩) ∧
      ∃ tasks, History .script m [.registered other ⟨.adopt, none, none, id, line⟩ tasks] m'

/-- **Calls for a promise are ignored** from a machine on: whatever is evaluated then
(`Evaluation.history`), no call of its functions changes anything. -/
def Machine.IgnoresCalls (m : Machine) (id : ObjectId) : Prop :=
  ∀ {es m'}, History .loop m es m' → ∀ rejects v line,
    Exec.callResolver id rejects v line m' = .ok .undefined m'

/-- **A promise with the two functions that settle it**, before anything has happened to it. -/
structure Machine.Offers (m : Machine) (id resolve reject : ObjectId) : Prop where
  promise : m.heap.promise? id = some ⟨.pending, []⟩
  resolve : m.heap.body? resolve = some (.resolver id false)
  reject : m.heap.body? reject = some (.resolver id true)

/-- The machine with another object. -/
def Machine.making (m : Machine) (body : Body) : Machine :=
  { m with heap := m.heap.add body none }

/-- The machine in which a promise was made and shown. -/
def Machine.promising (m : Machine) (line : Nat) : Machine :=
  (m.making (.promise ⟨.pending, []⟩)).recorded m.scope line .promise
    "new Promise created (pending)"

/-- The machine in which an executor is called: the promise has its two functions. -/
def Machine.offering (m : Machine) (line : Nat) : Machine :=
  ((m.promising line).making (.resolver m.heap.size false)).making (.resolver m.heap.size true)

/-- Answers to how an executor ended: what it throws is a call of the function that rejects. -/
def Exec.answer (id : ObjectId) (line : Nat) : Except Thrown Value → Exec Value
  | .ok _ => return .object id
  | .error t => do
    discard (callResolver id true t.value line)
    return .object id

section

variable {limits : Limits} {program : Syntax.Program} {es : List Event} {m m₁ m' : Machine}
  {id other : ObjectId} {record : PromiseRecord} {rs : List Reaction} {rejects : Bool} {v : Value}
  {outcome : PromiseState} {line : Nat}

/-! ## What calls ask for -/

/-- A rejection takes any value as it is. -/
theorem Heap.verdict_rejects (h : Heap) (id : ObjectId) (v : Value) :
    h.verdict id true v = .outcome (.rejected v) := by
  unfold verdict
  rfl

theorem Heap.verdict_follows {h : Heap} (hne : other ≠ id) (hp : h.promise? other = some record) :
    h.verdict id false (.object other) = .follow other :=
  if_pos ⟨hne, isPromise_iff.mpr ⟨record, hp⟩⟩

/-- A value that is no other promise fulfils. -/
theorem Heap.verdict_fulfills {h : Heap} (hv : ∀ other, v = .object other → other ≠ id →
    h.promise? other = none) : h.verdict id false v = .outcome (.fulfilled v) := by
  unfold verdict
  split
  · cases ‹false = true›
  · rename_i other _
    refine if_neg fun ⟨hne, hp⟩ => ?_
    obtain ⟨record, hr⟩ := isPromise_iff.mp hp
    cases (hv other rfl hne).symm.trans hr
  · rfl

/-! ## Calls -/

namespace Exec

/-- A call for a promise that is settled does nothing. -/
theorem callResolver_of_settled (hr : m.heap.promise? id = some record)
    (ho : record.state.isPending = false) :
    callResolver id rejects v line m = .ok .undefined m := by
  refine (bind_of_ok promise?_eq).trans ?_
  rw [hr, Option.any_some, ho]
  rfl

/-- A resolver of a promise that waits does what its name says. -/
theorem callResolver_of_pending (hr : m.heap.promise? id = some ⟨.pending, rs⟩)
    (h : (if rejects then rejectPromise id v line else resolvePromise id v line) m = .ok () m') :
    callResolver id rejects v line m = .ok .undefined m' := by
  refine (bind_of_ok promise?_eq).trans ?_
  rw [hr]
  cases rejects with
  | true => exact bind_of_ok h
  | false => exact bind_of_ok h

/-- **Throwing is calling**: to reject a promise is to call its second function. -/
theorem rejectPromise_eq (id : ObjectId) (v : Value) (line : Nat) (m : Machine) :
    rejectPromise id v line m = (discard (callResolver id true v line) : Exec PUnit) m := by
  have ho : (PromiseState.rejected v).isPending = false := rfl
  rcases settle_cases id line m ho with
    ⟨hsettled, hreject⟩ | ⟨rs, tasks, description, hr, -, hreject⟩
  · have hcall : callResolver id true v line m = .ok .undefined m := by
      cases hr : m.heap.promise? id with
      | some record => exact callResolver_of_settled hr (hsettled record hr)
      | none =>
        refine (bind_of_ok promise?_eq).trans ?_
        rw [hr]
        rfl
    have hdiscard : (discard (callResolver id true v line) : Exec PUnit) m = .ok () m :=
      bind_of_ok hcall
    exact hreject.trans hdiscard.symm
  · have hdiscard : (discard (callResolver id true v line) : Exec PUnit) m = .ok () _ :=
      bind_of_ok (callResolver_of_pending hr hreject)
    exact hreject.trans hdiscard.symm

/-- To settle a promise that waits enacts its outcome. -/
theorem settle_enacted (hr : m.heap.promise? id = some ⟨.pending, rs⟩)
    (ho : outcome.isPending = false) (line : Nat) :
    ∃ m', settle id outcome line m = .ok () m' ∧
      Verdict.Enacted m id line m' (.outcome outcome) := by
  obtain ⟨tasks, m', hsettle, -, -, hs⟩ := settle_history hr ho line
  exact ⟨m', hsettle, fun hes => hes.later.settled hs⟩

/-- A promise that is resolved with another one follows it. -/
theorem follow_enacted (hr : m.heap.promise? id = some ⟨.pending, rs⟩) (hne : other ≠ id)
    (hother : m.heap.promise? other = some record) (line : Nat) :
    ∃ m', resolvePromise id (.object other) line m = .ok () m' ∧
      Verdict.Enacted m id line m' (.follow other) := by
  obtain ⟨tasks, m', hresolve, hes, -⟩ := resolvePromise_history hne hother line
  refine ⟨m', hresolve, ?_, tasks, hes⟩
  -- The promise is one still, and nothing was logged that settles it.
  obtain ⟨⟨state, rs'⟩, hr', -⟩ := hes.later id _ hr
  have houtcomes : m'.heap.outcomes id = m.heap.outcomes id ++ [] := hes.outcomes_eq id
  rw [Heap.outcomes, hr', Heap.outcomes, hr] at houtcomes
  cases hp : state.isPending with
  | true =>
    obtain rfl := PromiseState.isPending_iff.mp hp
    exact ⟨rs', hr'⟩
  | false =>
    simp only [Option.elim_some, hp, Bool.false_eq_true, ↓reduceIte] at houtcomes
    cases houtcomes

/-- **The verdict on a value is what resolving a promise with it does.** -/
theorem resolvePromise_enacted (hr : m.heap.promise? id = some ⟨.pending, rs⟩) (v : Value)
    (line : Nat) : ∃ m', resolvePromise id v line m = .ok () m' ∧
      (m.heap.verdict id false v).Enacted m id line m' := by
  by_cases hv : ∃ other record, v = .object other ∧ other ≠ id ∧
      m.heap.promise? other = some record
  · obtain ⟨other, record, rfl, hne, hother⟩ := hv
    rw [Heap.verdict_follows hne hother]
    exact follow_enacted hr hne hother line
  · have hnone : ∀ other, v = .object other → other ≠ id → m.heap.promise? other = none :=
      fun other hother hne => Option.eq_none_iff_forall_ne_some.mpr fun record hrec =>
        hv ⟨other, record, hother, hne, hrec⟩
    rw [Heap.verdict_fulfills hnone, resolvePromise_eq hnone]
    exact settle_enacted hr rfl line

/-- **A call for a pending promise counts.** -/
theorem callResolver_enacted (hr : m.heap.promise? id = some ⟨.pending, rs⟩) (rejects : Bool)
    (v : Value) (line : Nat) :
    ∃ m', callResolver id rejects v line m = .ok .undefined m' ∧
      (m.heap.verdict id rejects v).Enacted m id line m' := by
  cases rejects with
  | true =>
    have ho : (PromiseState.rejected v).isPending = false := rfl
    obtain ⟨m', hreject, henacted⟩ := settle_enacted hr ho line
    rw [Heap.verdict_rejects]
    exact ⟨m', callResolver_of_pending hr hreject, henacted⟩
  | false =>
    obtain ⟨m', hresolve, henacted⟩ := resolvePromise_enacted hr v line
    exact ⟨m', callResolver_of_pending hr hresolve, henacted⟩

/-- **Handing on is calling**: a pending promise gets the outcome of another one as if it were
passed to one of its functions. -/
theorem passOn_eq (hr : m.heap.promise? id = some ⟨.pending, rs⟩) (ho : outcome.isPending = false)
    (line : Nat) : ∃ rejects v, outcome = (if rejects then .rejected v else .fulfilled v) ∧
      passOn id outcome line m = (discard (callResolver id rejects v line) : Exec PUnit) m := by
  cases outcome with
  | pending => cases ho
  | rejected v => exact ⟨true, v, rfl, rejectPromise_eq id v line m⟩
  | fulfilled v =>
    obtain ⟨m', hresolve, -⟩ := resolvePromise_enacted hr v line
    have hdiscard : (discard (callResolver id false v line) : Exec PUnit) m = .ok () m' :=
      bind_of_ok (callResolver_of_pending hr hresolve)
    exact ⟨false, v, rfl, hresolve.trans hdiscard.symm⟩

end Exec

/-! ## Which calls are ignored -/

/-- From the moment a promise is settled, calls are ignored. -/
theorem Machine.ignoresCalls_of_settled (hr : m.heap.promise? id = some record)
    (ho : record.state.isPending = false) : m.IgnoresCalls id := by
  intro es m' hes rejects v line
  obtain ⟨record', hr', hsame⟩ := hes.later id record hr
  obtain rfl := hsame ho
  exact Exec.callResolver_of_settled hr' ho

/-- As long as it is pending, they are not: the next one may reject it. -/
theorem Machine.not_ignoresCalls_of_pending (hr : m.heap.promise? id = some ⟨.pending, rs⟩) :
    ¬ m.IgnoresCalls id := by
  intro hignores
  obtain ⟨m', hcall, henacted⟩ := Exec.callResolver_enacted hr true .undefined 0
  cases hcall.symm.trans (hignores .refl true .undefined 0)
  rw [Heap.verdict_rejects] at henacted
  have hs : m.heap.Settled id (.rejected .undefined) := henacted .refl
  cases hr.symm.trans hs.1

/-- **Which first calls are the only ones that count**: those that settle the promise. -/
theorem Verdict.Enacted.ignores_iff {verdict : Verdict} (h : verdict.Enacted m id line m') :
    m'.IgnoresCalls id ↔ ∃ o, verdict = .outcome o := by
  cases verdict with
  | outcome o =>
    have hs : m'.heap.Settled id o := h .refl
    exact iff_of_true (Machine.ignoresCalls_of_settled hs.1 hs.2) ⟨o, rfl⟩
  | follow other =>
    obtain ⟨⟨rs, hr⟩, -⟩ := h
    exact iff_of_false (Machine.not_ignoresCalls_of_pending hr) nofun

/-! ## Calls in a program -/

/-- Whatever is evaluated is a history. -/
theorem Evaluation.history {α : Type} {x : Evaluator → Exec α} (hx : Evaluation x) (fuel : Nat)
    (m : Machine) : ∃ es, History .loop m es ((x (.bounded fuel)).after m) :=
  hx.action.history fuel m

/-- To call one of the functions is to settle the promise with the first argument. -/
theorem Evaluator.applyValue_resolver (ev : Evaluator) {f : ObjectId} {this : Value}
    {args : List Value} (h : m.heap.body? f = some (.resolver id rejects)) :
    ev.applyValue (.object f) this args line m =
      Exec.callResolver id rejects (argument args 0) line m := by
  have hbody : Exec.body? f m = .ok (some (.resolver id rejects)) m := by
    rw [← h]
    rfl
  exact Exec.bind_of_ok hbody

theorem Machine.size_making (m : Machine) (body : Body) :
    (m.making body).heap.size = m.heap.size + 1 := Array.size_push _

theorem Machine.body?_making (m : Machine) (body : Body) (id : ObjectId) :
    (m.making body).heap.body? id = if id = m.heap.size then some body else m.heap.body? id :=
  Heap.body?_add ..

theorem Machine.size_promising (m : Machine) (line : Nat) :
    (m.promising line).heap.size = m.heap.size + 1 := m.size_making _

theorem Machine.size_resolving (m : Machine) (line : Nat) :
    ((m.promising line).making (.resolver m.heap.size false)).heap.size = m.heap.size + 2 :=
  (size_making ..).trans (congrArg (· + 1) (m.size_promising line))

theorem Exec.make_eq (h : m.heap.size = id) (body : Body) :
    make body m = .ok (.object id) (m.making body) := by
  subst h
  rfl

/-- **What the executor throws** is a call of the function that rejects the promise. -/
theorem Evaluator.newPromise_eq (ev : Evaluator) {executor : Value}
    (h : m.heap.isCallable executor = true) (line : Nat) :
    ev.newPromise executor line m =
      (Exec.catchThrown (ev.apply executor .undefined
        [.object (m.heap.size + 1), .object (m.heap.size + 2)] line) >>=
          Exec.answer m.heap.size line) (m.offering line) := by
  have hcallable : Exec.isCallable executor m = .ok true m := by
    rw [← h]
    rfl
  have hpromise : Exec.makePromise m = .ok m.heap.size (m.making (.promise ⟨.pending, []⟩)) := rfl
  have hshown : Exec.recordHere line .promise "new Promise created (pending)"
      (m.making (.promise ⟨.pending, []⟩)) = .ok () (m.promising line) := rfl
  have hresolve := Exec.make_eq (m.size_promising line) (.resolver m.heap.size false)
  have hreject := Exec.make_eq (m.size_resolving line) (.resolver m.heap.size true)
  refine (Exec.bind_of_ok hcallable).trans ?_
  rw [if_neg (show ¬ (!true) = true from nofun)]
  refine (Exec.bind_of_ok hpromise).trans ((Exec.bind_of_ok hshown).trans ?_)
  refine (Exec.bind_of_ok hresolve).trans ((Exec.bind_of_ok hreject).trans ?_)
  refine congrFun (congrArg _ (funext fun outcome => ?_)) _
  cases outcome with
  | ok => rfl
  | error t =>
    have hthrown : Exec.rejectPromise m.heap.size t.value line =
        (discard (Exec.callResolver m.heap.size true t.value line) : Exec PUnit) :=
      funext (Exec.rejectPromise_eq _ _ _)
    dsimp only
    rw [hthrown, Exec.answer]

/-- Whoever is about to call an executor has a promise to offer. -/
theorem Machine.offering_offers (m : Machine) (line : Nat) :
    (m.offering line).Offers m.heap.size (m.heap.size + 1) (m.heap.size + 2) where
  promise := by
    have hsize : m.heap.size ≠ m.heap.size + 2 ∧ m.heap.size ≠ m.heap.size + 1 := by omega
    rw [Heap.promise?_eq_some, offering, body?_making, size_resolving, if_neg hsize.1, body?_making,
      size_promising, if_neg hsize.2]
    exact (m.body?_making _ _).trans (if_pos rfl)
  resolve := by
    have hsize : m.heap.size + 1 ≠ m.heap.size + 2 := by omega
    rw [offering, body?_making, size_resolving, if_neg hsize, body?_making, size_promising,
      if_pos rfl]
  reject := by rw [offering, body?_making, size_resolving, if_pos rfl]

/-- **Adopting is calling**: a reaction that hands on the outcome of a promise calls a function of
the promise that follows. -/
theorem Course.adopts {t : Task} {r : Reaction}
    (h : Course limits program es (.begins (.task .microtasks t)) m)
    (hj : t.job = .reaction r outcome) (hk : r.kind = .adopt) :
    ∃ other, (some other, t) ∈ pushed es ∧ m.heap.Settled other outcome ∧
      ∀ {rs}, m.heap.promise? r.derived = some ⟨.pending, rs⟩ →
        ∃ rejects v, outcome = (if rejects then .rejected v else .fulfilled v) ∧
          ∀ ev : Evaluator, ev.runTask t m =
            (discard (Exec.callResolver r.derived rejects v r.line) : Exec PUnit) m := by
  obtain ⟨other, hmem, hs⟩ := h.source hj
  refine ⟨other, hmem, hs, fun hr => ?_⟩
  obtain ⟨rejects, v, ho, hpass⟩ := Exec.passOn_eq hr hs.2 r.line
  refine ⟨rejects, v, ho, fun ev => ?_⟩
  have hhandler : Evaluator.handlerOf r outcome = none := by
    unfold Evaluator.handlerOf
    rw [hk]
  rw [Evaluator.runTask, hj, ← hpass]
  dsimp only
  rw [Evaluator.react, hhandler]

end

/-- **Which calls of resolving functions count.**  A promise that `new Promise` makes is settled by
three kinds of calls: those of its two functions, of which one is called with what the executor
throws, and those that hand on the outcome of a promise that it follows.  Once it is settled, all
of them are ignored.  As long as it is pending, each does what it asks for, and is the last one that
counts exactly if it asks for an outcome: a promise that follows another one still takes the next
call. -/
theorem resolvers_count_while_pending (m : Machine) (id : ObjectId) :
    (∀ {α : Type} {x : Evaluator → Exec α}, Evaluation x → ∀ fuel : Nat,
      ∃ es, History .loop m es ((x (.bounded fuel)).after m)) ∧
    (∀ (ev : Evaluator) {f : ObjectId} {rejects : Bool} {this : Value} {args : List Value}
      {line : Nat}, m.heap.body? f = some (.resolver id rejects) →
      ev.applyValue (.object f) this args line m =
        Exec.callResolver id rejects (argument args 0) line m) ∧
    (∀ line : Nat, (m.offering line).Offers m.heap.size (m.heap.size + 1) (m.heap.size + 2) ∧
      ∀ (ev : Evaluator) {executor : Value}, m.heap.isCallable executor = true →
        ev.newPromise executor line m =
          (Exec.catchThrown (ev.apply executor .undefined
            [.object (m.heap.size + 1), .object (m.heap.size + 2)] line) >>=
              Exec.answer m.heap.size line) (m.offering line)) ∧
    (∀ {limits : Limits} {program : Syntax.Program} {es : List Event} {t : Task} {r : Reaction}
      {outcome : PromiseState}, Course limits program es (.begins (.task .microtasks t)) m →
      t.job = .reaction r outcome → r.kind = .adopt → r.derived = id →
      ∃ other, (some other, t) ∈ pushed es ∧ m.heap.Settled other outcome ∧
        ∀ {rs}, m.heap.promise? id = some ⟨.pending, rs⟩ →
          ∃ rejects v, outcome = (if rejects then .rejected v else .fulfilled v) ∧
            ∀ ev : Evaluator, ev.runTask t m =
              (discard (Exec.callResolver id rejects v r.line) : Exec PUnit) m) ∧
    (∀ {record : PromiseRecord}, m.heap.promise? id = some record →
      record.state.isPending = false → m.IgnoresCalls id) ∧
    ∀ {rs : List Reaction}, m.heap.promise? id = some ⟨.pending, rs⟩ →
      ∀ (rejects : Bool) (v : Value) (line : Nat),
        ∃ m', Exec.callResolver id rejects v line m = .ok .undefined m' ∧
          (m.heap.verdict id rejects v).Enacted m id line m' ∧
          (m'.IgnoresCalls id ↔ ∃ o, m.heap.verdict id rejects v = .outcome o) := by
  refine ⟨fun hx fuel => hx.history fuel m, fun ev => ev.applyValue_resolver, fun line => ?_, ?_,
    Machine.ignoresCalls_of_settled, fun hr rejects v line => ?_⟩
  · exact ⟨m.offering_offers line, fun ev _ h => ev.newPromise_eq h line⟩
  · rintro limits program es t r outcome h hj hk rfl
    exact h.adopts hj hk
  · obtain ⟨m', hcall, henacted⟩ := Exec.callResolver_enacted hr rejects v line
    exact ⟨m', hcall, henacted, henacted.ignores_iff⟩

theorem Machine.heap_beginMicrotask (m : Machine) (t : Task) (rest : List Task) :
    (m.draining.beginMicrotask t rest).heap = m.heap := rfl

/-- A program in which a promise follows a settled one. -/
def followUse : Syntax.Program :=
  (Syntax.readProgram
    "const p = Promise.resolve(); new Promise(resolve => resolve(p))").toOption.getD []

/-- A promise that is offered is rejected by a call of its second function.  Before a promise gets
the outcome that it follows, it may follow again; what hands the outcome on is a call for it. -/
theorem followUse_overtaken :
    (∃ m, (Evaluator.bounded 1).applyValue (.object 2) .undefined [.string "late"] 1
      ((Machine.initial .default).offering 1) = .ok .undefined m ∧
      m.heap.Settled 0 (.rejected (.string "late")) ∧ m.IgnoresCalls 0) ∧
    ∃ es t m, Course .default followUse es (.begins (.task .microtasks t)) m ∧
      (∃ m₁, Exec.callResolver 2 false (.object 0) 1 m = .ok .undefined m₁ ∧
        ¬ m₁.IgnoresCalls 2) ∧
      ∃ other rejects v, m.IgnoresCalls other ∧ (Evaluator.bounded 1).runTask t m =
        (discard (Exec.callResolver 2 rejects v 1) : Exec PUnit) m := by
  constructor
  · obtain ⟨-, -, hnew, -⟩ := resolvers_count_while_pending (.initial .default) 0
    obtain ⟨hr, -, hreject⟩ := (hnew 1).1
    obtain ⟨-, happly, -, -, -, hpending⟩ :=
      resolvers_count_while_pending ((Machine.initial .default).offering 1) 0
    obtain ⟨m, hcall, henacted, hiff⟩ := hpending hr true (.string "late") 1
    rw [Heap.verdict_rejects] at henacted hiff
    exact ⟨m, (happly _ hreject).trans hcall, henacted .refl, hiff.mpr ⟨_, rfl⟩⟩
  generalize hf : (Activity.script.exec followUse (.bounded 12)).faultOf
    (Machine.hoisted .default followUse).beginScript = f
  generalize hm : (Activity.script.exec followUse (.bounded 12)).after
    (Machine.hoisted .default followUse).beginScript = m
  -- One task is left, which adopts for the promise 2; the promise 0 is the one that is followed.
  have hfacts : f.isNone = true ∧ m.microtasks.length = 1 ∧ m.work < m.limits.maxSteps ∧
      m.microtasks.all (fun t => t.job.reaction?.any fun r =>
        r.kind = .adopt && r.derived = 2 && r.line = 1) = true ∧
      (m.heap.promise? 2).any (·.state.isPending) = true ∧ (m.heap.promise? 0).isSome = true := by
    rw [← hm, ← hf]
    decide +kernel
  obtain ⟨hnone, hlength, hw, hadopts, hheap⟩ := hfacts
  rw [Option.any_eq_true, Option.isSome_iff_exists] at hheap
  obtain rfl := Option.isNone_iff_eq_none.mp hnone
  obtain ⟨t, hq⟩ := List.length_eq_one_iff.mp hlength
  rw [hq, List.all_cons, List.all_nil, Bool.and_true] at hadopts
  obtain ⟨es, hc, -⟩ := Course.first_microtask hf hm hq hw
  have hsame := m.heap_beginMicrotask t []
  generalize m.draining.beginMicrotask t [] = m at hc hsame
  rw [← hsame] at hheap
  obtain ⟨⟨⟨state, rs⟩, hr, hp⟩, record, hother⟩ := hheap
  obtain rfl := PromiseState.isPending_iff.mp hp
  obtain ⟨-, -, -, hadopt, -, hpending⟩ := resolvers_count_while_pending m 2
  refine ⟨es, t, m, hc, ?_, ?_⟩
  · obtain ⟨m₁, hcall, -, hiff⟩ := hpending hr false (.object 0) 1
    refine ⟨m₁, hcall, fun hignores => ?_⟩
    obtain ⟨o, ho⟩ := hiff.mp hignores
    rw [Heap.verdict_follows (by decide) hother] at ho
    cases ho
  · cases hj : t.job with
    | callback =>
      rw [hj] at hadopts
      cases hadopts
    | reaction r outcome =>
      simp only [hj, Job.reaction?, Option.any_some, Bool.and_eq_true, decide_eq_true_eq] at hadopts
      obtain ⟨⟨hk, hd⟩, hline⟩ := hadopts
      obtain ⟨other, -, hs, hpass⟩ := hadopt hc hj hk hd
      obtain ⟨rejects, v, -, hrun⟩ := hpass hr
      obtain ⟨-, -, -, -, hsettled, -⟩ := resolvers_count_while_pending m other
      exact ⟨other, rejects, v, hsettled hs.1 hs.2, hline ▸ hrun _⟩

/-- A program in which a promise follows another one and is rejected at once. -/
def overtakenUse : String :=
  "const p = Promise.resolve(\"early\"); new Promise((resolve, reject) => " ++
  "\x7b resolve(p); reject(\"late\") \x7d).then(console.log, console.error)"

/-- The second call decides, so a first call need not be the only one that counts. -/
theorem overtakenUse_rejects :
    ((run .default overtakenUse).steps.toList.filter (·.kind = .promise)).map Step.description =
      ["Promise fulfilled with \"early\"", "new Promise created (pending)",
        "Promise follows the returned promise", "Promise rejected with \"late\"",
        ".then() callback queued as a microtask (promise already settled)",
        "Promise fulfilled with undefined"] ∧
    ¬ ∀ {m : Machine} {id : ObjectId} {rs : List Reaction} {rejects : Bool} {v : Value} {line : Nat}
      {m' : Machine}, m.heap.promise? id = some ⟨.pending, rs⟩ →
      Exec.callResolver id rejects v line m = .ok .undefined m' → m'.IgnoresCalls id := by
  refine ⟨by decide +kernel, fun h => ?_⟩
  -- The promise 1 is made after the promise 0 and follows it.
  let m := ((Machine.initial .default).making (.promise ⟨.pending, []⟩)).offering 1
  have hother : m.heap.promise? 0 = some ⟨.pending, []⟩ := rfl
  have hr : m.heap.promise? 1 = some ⟨.pending, []⟩ := rfl
  obtain ⟨m', hcall, henacted⟩ := Exec.callResolver_enacted hr false (.object 0) 1
  rw [Heap.verdict_follows Nat.zero_ne_one hother] at henacted
  obtain ⟨o, ho⟩ := henacted.ignores_iff.mp (h hr hcall)
  cases ho

end ScriptTrace
