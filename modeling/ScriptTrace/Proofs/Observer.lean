import ScriptTrace.Proofs.Compositional
import ScriptTrace.Proofs.Invariant

/-!
# Proofs/Observer — recording only observes

The steps, the scope from which they are seen and the phase that they show are there for the trace.
Machines that differ in these three alone are `Alike`, and evaluation cannot tell them apart: from
both it ends in the same result or the same fault, and in machines that are alike again.

Two of the compositions look at what is recorded.  An expression shows itself if nothing inside it
did, which in two machines may be decided differently but only adds a step; and a call goes back to
the scope that was current, which is written and never read by anything else.
-/

namespace ScriptTrace

/-- **Machines that differ in their record alone**: in the steps, in the scope that is current and
in the phase. -/
def Machine.Alike (m m' : Machine) : Prop :=
  ∃ (steps : Array Step) (scope : ScopeId) (phase : Phase), m' = { m with steps, scope, phase }

/-- **Two ends that nothing but the record tells apart**, with results that are related. -/
inductive Paired {α β : Type} (R : α → β → Prop) :
    EStateM.Result Fault Machine α → EStateM.Result Fault Machine β → Prop
  | ok {m m' : Machine} {a : α} {b : β} (h : m.Alike m') (hR : R a b) :
    Paired R (.ok a m) (.ok b m')
  | error {m m' : Machine} {f : Fault} (h : m.Alike m') : Paired R (.error f m) (.error f m')

namespace Machine.Alike

variable {m m' m₁ m₁' : Machine}

theorem trans (h : m.Alike m') (h₁ : m'.Alike m₁) : m.Alike m₁ := by
  obtain ⟨_, _, _, rfl⟩ := h
  obtain ⟨_, _, _, rfl⟩ := h₁
  exact ⟨_, _, _, rfl⟩

theorem symm (h : m.Alike m') : m'.Alike m := by
  obtain ⟨_, _, _, rfl⟩ := h
  exact ⟨_, _, _, rfl⟩

/-- A step more or less makes no difference. -/
theorem recorded (m : Machine) (scope : ScopeId) (line : Nat) (kind : StepKind)
    (description : String) : m.Alike (m.recorded scope line kind description) := ⟨_, _, _, rfl⟩

/-- …and two machines may record different ones. -/
theorem recorded_both {scope scope' : ScopeId} {line line' : Nat} {kind kind' : StepKind}
    {description description' : String} (h : m.Alike m') :
    (m.recorded scope line kind description).Alike
      (m'.recorded scope' line' kind' description') :=
  (recorded ..).symm.trans (h.trans (recorded ..))

end Machine.Alike

/-- **Actions that cannot be told apart** in machines that are alike. -/
def Exec.Mirrors {α β : Type} (x : Exec α) (y : Exec β) (R : α → β → Prop) : Prop :=
  ∀ m m' : Machine, m.Alike m' → Paired R (x m) (y m')

namespace Paired

variable {α β : Type} {R : α → β → Prop} {x : Exec α} {y : Exec β} {m m' m₁ m₁' : Machine}

theorem of_ok {a : α} {b : β} (hx : x m = .ok a m₁) (hy : y m' = .ok b m₁') (h : m₁.Alike m₁')
    (hR : R a b) : Paired R (x m) (y m') := by
  rw [hx, hy]
  exact .ok h hR

theorem of_error {f : Fault} (hx : x m = .error f m₁) (hy : y m' = .error f m₁')
    (h : m₁.Alike m₁') : Paired R (x m) (y m') := by
  rw [hx, hy]
  exact .error h

end Paired

/-- The same result, of which something is known. -/
def Same {α : Type} (P : α → Prop) (a b : α) : Prop := a = b ∧ P a

/-- **An action that does not see the record.** -/
abbrev Exec.Blind {α : Type} (x : Exec α) (P : α → Prop) : Prop := x.Mirrors x (Same P)

namespace Exec.Mirrors

variable {α α' β β' : Type} {R : α → α' → Prop} {S : β → β' → Prop} {x : Exec α} {x' : Exec α'}

theorem pure {a : α} {a' : α'} (h : R a a') : Mirrors (Pure.pure a) (Pure.pure a') R :=
  fun _ _ hm => .ok hm h

/-- Actions that mirror each other go on to do so. -/
theorem bind {k : α → Exec β} {k' : α' → Exec β'} (hx : Mirrors x x' R)
    (hk : ∀ a a', R a a' → Mirrors (k a) (k' a') S) : Mirrors (x >>= k) (x' >>= k') S := by
  intro m m' hm
  have hpair := hx m m' hm
  generalize hxm : x m = r, hxm' : x' m' = r' at hpair
  cases hpair with
  | ok hm₁ ha =>
    rw [bind_of_ok hxm, bind_of_ok hxm']
    exact hk _ _ ha _ _ hm₁
  | error hm₁ => exact .of_error (bind_of_error hxm) (bind_of_error hxm') hm₁

/-- Values that are related are related in a weaker way too. -/
theorem mono {T : α → α' → Prop} (hx : Mirrors x x' R) (h : ∀ a a', R a a' → T a a') :
    Mirrors x x' T := by
  intro m m' hm
  have hpair := hx m m' hm
  generalize x m = r, x' m' = r' at hpair ⊢
  cases hpair with
  | ok hm₁ ha => exact .ok hm₁ (h _ _ ha)
  | error hm₁ => exact .error hm₁

/-- Whether a fault is held up does not depend on the record either. -/
theorem catchThrown {Q : World → α → Prop} (hx : Blind x (Q Set.univ)) :
    Blind (Exec.catchThrown x) (Caught Q Set.univ) := by
  intro m m' hm
  have hpair := hx m m' hm
  generalize hxm : x m = r, hxm' : x m' = r' at hpair
  cases hpair with
  | ok hm₁ ha =>
    obtain ⟨rfl, ha⟩ := ha
    exact .of_ok (catchThrown_of_ok hxm) (catchThrown_of_ok hxm') hm₁ ⟨rfl, ha⟩
  | @error _ _ f hm₁ =>
    cases hf : f.isThrown with
    | true =>
      obtain ⟨t, rfl⟩ := fault_of_isThrown hf
      exact .of_ok (catchThrown_of_thrown hxm) (catchThrown_of_thrown hxm') hm₁
        ⟨rfl, within_univ _⟩
    | false => exact .of_error (catchThrown_of_error hxm hf) (catchThrown_of_error hxm' hf) hm₁

/-- What is known of the results of an action by itself is known of both. -/
theorem known {P : α → Prop} (hx : Mirrors x x Eq)
    (hP : ∀ {m m' : Machine} {a : α}, x m = .ok a m' → P a) : Blind x P := by
  intro m m' hm
  have hpair := hx m m' hm
  generalize hxm : x m = r, x m' = r' at hpair ⊢
  cases hpair with
  | ok hm₁ ha => exact .ok hm₁ ⟨ha, hP hxm⟩
  | error hm₁ => exact .error hm₁

/-! ## Elementary actions -/

theorem tick : Mirrors Exec.tick Exec.tick Eq := by
  rintro m _ ⟨_, _, _, rfl⟩
  rcases Nat.lt_or_ge m.work m.limits.maxSteps with h | h
  · exact .of_ok (tick_of_lt h) (tick_of_lt h) ⟨_, _, _, rfl⟩ rfl
  · exact .of_error (tick_of_le h) (tick_of_le h) ⟨_, _, _, rfl⟩

/-- What is written depends on the heap and the ceiling only. -/
theorem writing {W : World} {m m' : Machine} {x : Exec Unit}
    (h : Writing W m.heap x) (hm : m.Alike m') : Paired Eq (x m) (x m') := by
  obtain ⟨_, _, _, rfl⟩ := hm
  induction h with
  | skip | change => exact .ok ⟨_, _, _, rfl⟩ rfl
  | misuse | raise => exact .error ⟨_, _, _, rfl⟩
  | withHeap _ ih => exact ih
  | withCeiling _ ih => exact ih m.limits.maxLength

theorem write {W : World} {x : Exec Unit} (h : ∀ heap, Writing W heap x) : Mirrors x x Eq :=
  fun m _ hm => writing (h m.heap) hm

/-- To flatten an array looks at the heap alone. -/
theorem flattened {items : Array Value} {depth : Float} :
    Mirrors (Exec.flattened items depth) (Exec.flattened items depth) Eq := by
  rintro m _ ⟨_, _, _, rfl⟩
  cases h : flatten m.heap m.limits.maxLength depth items with
  | some all =>
    exact .of_ok (flattened_of_some h) (flattened_of_some h) ⟨_, _, _, rfl⟩ rfl
  | none => exact .of_error (flattened_of_none h) (flattened_of_none h) ⟨_, _, _, rfl⟩

theorem addReaction {id : ObjectId} {r : Reaction} :
    Mirrors (Exec.addReaction id r) (Exec.addReaction id r) Eq := by
  rintro m _ ⟨steps, scope, phase, rfl⟩
  obtain ⟨queued, heap, tasks, h, h'⟩ := addReaction_both id r
    (show { m with steps, scope, phase }.heap = m.heap from rfl)
  exact .of_ok h h' ⟨_, _, _, rfl⟩ rfl

/-- To settle a promise does not look at the trace. -/
theorem settle {id : ObjectId} {outcome : PromiseState} {line : Nat}
    (ho : outcome.isPending = false) :
    Mirrors (Exec.settleFlat id outcome line) (Exec.settleFlat id outcome line) Eq := by
  rintro m _ ⟨steps, scope, phase, rfl⟩
  obtain ⟨heap, tasks, shown, h, h'⟩ := settleFlat_both id line ho
    (show { m with steps, scope, phase }.heap = m.heap from rfl)
  refine .of_ok h h' ?_ rfl
  cases shown with
  | none => exact ⟨_, _, _, rfl⟩
  | some description => exact ⟨_, _, _, rfl⟩

theorem nextMicrotask? : Mirrors Exec.nextMicrotask? Exec.nextMicrotask? Eq := by
  rintro m _ ⟨_, _, _, rfl⟩
  obtain ⟨tasks, h⟩ : ∃ tasks, m.microtasks = tasks := ⟨_, rfl⟩
  cases tasks with
  | nil => exact .of_ok (nextMicrotask_of_nil h) (nextMicrotask_of_nil h) ⟨_, _, _, rfl⟩ rfl
  | cons => exact .of_ok (nextMicrotask_of_cons h) (nextMicrotask_of_cons h) ⟨_, _, _, rfl⟩ rfl

theorem nextCallback? : Mirrors Exec.nextCallback? Exec.nextCallback? Eq := by
  rintro m _ ⟨_, _, _, rfl⟩
  obtain ⟨tasks, h⟩ : ∃ tasks, m.callbacks = tasks := ⟨_, rfl⟩
  cases tasks with
  | nil => exact .of_ok (nextCallback_of_nil h) (nextCallback_of_nil h) ⟨_, _, _, rfl⟩ rfl
  | cons => exact .of_ok (nextCallback_of_cons h) (nextCallback_of_cons h) ⟨_, _, _, rfl⟩ rfl

end Exec.Mirrors

/-- **Elementary actions do not see the record.** -/
theorem Elementary.mirrors {l : Layer} {α : Type} {x : Exec α} {P : α → Prop}
    (h : Elementary l Set.univ x P) : x.Mirrors x Eq := by
  cases h with
  | tick => exact .tick
  | write h => exact .write fun heap => h heap (within_univ heap)
  | flattened => exact .flattened
  | addReaction => exact .addReaction
  | settle _ _ ho => exact .settle ho
  | nextMicrotask? => exact .nextMicrotask?
  | nextCallback? => exact .nextCallback?
  | throw | raise | fail =>
    rintro m _ ⟨_, _, _, rfl⟩
    exact .error ⟨_, _, _, rfl⟩
  | _ =>
    rintro m _ ⟨_, _, _, rfl⟩
    exact .ok ⟨_, _, _, rfl⟩ rfl

/-- What is composed of effects mirrors itself, whatever has been recorded. -/
theorem Plain.mirrors {l : Layer} {α : Type} {x : Exec α} {P : α → Prop}
    (h : Plain l Set.univ x P) : x.Blind P := by
  induction h with
  | pure ha => exact .pure ⟨rfl, ha⟩
  | elementary h => exact h.mirrors.known h.yields_univ
  | bind _ _ ihx ihk => exact .bind ihx fun a _ ⟨heq, ha⟩ => heq ▸ ihk a ha
  | weaken _ h ih => exact ih.mono fun a _ ha => ⟨ha.1, h a ha.2⟩

namespace Exec.Mirrors

variable {α : Type} {P : α → Prop} {x : Exec α}

/-! ## Steps behind an action -/

/-- Whether a step has been shown is seen alike on both sides. -/
theorem orElseShow {scope : ScopeId} {line : Nat} {description : String} (hx : Blind x P) :
    Mirrors (Exec.orElseShow x (Exec.record scope line .expression description))
      (Exec.orElseShow x (Exec.record scope line .expression description)) Eq := by
  intro m m' hm
  have hpair := hx m m' hm
  generalize hxm : x m = r, hxm' : x m' = r' at hpair
  cases hpair with
  | ok hm₁ ha =>
    rw [orElseShow_of_ok hxm, orElseShow_of_ok hxm']
    -- Only one of the two may have recorded a step by now.
    split <;> split
    · exact .ok ((Machine.Alike.recorded ..).symm.trans (hm₁.trans (.recorded ..))) rfl
    · exact .ok ((Machine.Alike.recorded ..).symm.trans hm₁) rfl
    · exact .ok (hm₁.trans (.recorded ..)) rfl
    · exact .ok hm₁ rfl
  | error hm₁ => exact .of_error (orElseShow_of_error hxm) (orElseShow_of_error hxm') hm₁

/-- The step behind an action does not change its value. -/
theorem followedBy {scope : ScopeId} {line : Nat} {kind : StepKind} {description : String}
    (hx : Blind x P) :
    Blind (Exec.followedBy x (Exec.record scope line kind description)) P := by
  intro m m' hm
  have hpair := hx m m' hm
  generalize hxm : x m = r, hxm' : x m' = r' at hpair
  cases hpair with
  | ok hm₁ ha =>
    exact .of_ok (followedBy_of_ok hxm) (followedBy_of_ok hxm') (hm₁.recorded_both ..) ha
  | error hm₁ =>
    exact .of_error (followedBy_of_error hxm) (followedBy_of_error hxm') (hm₁.recorded_both ..)

/-! ## What is made -/

theorem allocate {body : Body} {className : Option String} :
    Mirrors (Exec.allocate body className) (Exec.allocate body className) Eq := by
  rintro m _ ⟨_, _, _, rfl⟩
  exact .ok ⟨_, _, _, rfl⟩ rfl

theorem newScope {s : Scope} : Mirrors (Exec.newScope s) (Exec.newScope s) Eq := by
  rintro m _ ⟨_, _, _, rfl⟩
  exact .ok ⟨_, _, _, rfl⟩ rfl

theorem copyScope {scope : ScopeId} :
    Mirrors (Exec.copyScope scope) (Exec.copyScope scope) Eq := by
  rintro m _ ⟨_, _, _, rfl⟩
  exact .ok ⟨_, _, _, rfl⟩ rfl

/-! ## Calls -/

theorem pushFrame {name : String} {line : Nat} :
    Mirrors (Exec.pushFrame name line) (Exec.pushFrame name line) Eq := by
  rintro m _ ⟨_, _, _, rfl⟩
  rcases Nat.lt_or_ge m.frames.length m.limits.maxCallDepth with h | h
  · exact .of_ok (pushFrame_of_lt h) (pushFrame_of_lt h) ⟨_, _, _, rfl⟩ rfl
  · exact .of_error (pushFrame_of_le h) (pushFrame_of_le h) ⟨_, _, _, rfl⟩

theorem heap : Mirrors Exec.heap Exec.heap Eq := by
  rintro m _ ⟨_, _, _, rfl⟩
  exact .ok ⟨_, _, _, rfl⟩ rfl

/-- The scope that is current may be any. -/
theorem currentScope : Mirrors Exec.currentScope Exec.currentScope fun _ _ => True :=
  fun _ _ hm => .ok hm trivial

theorem callScope {id : ObjectId} {c : Closure} {this : Value} :
    Mirrors (Evaluator.callScope id c this) (Evaluator.callScope id c this) Eq := by
  refine .bind newScope fun scope _ heq => ?_
  subst heq
  exact (Plain.enterCall (l := .loop) (sees_univ _) (Set.mem_univ _)).mirrors.mono
    fun _ _ h => h.1

theorem runCall {ev : Evaluator} {scope : ScopeId} {c : Closure} {args : List Value}
    {shown : String} {line : Nat}
    (hbind : Blind (ev.bindArguments scope c.definition args) Any)
    (hbody : Blind (ev.runBody scope c.definition.body) (Within Set.univ)) :
    Blind (ev.runCall scope c args shown line) (Within Set.univ) :=
  .bind (followedBy hbind) fun _ _ _ => hbody

/-- Going back from a call, to whatever scope. -/
theorem leave {caller caller' : ScopeId} {line : Nat} {description : String} :
    Mirrors (Evaluator.leave caller line description) (Evaluator.leave caller' line description)
      Eq := by
  rintro m _ ⟨_, _, _, rfl⟩
  exact .ok ⟨_, _, _, rfl⟩ rfl

/-- A call ends alike, whatever scope the caller shows its steps in. -/
theorem endCall {c : Closure} {caller caller' : ScopeId} {line : Nat}
    {outcome : Except Thrown Value} :
    Mirrors (Evaluator.endCall c caller line outcome) (Evaluator.endCall c caller' line outcome)
      (Same (Within Set.univ)) := by
  cases outcome with
  | ok v =>
    refine .bind (Plain.inspect (l := .loop)).mirrors fun _ _ ⟨heq, _⟩ => ?_
    subst heq
    exact .bind leave fun _ _ _ => .pure ⟨rfl, within_univ _⟩
  | error t =>
    refine .bind leave fun _ _ _ => ?_
    rintro m _ ⟨_, _, _, rfl⟩
    exact .error ⟨_, _, _, rfl⟩

/-- **A call does not see the record** if what is inside it does not. -/
theorem invoke {ev : Evaluator} {id : ObjectId} {c : Closure} {this : Value} {args : List Value}
    {line : Nat}
    (hbind : ∀ scope, Blind (ev.bindArguments scope c.definition args) Any)
    (hbody : ∀ scope, Blind (ev.runBody scope c.definition.body) (Within Set.univ)) :
    Blind (ev.invoke id c this args line) (Within Set.univ) := by
  refine .bind tick fun _ _ _ => .bind heap fun h _ heq => ?_
  subst heq
  refine .bind pushFrame fun _ _ _ => .bind currentScope fun caller caller' _ => ?_
  refine .bind callScope fun scope _ heq => ?_
  subst heq
  refine .bind (.catchThrown (Q := Within) (runCall (hbind scope) (hbody scope)))
    fun outcome _ ⟨heq, _⟩ => ?_
  subst heq
  exact endCall

end Exec.Mirrors

/-! ## Everything that is evaluated -/

/-- An evaluator that does not see the record. -/
def Evaluator.Blind (ev : Evaluator) : Prop :=
  ∀ {α : Type} (w : Work α), (ev.run w).Blind (w.Yields Set.univ)

/-- **Not to see the record is compositional** if the evaluator does not see it. -/
theorem blind_compositional {l : Layer} [hl : l.Roams] {ev : Evaluator} (hev : ev.Blind) :
    Compositional l fun x P => (x ev).Blind P where
  pure ha := .pure ⟨rfl, ha⟩
  elementary h := h.mirrors.known h.yields_univ
  bind hx hk := .bind hx fun a _ ⟨heq, ha⟩ => heq ▸ hk a ha
  weaken hx h := hx.mono fun _ _ ha => ⟨ha.1, h _ ha.2⟩
  allocate _ := Exec.Mirrors.allocate.mono fun _ _ h => ⟨h, trivial⟩
  newScope := Exec.Mirrors.newScope.mono fun _ _ h => ⟨h, trivial⟩
  copyScope := Exec.Mirrors.copyScope.mono fun _ _ h => ⟨h, trivial⟩
  eval _ := hev _
  catchThrown := .catchThrown
  orElseShow _ hx := hx.orElseShow.mono fun _ _ h => ⟨h, trivial⟩
  invoke _ hbind hbody := .invoke hbind (hbody hl)

/-- **No action sees the record** if the evaluator does not. -/
theorem Action.mirrors {l : Layer} [l.Roams] {W : World} {α : Type} {x : Evaluator → Exec α}
    {Q : World → α → Prop} (h : Action l W x Q) {ev : Evaluator} (hev : ev.Blind)
    (hW : W = Set.univ) : (x ev).Blind (Q Set.univ) :=
  h.has (blind_compositional hev) hW

/-- **No piece of work sees the record**, by induction on the fuel. -/
theorem Evaluator.blind_bounded : ∀ fuel, (bounded fuel).Blind
  | 0, _, _ => fun _ _ hm => .error hm
  | fuel + 1, _, w => (Action.step w.fits_univ).mirrors (blind_bounded fuel) rfl

/-- **Recording only observes.**  From two machines that differ in their steps, their current scope
and their phase alone, every evaluation ends in the same result or the same fault, and in machines
that differ in nothing else again. -/
theorem recording_only_observes {α : Type} {x : Evaluator → Exec α} (hx : Evaluation x)
    (fuel : Nat) {m m' : Machine} (hm : m.Alike m') :
    Paired Eq (x (.bounded fuel) m) (x (.bounded fuel) m') :=
  (hx.action.mirrors (Evaluator.blind_bounded fuel) rfl).mono (fun _ _ h => h.1) m m' hm

/-- A line is printed in the same way from a block in the idle phase, behind a step that was shown.
-/
theorem recording_only_observes_print :
    let around := { Machine.initial .default with
      scopes := Scopes.initial.push ⟨some Scopes.globalId, .block, [], none⟩ }
    let inside := { around with
      steps := #[around.view Scopes.globalId 1 .expression "x"], scope := 1, phase := .idle }
    around.Alike inside ∧
      Paired Eq ((Evaluator.bounded 1).callHost (.console .log) [.string "a"] 1 around)
        ((Evaluator.bounded 1).callHost (.console .log) [.string "a"] 1 inside) :=
  ⟨⟨_, _, _, rfl⟩, recording_only_observes (.callHost _ _ _) 1 ⟨_, _, _, rfl⟩⟩

end ScriptTrace
