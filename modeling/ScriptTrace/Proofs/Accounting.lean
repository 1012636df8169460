import ScriptTrace.Proofs.CallTrace
import ScriptTrace.Proofs.Compositional
import ScriptTrace.Proofs.StepLimit

/-!
# Proofs/Accounting — every step that shows work is paid for

    tick            + 1
    ⋯               ± 0
    step that shows − 1

A unit of work is counted before anything of it is done, and pays for one step that shows it: a
statement, an iteration of a loop, a call or a task.  `x.Pays i j` says that what `x` counts and
what it shows leave `j` units of `i` if it ends without a fault, and never less than none.
Expressions pay for themselves (`Action.pays`), since the calls in them do; statements and the event
loop spend the one unit that they begin with.
-/

namespace ScriptTrace

open Syntax (Expr Pattern Stmt DeclarationKind LoopOver Case)

/-- **Steps that show a unit of work**: deeds of statements, calls and tasks that are run. -/
def Step.showsWork (s : Step) : Bool :=
  match s.kind with
  | .functionCall | .macrotask => true
  | .microtask => "Run microtask ".toList.isPrefixOf s.description.toList
  | kind => kind.isDeed

namespace Machine

/-- The steps of a machine that show a unit of work. -/
def shownWork (m : Machine) : Nat := m.steps.countP Step.showsWork

/-- **The units of work that were done.**  The last one that was counted may have been refused. -/
def doneWork (m : Machine) : Nat := min m.work m.limits.maxSteps

/-- **Between two machines `j` units of `i` are left**, when work that is done earns one and a step
that shows work costs one. -/
def Affords (i j : Nat) (m m' : Machine) : Prop :=
  m'.shownWork + m.doneWork + j ≤ m.shownWork + m'.doneWork + i

variable {i j k : Nat} {m m₁ m₂ : Machine} {scope : ScopeId} {line : Nat} {kind : StepKind}
  {description : String}

namespace Affords

theorem refl (m : Machine) : Affords i i m m := le_rfl

theorem trans (h : Affords i j m m₁) (h₁ : Affords j k m₁ m₂) : Affords i k m m₂ := by
  unfold Affords at *
  omega

/-- What is not needed may be left. -/
theorem keep (h : Affords i j m m₁) (c : Nat) : Affords (i + c) (j + c) m m₁ := by
  unfold Affords at *
  omega

/-- What is left need not be spent. -/
theorem waste (h : Affords i j m m₁) (hk : k ≤ j) : Affords i k m m₁ := by
  unfold Affords at *
  omega

/-- A step that shows work costs one unit. -/
theorem recorded : Affords 1 0 m (m.recorded scope line kind description) := by
  have hshown : (m.recorded scope line kind description).shownWork ≤ m.shownWork + 1 := by
    rw [shownWork, Machine.recorded, Array.countP_push]
    split <;> exact Nat.add_le_add_left (by decide) _
  have hdone : (m.recorded scope line kind description).doneWork = m.doneWork := rfl
  unfold Affords
  omega

/-- Other steps cost nothing. -/
theorem shown (h : (m.view scope line kind description).showsWork = false) :
    Affords 0 0 m (m.recorded scope line kind description) := by
  have hshown : (m.recorded scope line kind description).shownWork = m.shownWork := by
    rw [shownWork, Machine.recorded, Array.countP_push, h]
    rfl
  have hdone : (m.recorded scope line kind description).doneWork = m.doneWork := rfl
  unfold Affords
  omega

theorem aside (hk : kind.isAside = true) :
    Affords 0 0 m (m.recorded scope line kind description) :=
  .shown (by cases kind <;> first | rfl | cases hk)

/-- Work that is done earns one unit. -/
theorem tick (h : m.work < m.limits.maxSteps) : Affords 0 1 m { m with work := m.work + 1 } := by
  change _ + min m.work m.limits.maxSteps + 1 ≤ m.shownWork + min (m.work + 1) m.limits.maxSteps + 0
  have hshown : ({ m with work := m.work + 1 } : Machine).shownWork = m.shownWork := rfl
  omega

/-- Work that is refused earns nothing. -/
theorem overrun : Affords 0 0 m { m with work := m.work + 1 } := by
  change _ + min m.work m.limits.maxSteps + 0 ≤ m.shownWork + min (m.work + 1) m.limits.maxSteps + 0
  have hshown : ({ m with work := m.work + 1 } : Machine).shownWork = m.shownWork := rfl
  omega

end Affords

/-- **A unit of work is done** unless it is refused. -/
theorem doneWork_tick (m : Machine) : (Exec.tick.after m).doneWork =
    m.doneWork + if (Exec.tick.faultOf m).isNone then 1 else 0 := by
  rcases Nat.lt_or_ge m.work m.limits.maxSteps with h | h
  · rw [Exec.after_of_ok (Exec.tick_of_lt h), Exec.faultOf_of_ok (Exec.tick_of_lt h)]
    change min (m.work + 1) m.limits.maxSteps = min m.work m.limits.maxSteps + 1
    omega
  · rw [Exec.after_of_error (Exec.tick_of_le h), Exec.faultOf_of_error (Exec.tick_of_le h)]
    change min (m.work + 1) m.limits.maxSteps = min m.work m.limits.maxSteps
    omega

end Machine

/-! ## Paying -/

/-- **What an action leaves of `i` units**: `j` of them if it ends without a fault, and no debts if
it ends in one. -/
structure Exec.Pays {α : Type} (i j : Nat) (x : Exec α) (P : α → Prop) : Prop where
  ok : ∀ {m m' : Machine} {a : α}, x m = .ok a m' → m.Affords i j m' ∧ P a
  error : ∀ {m m' : Machine} {f : Fault}, x m = .error f m' → m.Affords i 0 m'

namespace Exec.Pays

variable {α β : Type} {i j k : Nat} {x : Exec α} {P R : α → Prop}

theorem of_after (hP : ∀ {m m' a}, x m = .ok a m' → P a)
    (h : ∀ m : Machine, m.Affords 0 0 (x.after m)) : x.Pays 0 0 P where
  ok {m _ _} hx := ⟨after_of_ok hx ▸ h m, hP hx⟩
  error {m _ _} hx := after_of_error hx ▸ h m

theorem pure {a : α} (ha : P a) : (Pure.pure a : Exec α).Pays i i P where
  ok h := by
    cases h
    exact ⟨.refl _, ha⟩
  error h := by cases h

/-- What is left over by one action pays for the next one. -/
theorem bind {f : α → Exec β} {S : β → Prop} (hx : x.Pays i j P)
    (hf : ∀ a, P a → (f a).Pays j k S) : (x >>= f).Pays i k S where
  ok h := by
    obtain ⟨a, m₁, hxa, hfa⟩ := bind_eq_ok h
    obtain ⟨h₁, ha⟩ := hx.ok hxa
    exact ((hf a ha).ok hfa).imp_left h₁.trans
  error h := by
    rcases bind_eq_error h with hxf | ⟨a, m₁, hxa, hfa⟩
    · exact hx.error hxf
    · obtain ⟨h₁, ha⟩ := hx.ok hxa
      exact h₁.trans ((hf a ha).error hfa)

theorem weaken (hx : x.Pays i j P) (h : ∀ a, P a → R a) : x.Pays i j R where
  ok hxa := (hx.ok hxa).imp_right (h _)
  error := hx.error

theorem keep (hx : x.Pays i j P) (c : Nat) : x.Pays (i + c) (j + c) P where
  ok hxa := (hx.ok hxa).imp_left fun h => h.keep c
  error hxf := ((hx.error hxf).keep c).waste (Nat.zero_le _)

theorem waste (hx : x.Pays i j P) (h : k ≤ j) : x.Pays i k P where
  ok hxa := (hx.ok hxa).imp_left fun h' => h'.waste h
  error := hx.error

theorem ite {c : Prop} [Decidable c] {y : Exec α} (hx : c → x.Pays i j P)
    (hy : ¬ c → y.Pays i j P) : (if c then x else y).Pays i j P := by
  split
  · exact hx ‹_›
  · exact hy ‹_›

/-- A caught value costs nothing: what was paid for before it stays paid for. -/
theorem catchThrown {Q : World → α → Prop} (hx : x.Pays i 0 (Q Set.univ)) :
    (Exec.catchThrown x).Pays i 0 (Caught Q Set.univ) where
  ok h := by
    rcases catchThrown_eq_ok h with ⟨a, rfl, hxa⟩ | ⟨t, rfl, hxt⟩
    · exact hx.ok hxa
    · exact ⟨hx.error hxt, within_univ t⟩
  error h := hx.error (catchThrown_eq_error h).1

/-- A tick pays for one step, unless it is refused. -/
theorem tick : Exec.tick.Pays 0 1 Any where
  ok {m _ _} h := by
    rcases Nat.lt_or_ge m.work m.limits.maxSteps with hlt | hle
    · cases (tick_of_lt hlt).symm.trans h
      exact ⟨.tick hlt, trivial⟩
    · cases (tick_of_le hle).symm.trans h
  error {m _ _} h := by
    rcases Nat.lt_or_ge m.work m.limits.maxSteps with hlt | hle
    · cases (tick_of_lt hlt).symm.trans h
    · cases (tick_of_le hle).symm.trans h
      exact .overrun

variable {scope : ScopeId} {line : Nat} {kind : StepKind} {description : String}

theorem record : (Exec.record scope line kind description).Pays 1 0 Any where
  ok h := by
    cases h
    exact ⟨.recorded, trivial⟩
  error h := by cases h

/-- A step behind an action is shown only if the action ends well, so one unit is enough. -/
theorem followedBy (hx : x.Pays 0 0 P) :
    (Exec.followedBy x (Exec.record scope line kind description)).Pays 1 0 P where
  ok {m _ _} h := by
    cases hxm : x m with
    | ok a m₁ =>
      cases (followedBy_of_ok hxm).symm.trans h
      exact (hx.ok hxm).imp_left fun h => (h.keep 1).trans .recorded
    | error f m₁ => cases (followedBy_of_error hxm).symm.trans h
  error {m _ _} h := by
    cases hxm : x m with
    | ok a m₁ => cases (followedBy_of_ok hxm).symm.trans h
    | error f m₁ =>
      cases (followedBy_of_error hxm).symm.trans h
      exact ((hx.error hxm).keep 1).trans .recorded

/-- A step that takes the place of a thrown value is paid for from outside. -/
theorem orElseShow (hx : x.Pays 0 0 P) :
    (Exec.orElseShow x (Exec.record scope line kind description)).Pays 1 0 Any where
  ok {m _ _} h := by
    cases hxm : x m with
    | ok a m₁ =>
      have hkept := (hx.ok hxm).1.keep 1
      rw [orElseShow_of_ok hxm] at h
      split at h
      · cases h
        exact ⟨hkept.trans .recorded, trivial⟩
      · cases h
        exact ⟨hkept.waste (Nat.zero_le _), trivial⟩
    | error f m₁ => cases (orElseShow_of_error hxm).symm.trans h
  error {m _ _} h := by
    cases hxm : x m with
    | ok a m₁ =>
      rw [orElseShow_of_ok hxm] at h
      split at h <;> cases h
    | error f m₁ =>
      cases (orElseShow_of_error hxm).symm.trans h
      exact ((hx.error hxm).keep 1).waste (Nat.zero_le _)

/-- What is neither work nor shown as work. -/
theorem free (h : ∀ m : Machine, m.Affords 0 0 (x.after m)) : x.Pays i i Any := by
  simpa only [Nat.zero_add] using (of_after (fun _ => trivial) h).keep i

theorem pushFrame {name : String} : (Exec.pushFrame name line).Pays 0 0 Any := by
  refine .of_after (fun _ => trivial) fun m => ?_
  rcases Nat.lt_or_ge m.frames.length m.limits.maxCallDepth with h | h
  · rw [after_of_ok (pushFrame_of_lt h)]
    exact .refl m
  · rw [after_of_error (pushFrame_of_le h)]
    exact .refl m

end Exec.Pays

namespace Machine.Affords

variable {m : Machine}

theorem of_ok {α : Type} {x : Exec α} {m' : Machine} {a : α} (hx : x m = .ok a m')
    (h : m.Affords 0 0 m') : m.Affords 0 0 (x.after m) := by
  rwa [Exec.after_of_ok hx]

theorem writing {W : World} {x : Exec Unit} (h : Writing W m.heap x) :
    m.Affords 0 0 (x.after m) := by
  induction h with
  | withHeap _ ih => exact ih
  | withCeiling _ ih => exact ih m.limits.maxLength
  | _ => exact .refl m

end Machine.Affords

/-- **Elementary actions cost nothing**, but for the deeds of statements. -/
theorem Elementary.affords {l : Layer} {α : Type} {x : Exec α} {P : α → Prop}
    (h : Elementary l Set.univ x P) (hl : ¬ l.Executes) (m : Machine) :
    m.Affords 0 0 (x.after m) := by
  have hloop : l ≠ .loop := fun h => hl (h ▸ inferInstance)
  cases h with
  | tick =>
    rcases Nat.lt_or_ge m.work m.limits.maxSteps with h | h
    · exact .of_ok (Exec.tick_of_lt h) .overrun
    · rw [Exec.after_of_error (Exec.tick_of_le h)]
      exact .overrun
  | write h => exact .writing (h m.heap (within_univ _))
  | @addReaction id r =>
    rcases Exec.addReaction_cases id r m with
      ⟨-, hadd⟩ | ⟨rs, -, hadd⟩ | ⟨outcome, rs, label, -, -, hadd⟩
    all_goals exact .of_ok hadd (.refl m)
  | @settle id outcome line _ _ hp =>
    rcases Exec.settleFlat_cases id line m hp with
      hsettle | ⟨rs, tasks, description, -, -, -, hsettle⟩
    · exact .of_ok hsettle (.refl m)
    · exact .of_ok hsettle (.shown rfl)
  | record _ hk hd =>
    refine .aside (Bool.and_eq_true_iff.mpr ⟨hk, ?_⟩)
    exact Bool.not_eq_true' _ ▸ eq_false_of_ne_true fun h => hl (hd h)
  | recordHere hk => exact .aside hk
  | print => exact .shown rfl
  | showQueued =>
    refine .shown ?_
    change List.isPrefixOf _ ("queueMicrotask(" ++ _ ++ _ ++ _ : String).toList = false
    rw [String.toList_append, String.toList_append, String.toList_append]
    rfl
  | flattened =>
    rw [Exec.after_flattened]
    exact .refl m
  | enterPhase h | showMicrotask h | showMacrotask h | nextMicrotask? h | hasMicrotask h
  | nextCallback? h | awaitsTimers h | moveTimers h => exact absurd h hloop
  | _ => exact .refl m

/-! ## Expressions and calls -/

/-- An evaluator whose work pays for what it shows. -/
def Evaluator.Pays (ev : Evaluator) : Prop :=
  ∀ {α : Type} (w : Work α), (ev.run w).Pays 0 0 (w.Yields Set.univ)

section

variable {ev : Evaluator}

/-- Whatever is put together from actions that pay, pays. -/
theorem pays_composable (hev : ev.Pays) :
    Composable .value fun x P => (x ev).Pays 0 0 P where
  pure := .pure
  elementary h := .of_after h.yields_univ (h.affords fun h => h.ne_value rfl)
  bind := .bind
  weaken := .weaken
  allocate _ := .of_after (fun _ => trivial) .refl
  newScope := .of_after (fun _ => trivial) .refl
  copyScope := .of_after (fun _ => trivial) .refl
  eval _ := hev _
  catchThrown := .catchThrown
  orElseShow hl _ := absurd rfl hl.ne_value

namespace Exec.Pays

theorem callScope (hev : ev.Pays) {id : ObjectId} {c : Closure} {this : Value} :
    (Evaluator.callScope id c this).Pays 0 0 Any :=
  have hT := pays_composable hev
  .bind hT.newScope fun _ _ =>
    (hT.plain (.enterCall (sees_univ _) (Set.mem_univ _))).weaken fun _ _ => trivial

theorem leave {caller : ScopeId} {line : Nat} {description : String} :
    (Evaluator.leave caller line description).Pays 0 0 Any :=
  .bind (.free .refl) fun _ _ => .bind (.free .refl) fun _ _ => .free fun _ => .shown rfl

/-- The step that shows a return is paid for by the call. -/
theorem endCall (hev : ev.Pays) {c : Closure} {caller : ScopeId} {line : Nat}
    {outcome : Except Thrown Value} :
    (Evaluator.endCall c caller line outcome).Pays 0 0 (Within Set.univ) := by
  have hT := pays_composable hev
  cases outcome with
  | ok v =>
    exact .bind (hT.plain .inspect) fun _ _ => .bind leave fun _ _ => .pure (within_univ v)
  | error t =>
    exact .bind leave fun _ _ => (hT.elementary (.throw (within_univ t))).weaken nofun

/-- **A call pays for the step that shows it.** -/
theorem invoke (hev : ev.Pays) {id : ObjectId} {c : Closure} {this : Value} {args : List Value}
    {line : Nat} (hbind : ∀ scope, (ev.bindArguments scope c.definition args).Pays 0 0 Any)
    (hbody : ∀ scope, (ev.runBody scope c.definition.body).Pays 0 0 (Within Set.univ)) :
    (ev.invoke id c this args line).Pays 0 0 (Within Set.univ) := by
  refine .bind .tick fun _ _ => .bind (.free .refl) fun h _ => ?_
  refine .bind (pushFrame.keep 1) fun _ _ => .bind (.free .refl) fun caller _ => ?_
  refine .bind ((callScope hev).keep 1) fun scope _ => ?_
  refine .bind (.catchThrown (Q := Within) ?_) fun outcome _ => endCall hev
  exact .bind (.followedBy (hbind scope)) fun _ _ => hbody scope

end Exec.Pays

/-- **Actions of expressions pay for what they show.** -/
theorem Action.pays (hev : ev.Pays) {W : World} {α : Type} {x : Evaluator → Exec α}
    {Q : World → α → Prop} (h : Action .value W x Q) (hW : W = Set.univ) :
    (x ev).Pays 0 0 (Q Set.univ) :=
  h.has ⟨pays_composable hev, fun _ hbind hbody => .invoke hev hbind (hbody inferInstance)⟩ hW

/-- Actions of expressions leave what there is. -/
theorem Action.paysBy (hev : ev.Pays) {α : Type} {x : Evaluator → Exec α} {Q : World → α → Prop}
    (h : Action .value Set.univ x Q) (i : Nat) : (x ev).Pays i i (Q Set.univ) := by
  simpa only [Nat.zero_add] using (h.pays hev rfl).keep i

/-! ## Statements -/

namespace Exec.Pays

theorem inspect {i : Nat} {v : Value} : (Exec.inspect v).Pays i i Any := .free .refl

theorem enter {i : Nat} {scope : ScopeId} : (Exec.enter scope).Pays i i Any := .free .refl

variable (hev : ev.Pays)
include hev

theorem expr (i : Nat) {scope : ScopeId} {e : Expr} :
    (ev.expr scope e).Pays i i (Within Set.univ) := Action.paysBy hev (.expr (sees_univ _)) i

/-- The step of an expression statement is paid for by its own tick. -/
theorem execExpression {scope : ScopeId} {e : Expr} {excerpt : String} {line : Nat} :
    (ev.execExpression scope e excerpt line).Pays 1 0 Any := by
  unfold Evaluator.execExpression
  dsimp only
  split
  iterate 3 exact .bind (expr hev 1) fun _ _ => .bind .inspect fun _ _ => .record
  · exact .orElseShow (expr hev 0)

theorem loopTest {scope : ScopeId} {test : Expr} {word : String} {line : Nat} :
    (ev.loopTest scope test word line).Pays 1 0 Any :=
  .bind (expr hev 1) fun _ _ => .bind .record fun _ _ => .pure trivial

/-- Each round of the loop ticks before its test is shown. -/
theorem execWhile {scope : ScopeId} {test : Expr} {body : Stmt} {label : Option String}
    {line : Nat} : (ev.execWhile scope test body label line).Pays 0 0 (Within Set.univ) := by
  refine .bind .tick fun _ _ => .bind (loopTest hev) fun _ _ => ?_
  refine .ite (fun _ => .pure within_normal) fun _ => .bind (hev _) fun c _ => ?_
  split
  · exact .pure (within_univ _)
  · exact hev (.whileLoop scope test body label line)

theorem execDoWhile {scope : ScopeId} {body : Stmt} {test : Expr} {label : Option String}
    {line : Nat} : (ev.execDoWhile scope body test label line).Pays 0 0 (Within Set.univ) := by
  refine .bind .tick fun _ _ => .bind ((hev _).keep 1) fun c _ => ?_
  split
  · exact .waste (.pure (within_univ _)) (Nat.zero_le 1)
  · refine .bind (loopTest hev) fun _ _ => .ite (fun _ => .pure within_normal) fun _ => ?_
    exact hev (.doLoop scope body test label line)

theorem countingTest {scope : ScopeId} {loop : CountingLoop} :
    (ev.countingTest scope loop).Pays 1 0 Any := by
  unfold Evaluator.countingTest
  split
  · exact loopTest hev
  · exact .waste (.pure trivial) (Nat.zero_le 1)

/-- Each round of the loop ticks before its test is shown. -/
theorem execCounting {scope : ScopeId} {loop : CountingLoop} :
    (ev.execCounting scope loop).Pays 0 0 (Within Set.univ) := by
  refine .bind .tick fun _ _ => .bind .enter fun _ _ => .bind (countingTest hev) fun _ _ => ?_
  refine .ite (fun _ => .pure within_normal) fun _ => .bind (hev _) fun c _ => ?_
  split
  · exact .pure (within_univ _)
  · refine .bind (Action.pays hev (.nextScope (Set.mem_univ _)) rfl) fun next _ => ?_
    refine .bind (Action.pays hev (.countingUpdate (sees_univ _)) rfl) fun _ _ => ?_
    exact hev (.forLoop next loop)

/-- Each round of the loop ticks before its element is shown. -/
theorem execEach {scope : ScopeId} {word : String} {kind : Option DeclarationKind}
    {target : Pattern} {body : Stmt} {label : Option String} {line : Nat} {vs : List Value} :
    (ev.execEach scope word kind target body label line vs).Pays 0 0 (Within Set.univ) := by
  induction vs with
  | nil => exact .pure within_normal
  | cons v vs ih =>
    refine .bind .tick fun _ _ => ?_
    refine .bind (Action.paysBy hev (.eachScope (sees_univ _)) 1) fun inner _ => ?_
    refine .bind .enter fun _ _ => .bind .inspect fun _ _ => ?_
    refine .bind (Action.paysBy hev (.bindTo (sees_univ _) (within_univ _)) 1) fun _ _ => ?_
    refine .bind .record fun _ _ => .bind (hev _) fun c _ => ?_
    split
    · exact .pure (within_univ _)
    · exact ih

theorem execForEach {scope : ScopeId} {loop : LoopOver} {kind : Option DeclarationKind}
    {target : Pattern} {source : Expr} {body : Stmt} {label : Option String} :
    (ev.execForEach scope loop kind target source body label).Pays 0 0 (Within Set.univ) :=
  .bind (expr hev 0) fun _ _ =>
    .bind ((pays_composable hev).plain Action.loopItems) fun _ _ => execEach hev

theorem execSwitch {scope : ScopeId} {value : Expr} {cases : List Case} {line : Nat} :
    (ev.execSwitch scope value cases line).Pays 1 0 (Within Set.univ) := by
  refine .bind (expr hev 1) fun v _ => ?_
  refine .bind (.free .refl) fun inner _ => ?_
  refine .bind (Action.paysBy hev (.hoistBlock (sees_univ _)) 1) fun _ _ => ?_
  refine .bind (Action.paysBy hev (.matchingCases (sees_univ _)) 1) fun _ _ => ?_
  exact .bind .record fun _ _ => Action.pays hev (.execCases (sees_univ _)) rfl

/-- **A statement spends the unit that it begins with.** -/
theorem execStatement {scope : ScopeId} {label : Option String} {s : Stmt} :
    (ev.execStatement scope label s).Pays 0 0 (Within Set.univ) := by
  have hfree {α : Type} {x : Evaluator → Exec α} {Q : World → α → Prop}
      (h : Action .value Set.univ x Q) : (x ev).Pays 1 0 (Q Set.univ) :=
    (Action.paysBy hev h 1).waste (Nat.zero_le 1)
  refine .bind .tick fun _ _ => .bind .enter fun _ _ => ?_
  dsimp only
  split
  · exact .bind (hfree (.execDeclarators (sees_univ _))) fun _ _ => .pure within_normal
  · exact .bind .record fun _ _ => .pure within_normal
  · refine .bind (Action.paysBy hev (.returnValue (sees_univ _)) 1) fun v _ => ?_
    exact .bind .inspect fun _ _ => .bind .record fun _ _ => .pure (within_univ _)
  · refine .bind (expr hev 1) fun v _ => .bind .record fun _ _ => .ite (fun _ => hev _) fun _ => ?_
    split
    · exact hev _
    · exact .pure within_normal
  · exact hfree (.execFor (sees_univ _))
  · exact ((execForEach hev).keep 1).waste (Nat.zero_le 1)
  · rename_i test body _
    exact ((hev (.whileLoop scope test body label s.line)).keep 1).waste (Nat.zero_le 1)
  · rename_i body test _
    exact ((hev (.doLoop scope body test label s.line)).keep 1).waste (Nat.zero_le 1)
  · exact .bind .record fun _ _ => .pure within_broken
  · exact .bind .record fun _ _ => .pure within_continued
  · refine .bind (expr hev 1) fun v _ => .bind .inspect fun _ _ => .bind .record fun _ _ => ?_
    exact Action.pays hev (.never (.throwValue (within_univ v))) rfl
  · exact hfree (.execTry (sees_univ _))
  · exact execSwitch hev
  · rename_i name body _
    refine .bind ((hev (.statement scope (some name) body)).keep 1) fun c _ => ?_
    split
    · exact .waste (.pure (within_univ _)) (Nat.zero_le 1)
    · exact .waste (.pure (within_univ _)) (Nat.zero_le 1)
  · exact hfree (.execBlock (sees_univ _))
  · exact .bind (execExpression hev) fun _ _ => .pure within_normal
  · exact .waste (.pure within_normal) (Nat.zero_le 1)

/-! ## The event loop -/

omit hev in
theorem enterPhase {i : Nat} {phase : Phase} {description : String} :
    (Exec.enterPhase phase description).Pays i i Any :=
  .free fun m => .shown (m := { m with phase }) rfl

omit hev in
theorem nextMicrotask? : Exec.nextMicrotask?.Pays 0 0 Any := by
  refine .free fun m => ?_
  cases hm : m.microtasks with
  | nil => exact .of_ok (nextMicrotask_of_nil hm) (.refl m)
  | cons => exact .of_ok (nextMicrotask_of_cons hm) (.refl m)

omit hev in
theorem nextCallback? : Exec.nextCallback?.Pays 0 0 Any := by
  refine .free fun m => ?_
  cases hm : m.callbacks with
  | nil => exact .of_ok (nextCallback_of_nil hm) (.refl m)
  | cons => exact .of_ok (nextCallback_of_cons hm) (.refl m)

omit hev in
theorem recordHere {line : Nat} {kind : StepKind} {description : String} :
    (Exec.recordHere line kind description).Pays 1 0 Any :=
  .bind (.free .refl) fun _ _ => .record

omit hev in
theorem refillCallbacks : Exec.refillCallbacks.Pays 0 0 Any := by
  refine .bind (.free .refl) fun _ _ => .ite (fun _ => ?_) fun _ => .pure trivial
  exact .bind (.free .refl) fun _ _ => .free fun _ => .shown rfl

/-- **A microtask spends the unit that it begins with**… -/
theorem execMicrotasks : ev.execMicrotasks.Pays 0 0 Any := by
  refine .bind nextMicrotask? fun task _ => ?_
  cases task with
  | none => exact .pure trivial
  | some task =>
    refine .bind .tick fun _ _ => .bind .enter fun _ _ => .bind recordHere fun _ _ => ?_
    refine .bind (Action.pays hev (.runTask (within_univ _)) rfl) fun _ _ => ?_
    exact hev .microtasks

theorem drainMicrotasks : ev.drainMicrotasks.Pays 0 0 Any := by
  refine .bind (.free .refl) fun _ _ => .ite (fun _ => ?_) fun _ => .pure trivial
  exact .bind enterPhase fun _ _ => hev .microtasks

/-- …and so does a macrotask. -/
theorem execMacrotasks : ev.execMacrotasks.Pays 0 0 Any := by
  refine .bind refillCallbacks fun _ _ => .bind nextCallback? fun task _ => ?_
  cases task with
  | none => exact .pure trivial
  | some task =>
    refine .bind .tick fun _ _ => .bind enterPhase fun _ _ => .bind .enter fun _ _ => ?_
    refine .bind recordHere fun _ _ => ?_
    refine .bind (Action.pays hev (.runTask (within_univ _)) rfl) fun _ _ => ?_
    exact .bind (drainMicrotasks hev) fun _ _ => hev .macrotasks

theorem runEventLoop : ev.runEventLoop.Pays 0 0 Any := by
  refine .bind .enter fun _ _ => .bind (drainMicrotasks hev) fun _ _ => ?_
  exact .bind (hev .macrotasks) fun _ _ => enterPhase

theorem runProgram {program : Syntax.Program} : (ev.runProgram program).Pays 0 0 Any := by
  refine .bind (Action.pays hev (.hoistBody (sees_univ _)) rfl) fun _ _ => ?_
  refine .bind enterPhase fun _ _ => ?_
  refine .bind (Action.pays hev (.discard (.statements (sees_univ _))) rfl) fun _ _ => ?_
  exact runEventLoop hev

/-- **A piece of work pays for what it shows** if those inside it do. -/
theorem step {α : Type} {w : Work α} : (ev.step w).Pays 0 0 (w.Yields Set.univ) := by
  cases w with
  | expr => exact Action.pays hev (.evalExpr (sees_univ _)) rfl
  | statement => exact execStatement hev
  | bind => exact Action.pays hev (.bindPattern (sees_univ _) (within_univ _)) rfl
  | apply =>
    exact Action.pays hev (.applyValue (within_univ _) (within_univ _) (within_univ _)) rfl
  | whileLoop => exact execWhile hev
  | doLoop => exact execDoWhile hev
  | forLoop => exact execCounting hev
  | microtasks => exact execMicrotasks hev
  | macrotasks => exact execMacrotasks hev

end Exec.Pays

end

/-! ## Runs -/

/-- **Every piece of work pays for what it shows**, by induction on the fuel. -/
theorem Evaluator.pays_bounded : ∀ fuel, (bounded fuel).Pays
  | 0, _, _ => .of_after nofun .refl
  | fuel + 1, _, _ => .step (pays_bounded fuel)

/-- **Every evaluation pays for what it shows.** -/
theorem Evaluation.pays {α : Type} {x : Evaluator → Exec α} (hx : Evaluation x) (fuel : Nat)
    (m : Machine) : m.Affords 0 0 ((x (.bounded fuel)).after m) := by
  have hev : (Evaluator.bounded fuel).Pays := Evaluator.pays_bounded fuel
  have hfree {P : α → Prop} (h : (x (.bounded fuel)).Pays 0 0 P) :
      m.Affords 0 0 ((x (.bounded fuel)).after m) := by
    cases hm : x (.bounded fuel) m with
    | ok a m' => exact Exec.after_of_ok hm ▸ (h.ok hm).1
    | error f m' => exact Exec.after_of_error hm ▸ h.error hm
  cases hx with
  | work w => exact hfree (hev w)
  | callHost => exact hfree (Action.pays hev (.callHost (within_univ _)) rfl)
  | construct => exact hfree (Action.pays hev (.construct (within_univ _)) rfl)
  | callMethod => exact hfree (Action.pays hev (.callMethod (within_univ _) (within_univ _)) rfl)
  | invoke =>
    refine hfree (Action.pays hev (.call (Set.mem_univ _) ?_ ?_ ?_) rfl)
    all_goals exact within_univ _
  | runTask => exact hfree (Action.pays hev (.runTask (within_univ _)) rfl)
  | runEventLoop => exact hfree (.runEventLoop hev)
  | runProgram => exact hfree (.runProgram hev)

theorem initial_paid (limits : Limits) :
    (Machine.initial limits).shownWork = 0 ∧ (Machine.initial limits).doneWork = 0 :=
  ⟨rfl, Nat.zero_min _⟩

/-- A run has done at least as much work as its steps show. -/
theorem pays_finalMachine (limits : Limits) (fuel : Nat) (program : Syntax.Program) :
    (finalMachine limits fuel program).shownWork ≤ (finalMachine limits fuel program).doneWork := by
  have hpays := (Evaluation.runProgram program).pays fuel (.initial limits)
  have hstart := initial_paid limits
  cases h : (Evaluator.bounded fuel).runProgram program (.initial limits) with
  | ok _ m =>
    rw [finalMachine_of_ok h]
    rw [Exec.after_of_ok h] at hpays
    unfold Machine.Affords at hpays
    omega
  | error f m =>
    rw [finalMachine_of_error h]
    rw [Exec.after_of_error h] at hpays
    have hview : (m.view m.scope f.line .error f.message).showsWork = false := rfl
    have hend := hpays.trans (.shown hview)
    unfold Machine.Affords at hend
    omega

/-- A run does no more work than its limit allows. -/
theorem doneWork_finalMachine_le (limits : Limits) (fuel : Nat) (program : Syntax.Program) :
    (finalMachine limits fuel program).doneWork ≤ limits.maxSteps := by
  have hlimits := ((Evaluation.runProgram program).metered fuel (.initial limits)).limits
  have hle (m : Machine) (h : m.limits = limits) : m.doneWork ≤ limits.maxSteps :=
    h ▸ Nat.min_le_right _ _
  cases h : (Evaluator.bounded fuel).runProgram program (.initial limits) with
  | ok _ m =>
    rw [finalMachine_of_ok h]
    exact hle m (Exec.after_of_ok h ▸ hlimits)
  | error f m =>
    rw [finalMachine_of_error h]
    exact hle m (Exec.after_of_error h ▸ hlimits)

/-- **Every step that shows work is paid for.**  Counting a unit of work does one, unless it is
refused.  Between the begin and the end of every evaluation not more units of work are shown than
done.  So in the trace of a run there are at most as many steps that show work as units of work
were done, and no more than the ceiling allows; and not more returns than calls.  So it is with any
fuel. -/
theorem shown_work_is_done :
    (∀ m : Machine, (Exec.tick.after m).doneWork =
      m.doneWork + if (Exec.tick.faultOf m).isNone then 1 else 0) ∧
    (∀ {α : Type} {x : Evaluator → Exec α}, Evaluation x → ∀ (fuel : Nat) (m : Machine),
      ((x (.bounded fuel)).after m).shownWork + m.doneWork ≤
        m.shownWork + ((x (.bounded fuel)).after m).doneWork) ∧
    (∀ (limits : Limits) (fuel : Nat) (program : Syntax.Program),
      (finalMachine limits fuel program).shownWork ≤ (finalMachine limits fuel program).doneWork ∧
      (finalMachine limits fuel program).doneWork ≤ limits.maxSteps) ∧
    ∀ (limits : Limits) (fuel : Nat) (source : String),
      (runWithin limits fuel source).steps.countP Step.showsWork ≤ limits.maxSteps ∧
      (runWithin limits fuel source).steps.countP (·.kind = .functionReturn) ≤
        (runWithin limits fuel source).steps.countP (·.kind = .functionCall) := by
  refine ⟨Machine.doneWork_tick, fun hx fuel m => hx.pays fuel m, fun limits fuel program => ?_,
    fun limits fuel source => ⟨?_, ?_⟩⟩
  · exact ⟨pays_finalMachine limits fuel program, doneWork_finalMachine_le limits fuel program⟩
  · rcases runWithin_steps limits fuel source with hnone | ⟨program, -, hsteps⟩
    · rw [hnone]
      exact Nat.zero_le _
    · rw [hsteps]
      exact (pays_finalMachine limits _ program).trans (doneWork_finalMachine_le limits _ program)
  · obtain ⟨t, ht, hs⟩ := runWithin_tree limits fuel source
    have hscan := (ht.scan []).length_eq
    rw [← hs, List.length_nil, Array.countP_toList, Array.countP_toList] at hscan
    omega

/-- The call `f()` of a function that returns nothing. -/
def calledUse : Syntax.Program :=
  [.mk (.function ⟨some "f", [], none, .block [], false, ⟨1, 1⟩⟩) ⟨1, 1⟩ "function f() { }",
    .mk (.expr (.mk (.call (.mk (.name "f") ⟨2, 1⟩) [] false) ⟨2, 1⟩)) ⟨2, 1⟩ "f()"]

/-- The call is shown, for which one of three units of work pays. -/
theorem calledUse_paid :
    let m := ((Evaluator.bounded 9).runProgram calledUse).after (.initial .default)
    m.shownWork ≤ m.doneWork ∧ m.shownWork = 1 ∧ m.doneWork = 3 := by
  refine ⟨?_, by decide +kernel, by decide +kernel⟩
  have hpaid := shown_work_is_done.2.1 (.runProgram calledUse) 9 (.initial .default)
  have hstart := initial_paid .default
  omega

end ScriptTrace
