import Mathlib.Algebra.BigOperators.Group.List.Basic
import Mathlib.Algebra.Order.Ring.Int
import ScriptTrace.Trace.Step

/-!
# Proofs/CallTree — calls inside one another

A call pushes its frame, binds its parameters, shows itself, runs its body, pops its frame and shows
its return.  Everything shown meanwhile is shown inside it.  A call tree has all this with the steps
in their places; a call that a fault cut short keeps its frame.

Two readings of a trace follow from the tree alone.  A reader who pushes at calls and pops at
returns finds for each return the call that it ends (`WellFormed.scan`).  The frames in the picture
of a step are the calls that were shown and have not returned, and beyond these the calls that are
just binding their parameters (`WellFormed.tallies`).
-/

namespace ScriptTrace

/-! ## Steps and the frames in them -/

namespace Step

/-- A step other than a call or a return in the midst of `frames`. -/
structure IsPlain (s : Step) (frames : List Frame) : Prop where
  noCall : s.kind ≠ .functionCall
  noReturn : s.kind ≠ .functionReturn
  stack : s.callStack = frames.reverse

/-- The step that shows the call of the frame `f`. -/
structure IsCall (s : Step) (f : Frame) (frames : List Frame) : Prop where
  kind : s.kind = .functionCall
  line : s.line = f.line
  text : ∃ shown, s.description = "Call " ++ f.functionName ++ "(" ++ shown ++ ")"
  stack : s.callStack = frames.reverse

/-- The step that shows how the call of the frame `f` ended. -/
structure IsReturn (s : Step) (f : Frame) (frames : List Frame) : Prop where
  kind : s.kind = .functionReturn
  line : s.line = f.line
  text : (∃ shown, s.description = f.functionName ++ " returned " ++ shown) ∨
    ∃ shown, s.description = f.functionName ++ " threw " ++ shown
  stack : s.callStack = frames.reverse

/-- **A return ends a call** if both are of one frame: they have its name and its line, and the
stack of the call is that of the return with the frame on top. -/
def Ends (r c : Step) : Prop := ∃ f frames, c.IsCall f (f :: frames) ∧ r.IsReturn f frames

/-- What a step adds to the number of calls that have not returned. -/
def weight (s : Step) : Int :=
  match s.kind with
  | .functionCall => 1
  | .functionReturn => -1
  | _ => 0

variable {s : Step} {f : Frame} {frames : List Frame}

/-- A step that shows neither call nor return does not change the balance. -/
theorem IsPlain.weight_eq (h : s.IsPlain frames) : s.weight = 0 := by
  unfold weight
  split
  · exact absurd ‹_› h.noCall
  · exact absurd ‹_› h.noReturn
  · rfl

theorem IsCall.weight_eq (h : s.IsCall f frames) : s.weight = 1 := by rw [weight, h.kind]

theorem IsReturn.weight_eq (h : s.IsReturn f frames) : s.weight = -1 := by rw [weight, h.kind]

end Step

/-! ## Call trees -/

/-- **The steps of a run, calls inside one another.** -/
inductive CallTree where
  | nil
  | step (s : Step) (rest : CallTree)
  /-- A call with what it shows while it binds its parameters, the step that shows it, its body, the
  step that shows how it ended, and what comes after. -/
  | call (frame : Frame) (binding : CallTree) (shown : Step) (body : CallTree) (ended : Step)
    (rest : CallTree)
  /-- A call that does not return, with all that comes after. -/
  | cut (frame : Frame) (binding : CallTree) (shown : Step) (rest : CallTree)

namespace CallTree

/-- All steps in order. -/
def steps : CallTree → List Step
  | nil => []
  | step s rest => s :: rest.steps
  | call _ binding shown body ended rest =>
    binding.steps ++ shown :: body.steps ++ ended :: rest.steps
  | cut _ binding shown rest => binding.steps ++ shown :: rest.steps

/-- The calls that have not returned, the latest to be shown first. -/
def opened : CallTree → List Step
  | nil => []
  | step _ rest => rest.opened
  | call _ _ _ _ _ rest => rest.opened
  | cut _ binding shown rest => rest.opened ++ shown :: binding.opened

/-- Every call has returned. -/
def IsComplete (t : CallTree) : Prop := t.opened = []

/-- The frames at the end of what begins among `frames`. -/
def left : CallTree → List Frame → List Frame
  | nil, frames => frames
  | step _ rest, frames => rest.left frames
  | call _ _ _ _ _ rest, frames => rest.left frames
  | cut f binding _ rest, frames => rest.left (binding.left (f :: frames))

/-- **Every step is in its place**, and no more than `depth` calls are inside one another. -/
def WellFormed (depth : Nat) : CallTree → List Frame → Prop
  | nil, _ => True
  | step s rest, frames => s.IsPlain frames ∧ rest.WellFormed depth frames
  | call f binding shown body ended rest, frames =>
    frames.length < depth ∧
    (binding.WellFormed depth (f :: frames) ∧ binding.IsComplete) ∧
    shown.IsCall f (f :: frames) ∧
    (body.WellFormed depth (f :: frames) ∧ body.IsComplete) ∧
    ended.IsReturn f frames ∧
    rest.WellFormed depth frames
  | cut f binding shown rest, frames =>
    frames.length < depth ∧
    binding.WellFormed depth (f :: frames) ∧
    shown.IsCall f (binding.left (f :: frames)) ∧
    rest.WellFormed depth (binding.left (f :: frames))

/-- For each step the number of calls around it that are just binding their parameters. -/
def unshown : CallTree → List Nat
  | nil => []
  | step _ rest => 0 :: rest.unshown
  | call _ binding _ body _ rest =>
    binding.unshown.map (· + 1) ++ 0 :: body.unshown ++ 0 :: rest.unshown
  | cut _ binding _ rest => binding.unshown.map (· + 1) ++ 0 :: rest.unshown

/-- **No call shows anything while it binds its parameters.** -/
def IsQuiet : CallTree → Prop
  | nil => True
  | step _ rest => rest.IsQuiet
  | call _ binding _ body _ rest => binding.steps = [] ∧ body.IsQuiet ∧ rest.IsQuiet
  | cut _ binding _ rest => binding.steps = [] ∧ rest.IsQuiet

/-- One tree behind another. -/
def append : CallTree → CallTree → CallTree
  | nil, u => u
  | step s rest, u => step s (rest.append u)
  | call f binding shown body ended rest, u => call f binding shown body ended (rest.append u)
  | cut f binding shown rest, u => cut f binding shown (rest.append u)

variable {depth : Nat} {frames : List Frame} {t u : CallTree}

/-! ## Trees one behind another -/

/-- The steps of two trees are those of the first and then of the second. -/
theorem steps_append (t u : CallTree) : (t.append u).steps = t.steps ++ u.steps := by
  induction t with
  | nil => rfl
  | step s rest ih => simp [append, steps, ih]
  | call f binding shown body ended rest _ _ ih => simp [append, steps, ih]
  | cut f binding shown rest _ ih => simp [append, steps, ih]

/-- What the second tree leaves open lies above what the first does. -/
theorem opened_append (t u : CallTree) : (t.append u).opened = u.opened ++ t.opened := by
  induction t with
  | nil => simp [append, opened]
  | step s rest ih => exact ih
  | call f binding shown body ended rest _ _ ih => exact ih
  | cut f binding shown rest _ ih => simp [append, opened, ih]

/-- What two trees leave open is what the second leaves of what the first did. -/
theorem left_append (t u : CallTree) (frames : List Frame) :
    (t.append u).left frames = u.left (t.left frames) := by
  induction t generalizing frames with
  | nil => rfl
  | step s rest ih => exact ih frames
  | call f binding shown body ended rest _ _ ih => exact ih frames
  | cut f binding shown rest _ ih => exact ih _

/-- Trees one behind the other are well formed, if the second begins where the first ends. -/
theorem WellFormed.append (ht : t.WellFormed depth frames)
    (hu : u.WellFormed depth (t.left frames)) : (t.append u).WellFormed depth frames := by
  induction t generalizing frames with
  | nil => exact hu
  | step s rest ih => exact ⟨ht.1, ih ht.2 hu⟩
  | call f binding shown body ended rest _ _ ih =>
    obtain ⟨hlt, hbinding, hshown, hbody, hended, hrest⟩ := ht
    exact ⟨hlt, hbinding, hshown, hbody, hended, ih hrest hu⟩
  | cut f binding shown rest _ ih =>
    obtain ⟨hlt, hbinding, hshown, hrest⟩ := ht
    exact ⟨hlt, hbinding, hshown, ih hrest hu⟩

theorem IsComplete.append (ht : t.IsComplete) (hu : u.IsComplete) : (t.append u).IsComplete := by
  rw [IsComplete, opened_append, ht, hu]
  rfl

/-- Calls that have returned leave the frames as they were. -/
theorem IsComplete.left_eq (ht : t.IsComplete) (frames : List Frame) : t.left frames = frames := by
  induction t with
  | nil => rfl
  | step s rest ih => exact ih ht
  | call f binding shown body ended rest _ _ ih => exact ih ht
  | cut f binding shown rest _ _ => simp [IsComplete, opened] at ht

/-- Each call that has not returned keeps its frame. -/
theorem length_left (t : CallTree) (frames : List Frame) :
    (t.left frames).length = frames.length + t.opened.length := by
  induction t generalizing frames with
  | nil => rfl
  | step s rest ih => exact ih frames
  | call f binding shown body ended rest _ _ ih => exact ih frames
  | cut f binding shown rest ihb ihr =>
    simp only [left, opened, ihr, ihb, List.length_append, List.length_cons]
    omega

/-- No picture shows more calls than there may be. -/
theorem WellFormed.length_le (ht : t.WellFormed depth frames) (hlen : frames.length ≤ depth) :
    (t.left frames).length ≤ depth ∧ ∀ s ∈ t.steps, s.callStack.length ≤ depth := by
  induction t generalizing frames with
  | nil => exact ⟨hlen, nofun⟩
  | step s rest ih =>
    obtain ⟨hs, hrest⟩ := ht
    obtain ⟨hleft, hsteps⟩ := ih hrest hlen
    refine ⟨hleft, List.forall_mem_cons.mpr ⟨?_, hsteps⟩⟩
    rwa [hs.stack, List.length_reverse]
  | call f binding shown body ended rest ihb ihd ih =>
    obtain ⟨hlt, ⟨hbinding, -⟩, hshown, ⟨hbody, -⟩, hended, hrest⟩ := ht
    obtain ⟨hleft, hsteps⟩ := ih hrest hlen
    have hshown : shown.callStack.length ≤ depth := by
      rwa [hshown.stack, List.length_reverse]
    have hended : ended.callStack.length ≤ depth := by
      rwa [hended.stack, List.length_reverse]
    refine ⟨hleft, fun s hs => ?_⟩
    simp only [steps, List.mem_append, List.mem_cons] at hs
    rcases hs with (hs | rfl | hs) | rfl | hs
    · exact (ihb hbinding hlt).2 s hs
    · exact hshown
    · exact (ihd hbody hlt).2 s hs
    · exact hended
    · exact hsteps s hs
  | cut f binding shown rest ihb ih =>
    obtain ⟨hlt, hbinding, hshown, hrest⟩ := ht
    obtain ⟨hopen, hin⟩ := ihb hbinding hlt
    obtain ⟨hleft, hsteps⟩ := ih hrest hopen
    have hshown : shown.callStack.length ≤ depth := by
      rwa [hshown.stack, List.length_reverse]
    refine ⟨hleft, fun s hs => ?_⟩
    simp only [steps, List.mem_append, List.mem_cons] at hs
    rcases hs with hs | rfl | hs
    · exact hin s hs
    · exact hshown
    · exact hsteps s hs

/-- The last step of a tree behind another step. -/
theorem getLast_cons {s s' : Step} (hs : (s' :: t.steps).getLast? = some s) :
    (t = nil ∧ s = s') ∨ t.steps.getLast? = some s := by
  cases t with
  | nil =>
    cases hs
    exact .inl ⟨rfl, rfl⟩
  | step | call | cut =>
    right
    simpa [steps, List.getLast?_cons] using hs

/-- The last picture shows the frames at the end. -/
theorem WellFormed.last (ht : t.WellFormed depth frames) {s : Step}
    (hs : t.steps.getLast? = some s) : s.callStack = (t.left frames).reverse := by
  induction t generalizing frames with
  | nil => cases hs
  | step s' rest ih =>
    obtain ⟨hs', hrest⟩ := ht
    rcases getLast_cons hs with ⟨rfl, rfl⟩ | hs
    · exact hs'.stack
    · exact ih hrest hs
  | call f binding shown body ended rest _ _ ih =>
    obtain ⟨-, -, -, -, hended, hrest⟩ := ht
    rw [steps, List.getLast?_append_of_ne_nil _ (List.cons_ne_nil _ _)] at hs
    rcases getLast_cons hs with ⟨rfl, rfl⟩ | hs
    · exact hended.stack
    · exact ih hrest hs
  | cut f binding shown rest _ ih =>
    obtain ⟨-, -, hshown, hrest⟩ := ht
    rw [steps, List.getLast?_append_of_ne_nil _ (List.cons_ne_nil _ _)] at hs
    rcases getLast_cons hs with ⟨rfl, rfl⟩ | hs
    · exact hshown.stack
    · exact ih hrest hs

end CallTree

/-! ## Pushing at calls and popping at returns -/

/-- **A reader of steps** pushes each call and pops, at each return, the call that it ends. -/
inductive Scan : List Step → List Step → List Step → Prop
  | done {stack : List Step} : Scan stack [] stack
  | push {stack stack' : List Step} {s : Step} {ss : List Step} (hs : s.kind = .functionCall)
    (h : Scan (s :: stack) ss stack') : Scan stack (s :: ss) stack'
  | pop {stack stack' : List Step} {c s : Step} {ss : List Step} (hs : s.kind = .functionReturn)
    (hends : s.Ends c) (h : Scan stack ss stack') : Scan (c :: stack) (s :: ss) stack'
  | skip {stack stack' : List Step} {s : Step} {ss : List Step} (hcall : s.kind ≠ .functionCall)
    (hreturn : s.kind ≠ .functionReturn) (h : Scan stack ss stack') : Scan stack (s :: ss) stack'

/-- Two stretches of steps can be scanned one behind the other. -/
theorem Scan.append {stack stack₁ stack₂ ss₁ ss₂ : List Step} (h₁ : Scan stack ss₁ stack₁)
    (h₂ : Scan stack₁ ss₂ stack₂) : Scan stack (ss₁ ++ ss₂) stack₂ := by
  induction h₁ with
  | done => exact h₂
  | push hs _ ih => exact .push hs (ih h₂)
  | pop hs hends _ ih => exact .pop hs hends (ih h₂)
  | skip hcall hreturn _ ih => exact .skip hcall hreturn (ih h₂)

/-- A reader is left with the calls that have not returned. -/
theorem Scan.length_eq {stack stack' ss : List Step} (h : Scan stack ss stack') :
    stack'.length + ss.countP (·.kind = .functionReturn) =
      stack.length + ss.countP (·.kind = .functionCall) := by
  induction h with
  | done => rfl
  | push hs _ ih => grind
  | pop hs _ _ ih => grind
  | skip hcall hreturn _ ih => grind

namespace CallTree

variable {depth : Nat} {frames : List Frame} {t : CallTree}

/-- **A reader of a call tree** never fails, and is left with the calls that have not returned. -/
theorem WellFormed.scan (ht : t.WellFormed depth frames) (stack : List Step) :
    Scan stack t.steps (t.opened ++ stack) := by
  induction t generalizing frames stack with
  | nil => exact .done
  | step s rest ih => exact .skip ht.1.noCall ht.1.noReturn (ih ht.2 stack)
  | call f binding shown body ended rest ihb ihd ih =>
    obtain ⟨-, ⟨hbinding, hb⟩, hshown, ⟨hbody, hd⟩, hended, hrest⟩ := ht
    have hscanb := ihb hbinding stack
    rw [hb, List.nil_append] at hscanb
    have hscand := ihd hbody (shown :: stack)
    rw [hd, List.nil_append] at hscand
    have hpop := Scan.pop hended.kind ⟨f, frames, hshown, hended⟩ (ih hrest stack)
    rw [steps, List.append_assoc]
    exact hscanb.append (.push hshown.kind (hscand.append hpop))
  | cut f binding shown rest ihb ih =>
    obtain ⟨-, hbinding, hshown, hrest⟩ := ht
    have hscan := (ihb hbinding stack).append (.push hshown.kind (ih hrest _))
    rwa [steps, opened, List.append_assoc]

end CallTree

/-! ## Counting calls and returns -/

/-- The calls among steps less the returns. -/
def balance (ss : List Step) : Int := (ss.map Step.weight).sum

@[simp] theorem balance_nil : balance [] = 0 := rfl

@[simp] theorem balance_cons (s : Step) (ss : List Step) :
    balance (s :: ss) = s.weight + balance ss := List.sum_cons

@[simp] theorem balance_append (ss ss' : List Step) :
    balance (ss ++ ss') = balance ss + balance ss' := by
  simp [balance]

/-- The balance counts the steps of the two kinds. -/
theorem balance_eq (ss : List Step) :
    balance ss = ss.countP (·.kind = .functionCall) - ss.countP (·.kind = .functionReturn) := by
  induction ss with
  | nil => rfl
  | cons s ss ih =>
    rw [balance_cons, ih, List.countP_cons, List.countP_cons]
    cases hk : s.kind
    all_goals simp [Step.weight, hk]
    all_goals omega

/-- **The frames in each picture** are those that the calls and returns up to it leave of `open`
frames, and as many more as the list beside the steps says. -/
def Tallies : Int → List Step → List Nat → Prop
  | _, [], [] => True
  | n, s :: ss, e :: es =>
    (s.callStack.length : Int) = n + s.weight + e ∧ Tallies (n + s.weight) ss es
  | _, _, _ => False

namespace Tallies

variable {n : Int} {ss ss' : List Step} {es es' : List Nat}

/-- Two stretches of steps tally one behind the other. -/
theorem append (h : Tallies n ss es) (h' : Tallies (n + balance ss) ss' es') :
    Tallies n (ss ++ ss') (es ++ es') := by
  induction ss generalizing n es with
  | nil =>
    cases es with
    | nil => simpa using h'
    | cons => exact h.elim
  | cons s ss ih =>
    cases es with
    | nil => exact h.elim
    | cons e es =>
      refine ⟨h.1, ih h.2 ?_⟩
      rwa [balance_cons, ← add_assoc] at h'

/-- One frame less to begin with is one more in each picture. -/
theorem shift (h : Tallies (n + 1) ss es) : Tallies n ss (es.map (· + 1)) := by
  induction ss generalizing n es with
  | nil =>
    cases es with
    | nil => trivial
    | cons => exact h.elim
  | cons s ss ih =>
    cases es with
    | nil => exact h.elim
    | cons e es =>
      obtain ⟨hs, hrest⟩ := h
      refine ⟨by rw [hs]; push_cast; omega, ih ?_⟩
      rwa [add_right_comm]

/-- There is one early call counted for each step. -/
theorem length_eq (h : Tallies n ss es) : es.length = ss.length := by
  induction ss generalizing n es with
  | nil =>
    cases es with
    | nil => rfl
    | cons => exact h.elim
  | cons s ss ih =>
    cases es with
    | nil => exact h.elim
    | cons e es => exact congrArg (· + 1) (ih h.2)

/-- The stack of a step counts the calls shown before it and those still to be shown. -/
theorem getElem (h : Tallies n ss es) {i : Nat} (hi : i < ss.length) :
    ∃ e, es[i]? = some e ∧
      ((ss[i]).callStack.length : Int) = n + balance (ss.take (i + 1)) + e := by
  induction ss generalizing n es i with
  | nil => exact absurd hi (Nat.not_lt_zero i)
  | cons s ss ih =>
    cases es with
    | nil => exact h.elim
    | cons e es =>
      obtain ⟨hs, hrest⟩ := h
      cases i with
      | zero => exact ⟨e, rfl, by simpa using hs⟩
      | succ i =>
        obtain ⟨e', he', hlen⟩ := ih hrest (Nat.lt_of_succ_lt_succ hi)
        refine ⟨e', he', ?_⟩
        rw [List.take_succ_cons, balance_cons, ← add_assoc]
        exact hlen

end Tallies

namespace CallTree

variable {depth : Nat} {frames : List Frame} {t : CallTree}

/-- The balance of a tree is the number of its calls that have not returned. -/
theorem WellFormed.balance_eq (ht : t.WellFormed depth frames) :
    balance t.steps = t.opened.length := by
  induction t generalizing frames with
  | nil => rfl
  | step s rest ih => simp [steps, opened, ht.1.weight_eq, ih ht.2]
  | call f binding shown body ended rest ihb ihd ih =>
    obtain ⟨-, ⟨hbinding, hb⟩, hshown, ⟨hbody, hd⟩, hended, hrest⟩ := ht
    have hbalb := ihb hbinding
    have hbald := ihd hbody
    rw [hb] at hbalb
    rw [hd] at hbald
    simp [steps, opened, hshown.weight_eq, hended.weight_eq, hbalb, hbald, ih hrest]
  | cut f binding shown rest ihb ih =>
    obtain ⟨-, hbinding, hshown, hrest⟩ := ht
    simp only [steps, opened, balance_append, balance_cons, hshown.weight_eq, ihb hbinding,
      ih hrest, List.length_append, List.length_cons]
    omega

/-- **The pictures in a call tree** show the calls that have not returned and those that are just
binding their parameters. -/
theorem WellFormed.tallies (ht : t.WellFormed depth frames) :
    Tallies frames.length t.steps t.unshown := by
  induction t generalizing frames with
  | nil => trivial
  | step s rest ih =>
    obtain ⟨hs, hrest⟩ := ht
    refine ⟨by simp [hs.stack, hs.weight_eq], ?_⟩
    rw [hs.weight_eq, add_zero]
    exact ih hrest
  | call f binding shown body ended rest ihb ihd ih =>
    obtain ⟨-, ⟨hbinding, hb⟩, hshown, ⟨hbody, hd⟩, hended, hrest⟩ := ht
    have hbalb : balance binding.steps = 0 := by rw [hbinding.balance_eq, hb]; rfl
    have hbald : balance body.steps = 0 := by rw [hbody.balance_eq, hd]; rfl
    have hopen : ((f :: frames).length : Int) = frames.length + 1 := by simp
    have h₁ : Tallies frames.length binding.steps (binding.unshown.map (· + 1)) :=
      (hopen ▸ ihb hbinding).shift
    have h₂ : Tallies (frames.length + balance binding.steps) (shown :: body.steps)
        (0 :: body.unshown) := by
      rw [hbalb, add_zero]
      refine ⟨by simp [hshown.stack, hshown.weight_eq], ?_⟩
      rw [hshown.weight_eq, ← hopen]
      exact ihd hbody
    have h₃ : Tallies (frames.length + balance (binding.steps ++ shown :: body.steps))
        (ended :: rest.steps) (0 :: rest.unshown) := by
      rw [balance_append, balance_cons, hbalb, hbald, hshown.weight_eq]
      refine ⟨by simp [hended.stack, hended.weight_eq], ?_⟩
      rw [hended.weight_eq, zero_add, add_zero, add_neg_cancel_right]
      exact ih hrest
    exact (h₁.append h₂).append h₃
  | cut f binding shown rest ihb ih =>
    obtain ⟨-, hbinding, hshown, hrest⟩ := ht
    have hopen : ((f :: frames).length : Int) = frames.length + 1 := by simp
    have h₁ : Tallies frames.length binding.steps (binding.unshown.map (· + 1)) :=
      (hopen ▸ ihb hbinding).shift
    have hleft : ((binding.left (f :: frames)).length : Int) =
        frames.length + balance binding.steps + 1 := by
      rw [length_left, hbinding.balance_eq, List.length_cons]
      omega
    refine h₁.append ⟨?_, ?_⟩
    · rw [hshown.stack, List.length_reverse, hleft, hshown.weight_eq]
      omega
    · rw [hshown.weight_eq, ← hleft]
      exact ih hrest

/-- Nothing is shown while parameters are bound if nothing is counted then. -/
theorem steps_eq_nil_iff (t : CallTree) : t.steps = [] ↔ ∀ e ∈ t.unshown.map (· + 1), e = 0 := by
  have hnil : t.steps = [] ↔ t.unshown = [] := by
    cases t
    all_goals simp [unshown, steps]
  rw [hnil]
  simp [List.eq_nil_iff_forall_not_mem]

/-- A tree is quiet if no call around any of its steps is just binding its parameters. -/
theorem isQuiet_iff : t.IsQuiet ↔ ∀ e ∈ t.unshown, e = 0 := by
  induction t with
  | nil => simp [IsQuiet, unshown]
  | step s rest ih => simp [IsQuiet, unshown, ih]
  | call f binding shown body ended rest _ ihd ih =>
    simp only [IsQuiet, unshown, steps_eq_nil_iff, ihd, ih, List.forall_mem_append,
      List.forall_mem_cons, true_and, and_assoc]
  | cut f binding shown rest _ ih =>
    simp only [IsQuiet, unshown, steps_eq_nil_iff, ih, List.forall_mem_append,
      List.forall_mem_cons, true_and]

end CallTree

end ScriptTrace
