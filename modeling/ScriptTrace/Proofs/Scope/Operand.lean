import ScriptTrace.Proofs.CallTrace
import ScriptTrace.Proofs.Compositional
import ScriptTrace.Proofs.Growth

/-!
# Proofs/Scope/Operand — operands stay in the scope where they began

The expressions and patterns in a statement never go to another scope themselves.  The functions
that they call do, behind frames of their own, and go back when the frame is popped.  So all that is
shown while no such call is in progress is seen from the scope in which the machine was at first. -/

namespace ScriptTrace

/-! ## Steps in the midst of frames -/

/-- In a call tree no step has fewer frames than the tree begins with. -/
theorem CallTree.WellFormed.length_stack_le {depth : Nat} : ∀ {t : CallTree} {frames : List Frame},
    t.WellFormed depth frames → ∀ s ∈ t.steps, frames.length ≤ s.callStack.length
  | .nil, _, _, _, hs => absurd hs List.not_mem_nil
  | .step s₀ rest, frames, ⟨hplain, hrest⟩, s, hs => by
    obtain rfl | hs := List.mem_cons.mp hs
    · rw [hplain.stack, List.length_reverse]
    · exact hrest.length_stack_le s hs
  | .call f binding shown body ended rest, frames, ht, s, hs => by
    obtain ⟨-, ⟨hbinding, -⟩, hshown, ⟨hbody, -⟩, hended, hrest⟩ := ht
    have hdeeper : frames.length ≤ (f :: frames).length := Nat.le_succ _
    simp only [steps, List.mem_append, List.mem_cons] at hs
    obtain (hs | rfl | hs) | rfl | hs := hs
    · exact hdeeper.trans (hbinding.length_stack_le s hs)
    · rwa [hshown.stack, List.length_reverse]
    · exact hdeeper.trans (hbody.length_stack_le s hs)
    · rw [hended.stack, List.length_reverse]
    · exact hrest.length_stack_le s hs
  | .cut f binding shown rest, frames, ht, s, hs => by
    obtain ⟨-, hbinding, hshown, hrest⟩ := ht
    have hleft : frames.length ≤ (binding.left (f :: frames)).length := by
      rw [CallTree.length_left, List.length_cons]
      omega
    simp only [steps, List.mem_append, List.mem_cons] at hs
    obtain hs | rfl | hs := hs
    · exact (Nat.le_succ _).trans (hbinding.length_stack_le s hs)
    · rwa [hshown.stack, List.length_reverse]
    · exact hleft.trans (hrest.length_stack_le s hs)

/-! ## What is seen from a scope -/

/-- A step recorded from a scope on the way from a machine to a later one. -/
def Step.IsFrom (s : Step) (scope : ScopeId) (m m' : Machine) : Prop :=
  ∃ m₁, m.Grows m₁ ∧ s = m₁.view scope s.line s.kind s.description ∧
    (m₁.recorded scope s.line s.kind s.description).Grows m'

/-- **A machine and a later one, with one scope between them**: all that is shown on the way while
no call is in progress is seen from the scope of the first machine, and the later one is in this
scope again unless a fault cut a call short. -/
structure Machine.Stays (m : Machine) (f : Option Fault) (m' : Machine) : Prop where
  grows : m.Grows m'
  shows : ∃ shown, m'.steps.toList = m.steps.toList ++ shown ∧
    ∀ s ∈ shown, s.callStack = m.frames.reverse → s.IsFrom m.scope m m'
  returns : (∀ g, f = some g → g.isThrown = true) → m'.scope = m.scope ∧ m'.frames = m.frames

theorem Step.IsFrom.widen {s : Step} {scope : ScopeId} {m₀ m m' m'' : Machine}
    (h : s.IsFrom scope m m') (h₀ : m₀.Grows m) (h' : m'.Grows m'') : s.IsFrom scope m₀ m'' := by
  obtain ⟨m₁, hbefore, hview, hbehind⟩ := h
  exact ⟨m₁, h₀.trans hbefore, hview, hbehind.trans h'⟩

namespace Machine.Stays

variable {m m₁ m' : Machine} {f : Option Fault}

/-- Nothing is shown. -/
theorem idle (hg : m.Grows m') (hs : m'.steps = m.steps) (hscope : m'.scope = m.scope)
    (hf : m'.frames = m.frames) : m.Stays f m' :=
  ⟨hg, ⟨[], by rw [hs, List.append_nil], nofun⟩, fun _ => ⟨hscope, hf⟩⟩

theorem refl (m : Machine) : m.Stays f m := idle (.refl m) rfl rfl rfl

/-- A scope is made, but not entered. -/
theorem pushed {s : Scope} : m.Stays f { m with scopes := m.scopes.push s } :=
  idle (.of_store rfl (.refl .refl _) (Machine.Grows.scopes_push ..) le_rfl le_rfl) rfl rfl rfl

/-- A step seen from the scope. -/
theorem recorded {line : Nat} {kind : StepKind} {description : String} (hg : m.Grows m₁)
    (hs : m₁.steps = m.steps) (hscope : m₁.scope = m.scope) (hf : m₁.frames = m.frames) :
    m.Stays f (m₁.recorded m₁.scope line kind description) := by
  refine ⟨hg.shown, ⟨[m₁.view m₁.scope line kind description], ?_, fun s hs _ => ?_⟩,
    fun _ => ⟨hscope, hf⟩⟩
  · rw [Machine.recorded, Array.toList_push, hs]
  · cases List.mem_singleton.mp hs
    exact ⟨m₁, hg, by rw [hscope]; rfl, by rw [hscope]; exact .refl _⟩

/-- An operand stays where it is through two stretches. -/
theorem trans (h : m.Stays none m₁) (h₁ : m₁.Stays f m') : m.Stays f m' := by
  obtain ⟨hscope, hframes⟩ := h.returns nofun
  obtain ⟨shown, hshown, hfrom⟩ := h.shows
  obtain ⟨shown₁, hshown₁, hfrom₁⟩ := h₁.shows
  refine ⟨h.grows.trans h₁.grows, ⟨shown ++ shown₁, ?_, fun s hs hstack => ?_⟩, fun hf => ?_⟩
  · rw [hshown₁, hshown, List.append_assoc]
  · obtain hs | hs := List.mem_append.mp hs
    · exact (hfrom s hs hstack).widen (.refl m) h₁.grows
    · exact hscope ▸ (hfrom₁ s hs (hframes ▸ hstack)).widen h.grows (.refl m')
  · obtain ⟨hscope₁, hframes₁⟩ := h₁.returns hf
    exact ⟨hscope₁.trans hscope, hframes₁.trans hframes⟩

theorem caught {t : Thrown} (h : m.Stays (some t.fault) m') : m.Stays none m' :=
  ⟨h.grows, h.shows, fun _ => h.returns fun _ hg => Option.some.inj hg ▸ rfl⟩

/-- **Nothing that happens at once in an operand** goes to another scope. -/
theorem effect {W : World} (h : Effect .operand W m f m') : m.Stays f m' := by
  have hg : m.Grows m' := .effect h
  cases h with
  | enter _ hr | record _ _ hr => exact absurd rfl hr.ne_operand
  | recordHere => exact recorded (.refl m) rfl rfl rfl
  | @print e =>
    have hprint : m.Grows { m with console := m.console.push e } := .of_eq rfl rfl rfl le_rfl le_rfl
    exact recorded hprint rfl rfl rfl
  | enterPhase h | showMacrotask h | takeMicrotask h | takeCallback h | moveTimers h => cases h
  | _ => exact idle hg rfl rfl rfl

end Machine.Stays

/-! ## Calls -/

/-- What binds parameters and runs a body is shown behind the frame of the call. -/
theorem Traced.Begun.length_stack_le {m m' : Machine} {c : Closure} {line : Nat} {f : Option Fault}
    (h : Traced.Begun m c line f m') : ∃ shown, m'.steps.toList = m.steps.toList ++ shown ∧
      ∀ s ∈ shown, m.frames.length ≤ s.callStack.length := by
  obtain ⟨binding, body, s₀, hbinding, hcall, hbody, hsteps, -, -⟩ := h.parts
  have hleft : m.frames.length ≤ (binding.left m.frames).length := by
    rw [CallTree.length_left]
    omega
  refine ⟨_, hsteps, fun s hs => ?_⟩
  obtain hs | hs := List.mem_append.mp hs
  · exact hbinding.length_stack_le s hs
  · obtain rfl | hs := List.mem_cons.mp hs
    · rwa [hcall.stack, List.length_reverse]
    · exact hleft.trans (hbody.length_stack_le s hs)

/-- A call that ran to its end leaves its frame only. -/
theorem Traced.Begun.frames_eq {m m' : Machine} {c : Closure} {line : Nat} {f : Option Fault}
    (h : Traced.Begun m c line f m') (hf : ∀ g, f = some g → g.isThrown = true) :
    m'.frames = m.frames := by
  obtain ⟨binding, body, -, -, -, -, -, hframes, hend⟩ := h.parts
  obtain ⟨hbinding, hbody⟩ := hend.resolve_right (Traced.not_final hf)
  rw [hframes, hbody.left_eq, hbinding.left_eq]

namespace Machine.Stays

variable {m m₀ m₁ : Machine} {c : Closure} {line : Nat} {f : Option Fault} {frame : Frame}

/-- A call that a fault cut short. -/
theorem of_cut {g : Fault} (hg : g.isThrown = false) (hgrows : m.Grows m₁)
    (h : Traced.Begun m₀ c line (some g) m₁) (hs : m₀.steps = m.steps)
    (hf : m₀.frames = frame :: m.frames) : m.Stays (some g) m₁ := by
  obtain ⟨shown, hshown, hstack⟩ := h.length_stack_le
  refine ⟨hgrows, ⟨shown, by rw [hshown, hs], fun s hmem hout => ?_⟩, fun hthrown => ?_⟩
  · have hle := hstack s hmem
    rw [hout, hf, List.length_reverse, List.length_cons] at hle
    omega
  · rw [hthrown g rfl] at hg
    cases hg

/-- A call that is over: the step that shows its end is seen from the scope of the caller. -/
theorem of_return {description : String} {g : Option Fault}
    (hfault : ∀ g, f = some g → g.isThrown = true) (hgrows : m.Grows m₁)
    (h : Traced.Begun m₀ c line f m₁) (hs : m₀.steps = m.steps)
    (hf : m₀.frames = frame :: m.frames) :
    m.Stays g ({ m₁ with frames := m₁.frames.tail, scope := m.scope }.recorded m.scope line
      .functionReturn description) := by
  obtain ⟨shown, hshown, hstack⟩ := h.length_stack_le
  have hframes : m₁.frames.tail = m.frames := by rw [h.frames_eq hfault, hf, List.tail_cons]
  have hpopped : m.Grows { m₁ with frames := m₁.frames.tail, scope := m.scope } :=
    hgrows.trans (.of_eq rfl rfl rfl le_rfl le_rfl)
  have hback : m.Stays none { m₁ with frames := m₁.frames.tail, scope := m.scope } := by
    refine ⟨hpopped, ⟨shown, hshown.trans (by rw [hs]), fun s hmem hout => ?_⟩,
      fun _ => ⟨rfl, hframes⟩⟩
    have hle := hstack s hmem
    rw [hout, hf, List.length_reverse, List.length_cons] at hle
    omega
  exact hback.trans (recorded (.refl _) rfl rfl rfl)

/-- What a call does in its scope, whatever becomes of it. -/
theorem of_begun {x : Exec Value} (hgrows : m.Grows (x.after m₀))
    (h : Traced.Begun m₀ c line (x.faultOf m₀) (x.after m₀)) (hs : m₀.steps = m.steps)
    (hf : m₀.frames = frame :: m.frames) :
    m.Stays ((Exec.catchThrown x >>= Evaluator.endCall c m.scope line).faultOf m₀)
      ((Exec.catchThrown x >>= Evaluator.endCall c m.scope line).after m₀) := by
  cases hx : x m₀ with
  | ok v m₁ =>
    rw [Exec.faultOf_of_ok hx, Exec.after_of_ok hx] at h
    rw [Exec.after_of_ok hx] at hgrows
    have hend := (Exec.bind_of_ok (Exec.catchThrown_of_ok hx)).trans
      (Traced.endCall_of_ok c m.scope line v m₁)
    rw [Exec.faultOf_of_ok hend, Exec.after_of_ok hend]
    exact of_return (fun _ hg => by cases hg) hgrows h hs hf
  | error g m₁ =>
    rw [Exec.faultOf_of_error hx, Exec.after_of_error hx] at h
    rw [Exec.after_of_error hx] at hgrows
    cases hg : g.isThrown with
    | true =>
      obtain ⟨t, rfl⟩ := Exec.fault_of_isThrown hg
      have hend := (Exec.bind_of_ok (Exec.catchThrown_of_thrown hx)).trans
        (Traced.endCall_of_error c m.scope line t m₁)
      rw [Exec.faultOf_of_error hend, Exec.after_of_error hend]
      exact of_return (fun _ hf => Option.some.inj hf ▸ hg) hgrows h hs hf
    | false =>
      have hend : (Exec.catchThrown x >>= Evaluator.endCall c m.scope line) m₀ = .error g m₁ :=
        Exec.bind_of_error (Exec.catchThrown_of_error hx hg)
      rw [Exec.faultOf_of_error hend, Exec.after_of_error hend]
      exact of_cut hg hgrows h hs hf

end Machine.Stays

theorem Machine.Grows.callScope {id : ObjectId} {c : Closure} {this : Value} {scope : ScopeId}
    {m m' : Machine} (h : Evaluator.callScope id c this m = .ok scope m') : m.Grows m' := by
  have hmade := ((growing_stepwise .loop).routine (.bounded 0) (.callScope
    (Set.mem_univ (Entity.object id)) (within_univ c) (within_univ this))).moves_of_univ m
  rwa [Exec.after_of_ok h] at hmade

/-- A call only adds to the machine. -/
theorem Machine.Grows.runCall (fuel : Nat) (scope : ScopeId) (c : Closure) (args : List Value)
    (shown : String) (line : Nat) (m : Machine) :
    m.Grows (((Evaluator.bounded fuel).runCall scope c args shown line).after m) := by
  have hgrowing := growing_stepwise .loop
  have hkeeps {α : Type} {W : World} {x : Evaluator → Exec α} {Q : World → α → Prop}
      (hx : Action .loop W x Q) :
      (Invariant.ofMoves fun m _ m' => m.Grows m').Keeps W (x (.bounded fuel)) Q :=
    hx.keeps hgrowing.lawful (Evaluator.keeps_bounded hgrowing.lawful fuel)
  have hs := sees_univ scope
  refine (hgrowing.routine (.bounded fuel) (.runCall hs ?_ fun _ hW => ?_)).moves_of_univ m
  · exact hkeeps (.bindArguments hs (within_univ args))
  · exact hkeeps (.runBody (hs.mono hW))

/-- **A call goes back to the scope of its caller.** -/
theorem Machine.Stays.invoke (fuel : Nat) (id : ObjectId) (c : Closure) (this : Value)
    (args : List Value) (line : Nat) (m : Machine) :
    m.Stays (((Evaluator.bounded fuel).invoke id c this args line).faultOf m)
      (((Evaluator.bounded fuel).invoke id c this args line).after m) := by
  have htraced {α : Type} {x : Evaluator → Exec α} {Q : World → α → Prop}
      (hx : Action .loop Set.univ x Q) (m : Machine) :
      Traced m ((x (.bounded fuel)).faultOf m) ((x (.bounded fuel)).after m) :=
    hx.moves (traced_lawful .loop) m
  rcases Traced.invoke_cases id c this args line m with
    ⟨g, hg, hinvoke⟩ | ⟨-, scope, m₀, hscope, hinvoke⟩
  · rw [Exec.faultOf_of_error (hinvoke _), Exec.after_of_error (hinvoke _)]
    exact idle (.of_eq rfl rfl rfl le_rfl (Nat.le_succ _)) rfl rfl rfl
  · obtain ⟨_, _, hscope', -, hs, hf⟩ := Traced.callScope_leaves id c this
      { m with work := m.work + 1, frames := ⟨c.title, line⟩ :: m.frames }
    cases hscope.symm.trans hscope'
    have hpushed : m.Grows
        { m with work := m.work + 1, frames := ⟨c.title, line⟩ :: m.frames } :=
      .of_eq rfl rfl rfl le_rfl (Nat.le_succ _)
    have hgrows := hpushed.trans (.callScope hscope)
    rw [Exec.faultOf_congr (hinvoke _), Exec.after_congr (hinvoke _)]
    refine of_begun (hgrows.trans (.runCall ..)) (Traced.runCall ?_ ?_ m₀) hs hf
    · exact htraced (.bindArguments (sees_univ scope) (within_univ args))
    · exact htraced (.runBody (sees_univ scope))

/-! ## Every operand -/

/-- **Operands**: expressions, patterns that are written to, and calls. -/
def Work.IsOperand {α : Type} : Work α → Prop
  | .expr .. | .bind .. | .apply .. => True
  | _ => False

/-- An operand needs no world of its own. -/
theorem Work.IsOperand.fits {α : Type} {w : Work α} (hw : w.IsOperand) :
    w.Fits .operand Set.univ := by
  cases w with
  | expr => exact ⟨inferInstance, sees_univ _⟩
  | bind => exact ⟨inferInstance, sees_univ _, within_univ _⟩
  | apply => exact ⟨within_univ _, within_univ _, within_univ _⟩
  | _ => exact hw.elim

theorem Work.Fits.isOperand {W : World} {α : Type} {w : Work α} (hw : w.Fits .operand W) :
    w.IsOperand := by
  cases w with
  | expr | bind | apply => trivial
  | statement | whileLoop | doLoop | forLoop => exact (hw.2.1.ne_operand rfl).elim
  | microtasks | macrotasks => cases hw

/-- An operand is made of what may be done in operands. -/
theorem Action.operand {W : World} {α : Type} {w : Work α} (hw : w.Fits .operand W) :
    Action .operand W (fun ev => ev.step w) fun W' a => w.Yields W' a := by
  cases w with
  | expr => exact evalExpr hw.2
  | bind => exact bindPattern hw.2.1 hw.2.2
  | apply => exact applyValue hw.1 hw.2.1 hw.2.2
  | statement | whileLoop | doLoop | forLoop => exact (hw.2.1.ne_operand rfl).elim
  | microtasks | macrotasks => cases hw

/-- To stay in a scope, as an invariant. -/
theorem stays_composes : (Invariant.ofMoves Machine.Stays).Composes .operand :=
  .of_effects (Invariant.safe_ofMoves _) (fun _ => .refl _) .trans .caught fun _ => .effect

/-- An action that stays in the scope where it began; all its results have a property. -/
abbrev Remains (fuel : Nat) {α : Type} (x : Evaluator → Exec α) (P : α → Prop) : Prop :=
  (Invariant.ofMoves Machine.Stays).Keeps Set.univ (x (.bounded fuel)) fun _ => P

/-- All that is done in operands stays there if requests do. -/
theorem remains_compositional {fuel : Nat}
    (heval : ∀ {α : Type} (w : Work α), w.IsOperand →
      Remains fuel (fun ev => ev.run w) (w.Yields Set.univ)) :
    Compositional .operand (Remains fuel) where
  pure ha := stays_composes.pure ha
  elementary h := (stays_composes.elementary h).weaken fun _ _ _ ha => ha.1
  bind hx hk := stays_composes.bind hx fun W' hW a ha => Set.univ_subset_iff.mp hW ▸ hk a ha
  weaken hx h := hx.weaken fun _ _ => h
  allocate _ := Invariant.keeps_of_moves (fun _ => trivial) fun _ =>
    .idle (.of_store rfl (Machine.Grows.objects_add ..) (.refl .refl _) le_rfl le_rfl) rfl rfl rfl
  newScope := Invariant.keeps_of_moves (fun _ => trivial) fun _ => .pushed
  copyScope := Invariant.keeps_of_moves (fun _ => trivial) fun _ => .pushed
  eval hw := heval _ hw.isOperand
  catchThrown hx := (stays_composes.catchThrown hx).weaken fun _ _ r hr => by
    cases r with
    | ok => exact hr
    | error t => exact within_univ t
  orElseShow hl _ := absurd rfl hl.ne_operand
  invoke _ _ _ := Invariant.keeps_of_moves (fun _ => within_univ _) (.invoke fuel _ _ _ _ _)

/-- **Operands stay in their scope**, by induction on the fuel. -/
theorem Work.IsOperand.remains : ∀ (fuel : Nat) {α : Type} {w : Work α}, w.IsOperand →
    Remains fuel (fun ev => ev.run w) (w.Yields Set.univ)
  | 0, _, _, _ => stays_composes.exhausted
  | fuel + 1, _, _, hw =>
    (Action.operand hw.fits).has (remains_compositional fun _ hv => hv.remains fuel) rfl

/-- **Operands stay in their scope**, however they end. -/
theorem Work.IsOperand.stays {α : Type} {w : Work α} (hw : w.IsOperand) (fuel : Nat)
    (m : Machine) : m.Stays ((w.exec fuel).faultOf m) ((w.exec fuel).after m) :=
  (hw.remains fuel).moves_of_univ m

end ScriptTrace
