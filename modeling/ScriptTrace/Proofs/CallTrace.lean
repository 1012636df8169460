import ScriptTrace.Proofs.CallTree
import ScriptTrace.Proofs.Invariant

/-!
# Proofs/CallTrace — the trace of a run is a call tree

What an evaluation records between a machine and a later one are the steps of a call tree over the
frames of the first.  Evaluation that ends without a fault or throws leaves no call open; a fault
that no program can catch leaves the frames of all calls that it cut short.
-/

namespace ScriptTrace

/-- **The steps between a machine and a later one** are those of a call tree. -/
structure Traced (m : Machine) (f : Option Fault) (m' : Machine) : Prop where
  limits : m'.limits = m.limits
  tree : ∃ t : CallTree, t.WellFormed m.limits.maxCallDepth m.frames ∧
    m'.steps.toList = m.steps.toList ++ t.steps ∧ m'.frames = t.left m.frames ∧
    (t.IsComplete ∨ ∃ g, f = some g ∧ g.isThrown = false)

namespace Traced

variable {m m₁ m₂ m' : Machine} {f : Option Fault} {g : Fault} {l : Layer} {W : World}

/-- What ends without a fault or throws cuts no call short. -/
theorem not_final (hf : ∀ g, f = some g → g.isThrown = true) :
    ¬ ∃ g, f = some g ∧ g.isThrown = false := by
  rintro ⟨g, hg, hfinal⟩
  have hthrown := hf g hg
  rw [hfinal] at hthrown
  cases hthrown

/-- Nothing is recorded. -/
theorem idle (hl : m'.limits = m.limits) (hs : m'.steps = m.steps) (hf : m'.frames = m.frames) :
    Traced m f m' :=
  ⟨hl, .nil, trivial, by simp [CallTree.steps, hs], hf, .inl rfl⟩

/-- A step other than a call or a return. -/
theorem recorded {scope : ScopeId} {line : Nat} {kind : StepKind} {description : String}
    (hl : m₁.limits = m.limits) (hs : m₁.steps = m.steps) (hf : m₁.frames = m.frames)
    (hc : kind ≠ .functionCall) (hr : kind ≠ .functionReturn) :
    Traced m f (m₁.recorded scope line kind description) := by
  refine ⟨hl, .step (m₁.view scope line kind description) .nil, ⟨⟨hc, hr, ?_⟩, trivial⟩, ?_, hf,
    .inl rfl⟩
  · exact congrArg List.reverse hf
  · simp [Machine.recorded, CallTree.steps, hs]

/-- Two stretches of a run make one, the second of which may end in a fault. -/
theorem trans (h₁ : Traced m none m₁) (h₂ : Traced m₁ f m₂) : Traced m f m₂ := by
  obtain ⟨t, ht, hs, hf, hc⟩ := h₁.tree
  obtain ⟨u, hu, hs', hf', hc'⟩ := h₂.tree
  have ht' : t.IsComplete := hc.resolve_right nofun
  rw [h₁.limits, hf] at hu
  refine ⟨h₂.limits.trans h₁.limits, t.append u, ht.append hu, ?_, ?_, hc'.imp_left ht'.append⟩
  · rw [hs', hs, t.steps_append, List.append_assoc]
  · rw [hf', hf, t.left_append]

theorem caught {t : Thrown} (h : Traced m (some t.fault) m') : Traced m none m' := by
  obtain ⟨u, hu, hs, hf, hc⟩ := h.tree
  have hthrown : ∀ g, some t.fault = some g → g.isThrown = true := by
    rintro g ⟨⟩
    rfl
  exact ⟨h.limits, u, hu, hs, hf, .inl (hc.resolve_right (not_final hthrown))⟩

/-- What ends without a fault leaves the frames as it found them. -/
theorem frames_eq (h : Traced m none m') : m'.frames = m.frames := by
  obtain ⟨t, -, -, hf, hc⟩ := h.tree
  rw [hf, CallTree.IsComplete.left_eq (hc.resolve_right nofun)]

/-- A single effect records at most one step with the calls that are open then. -/
theorem effect (h : Effect l W m f m') : Traced m f m' := by
  cases h with
  | record _ hk | recordHere hk =>
    refine .recorded rfl rfl rfl ?_ ?_
    all_goals
      rintro rfl
      cases hk
  | print | enterPhase | showMacrotask => exact .recorded rfl rfl rfl nofun nofun
  | _ => exact .idle rfl rfl rfl

/-! ## Calls -/

section

variable {ev : Evaluator} {scope caller : ScopeId} {c : Closure} {args : List Value}
  {shown : String} {line : Nat}

/-- **What a call does up to its return**: it binds its parameters, shows itself and runs its body,
unless a fault keeps it from that. -/
structure Begun (m : Machine) (c : Closure) (line : Nat) (f : Option Fault) (m' : Machine) :
    Prop where
  limits : m'.limits = m.limits
  parts : ∃ (binding body : CallTree) (s : Step),
    binding.WellFormed m.limits.maxCallDepth m.frames ∧
    s.IsCall ⟨c.title, line⟩ (binding.left m.frames) ∧
    body.WellFormed m.limits.maxCallDepth (binding.left m.frames) ∧
    m'.steps.toList = m.steps.toList ++ (binding.steps ++ s :: body.steps) ∧
    m'.frames = body.left (binding.left m.frames) ∧
    ((binding.IsComplete ∧ body.IsComplete) ∨ ∃ g, f = some g ∧ g.isThrown = false)

/-- A call is shown behind what its arguments do, and all that its body does stands below it. -/
theorem runCall (hbind : ∀ m, Traced m ((ev.bindArguments scope c.definition args).faultOf m)
      ((ev.bindArguments scope c.definition args).after m))
    (hbody : ∀ m, Traced m ((ev.runBody scope c.definition.body).faultOf m)
      ((ev.runBody scope c.definition.body).after m)) (m : Machine) :
    Begun m c line ((ev.runCall scope c args shown line).faultOf m)
      ((ev.runCall scope c args shown line).after m) := by
  have hshown (m₁ : Machine) (frames : List Frame) (hf : m₁.frames = frames) :
      (m₁.view scope line .functionCall ("Call " ++ c.title ++ "(" ++ shown ++ ")")).IsCall
        ⟨c.title, line⟩ frames := ⟨rfl, rfl, ⟨shown, rfl⟩, congrArg List.reverse hf⟩
  have hb := hbind m
  cases hbm : ev.bindArguments scope c.definition args m with
  | ok u m₁ =>
    rw [Exec.faultOf_of_ok hbm, Exec.after_of_ok hbm] at hb
    obtain ⟨t, ht, hs, hf, hc⟩ := hb.tree
    have ht' : t.IsComplete := hc.resolve_right nofun
    have hd := hbody
      (m₁.recorded scope line .functionCall ("Call " ++ c.title ++ "(" ++ shown ++ ")"))
    obtain ⟨u, hu, hs', hf', hc'⟩ := hd.tree
    have hu' : u.WellFormed m.limits.maxCallDepth (t.left m.frames) := by
      rw [← hb.limits, ← hf]
      exact hu
    have hrun : ev.runCall scope c args shown line m = ev.runBody scope c.definition.body _ :=
      Exec.bind_of_ok (Exec.followedBy_of_ok hbm)
    rw [Exec.faultOf_congr hrun, Exec.after_congr hrun]
    refine ⟨hd.limits.trans hb.limits, t, u, _, ht, hshown m₁ _ hf, hu', ?_, ?_, ?_⟩
    · rw [hs']
      simp [Machine.recorded, hs]
    · rw [hf']
      exact congrArg u.left hf
    · exact hc'.imp_left fun h => ⟨ht', h⟩
  | error g m₁ =>
    rw [Exec.faultOf_of_error hbm, Exec.after_of_error hbm] at hb
    obtain ⟨t, ht, hs, hf, hc⟩ := hb.tree
    have hrun : ev.runCall scope c args shown line m = .error g _ :=
      Exec.bind_of_error (Exec.followedBy_of_error hbm)
    rw [Exec.faultOf_of_error hrun, Exec.after_of_error hrun]
    refine ⟨hb.limits, t, .nil, _, ht, hshown m₁ _ hf, trivial, ?_, hf, ?_⟩
    · simp [Machine.recorded, CallTree.steps, hs]
    · exact hc.imp_left fun h => ⟨h, rfl⟩

/-- A call that a fault cut short. -/
theorem of_cut {m₀ : Machine} (h : Begun m₀ c line (some g) m') (hg : g.isThrown = false)
    (hl : m₀.limits = m.limits) (hs : m₀.steps = m.steps)
    (hf : m₀.frames = ⟨c.title, line⟩ :: m.frames)
    (hlt : m.frames.length < m.limits.maxCallDepth) : Traced m (some g) m' := by
  obtain ⟨t, u, s, ht, hshown, hu, hs', hf', -⟩ := h.parts
  rw [hl, hf] at ht hu
  rw [hf] at hshown hf'
  refine ⟨h.limits.trans hl, .cut ⟨c.title, line⟩ t s u, ⟨hlt, ht, hshown, hu⟩, ?_, hf',
    .inr ⟨g, rfl, hg⟩⟩
  rw [hs', hs, CallTree.steps]

/-- A call that is over. -/
theorem of_return {m₀ : Machine} {description : String} (h : Begun m₀ c line f m₁)
    (hc : ∀ g, f = some g → g.isThrown = true)
    (hl : m₀.limits = m.limits) (hs : m₀.steps = m.steps)
    (hf : m₀.frames = ⟨c.title, line⟩ :: m.frames)
    (hlt : m.frames.length < m.limits.maxCallDepth)
    (hr : (∃ shown, description = c.title ++ " returned " ++ shown) ∨
      ∃ shown, description = c.title ++ " threw " ++ shown) :
    Traced m f ({ m₁ with frames := m₁.frames.tail, scope := caller }.recorded caller line
      .functionReturn description) := by
  obtain ⟨t, u, s, ht, hshown, hu, hs', hf', hcomplete⟩ := h.parts
  obtain ⟨htc, huc⟩ : t.IsComplete ∧ u.IsComplete := hcomplete.resolve_right (not_final hc)
  rw [htc.left_eq, hf] at hshown hu
  rw [htc.left_eq, huc.left_eq, hf] at hf'
  rw [hl] at ht hu
  rw [hf] at ht
  have hframes : m₁.frames.tail = m.frames := by rw [hf', List.tail_cons]
  have hended : (Machine.view { m₁ with frames := m₁.frames.tail, scope := caller } caller line
      .functionReturn description).IsReturn ⟨c.title, line⟩ m.frames :=
    ⟨rfl, rfl, hr, congrArg List.reverse hframes⟩
  refine ⟨h.limits.trans hl, .call ⟨c.title, line⟩ t s u _ .nil,
    ⟨hlt, ⟨ht, htc⟩, hshown, ⟨hu, huc⟩, hended, trivial⟩, ?_, hframes, .inl rfl⟩
  simp [Machine.recorded, CallTree.steps, hs', hs]

/-- Making the scope of a call records nothing. -/
theorem callScope_leaves (id : ObjectId) (c : Closure) (this : Value) (m : Machine) :
    ∃ scope m', Evaluator.callScope id c this m = .ok scope m' ∧ m'.limits = m.limits ∧
      m'.steps = m.steps ∧ m'.frames = m.frames := by
  have hmade : Evaluator.callScope id c this m = _ :=
    (Exec.bind_of_ok rfl).trans ((Exec.bind_of_ok rfl).trans (Exec.bind_of_ok rfl))
  rw [hmade]
  split
  · exact ⟨_, _, Exec.bind_of_ok rfl, rfl, rfl, rfl⟩
  · exact ⟨_, _, rfl, rfl, rfl, rfl⟩

theorem endCall_of_ok (c : Closure) (caller : ScopeId) (line : Nat) (v : Value) (m : Machine) :
    Evaluator.endCall c caller line (.ok v) m =
      .ok v ({ m with frames := m.frames.tail, scope := caller }.recorded caller line
        .functionReturn (c.title ++ " returned " ++ m.inspect v)) := rfl

theorem endCall_of_error (c : Closure) (caller : ScopeId) (line : Nat) (t : Thrown)
    (m : Machine) :
    Evaluator.endCall c caller line (.error t) m =
      .error t.fault ({ m with frames := m.frames.tail, scope := caller }.recorded caller line
        .functionReturn (c.title ++ " threw " ++ t.text)) := rfl

/-- A call that has begun ends with its return, or with the fault that leaves it open. -/
theorem of_begun {x : Exec Value} {m₀ : Machine}
    (h : Begun m₀ c line (x.faultOf m₀) (x.after m₀)) (hl : m₀.limits = m.limits)
    (hs : m₀.steps = m.steps) (hf : m₀.frames = ⟨c.title, line⟩ :: m.frames)
    (hlt : m.frames.length < m.limits.maxCallDepth) :
    Traced m ((Exec.catchThrown x >>= Evaluator.endCall c caller line).faultOf m₀)
      ((Exec.catchThrown x >>= Evaluator.endCall c caller line).after m₀) := by
  cases hx : x m₀ with
  | ok v m₁ =>
    rw [Exec.faultOf_of_ok hx, Exec.after_of_ok hx] at h
    have hend := (Exec.bind_of_ok (Exec.catchThrown_of_ok hx)).trans
      (endCall_of_ok c caller line v m₁)
    rw [Exec.faultOf_of_ok hend, Exec.after_of_ok hend]
    exact of_return h nofun hl hs hf hlt (.inl ⟨_, rfl⟩)
  | error g m₁ =>
    rw [Exec.faultOf_of_error hx, Exec.after_of_error hx] at h
    cases hg : g.isThrown with
    | true =>
      obtain ⟨t, rfl⟩ := Exec.fault_of_isThrown hg
      have hend := (Exec.bind_of_ok (Exec.catchThrown_of_thrown hx)).trans
        (endCall_of_error c caller line t m₁)
      rw [Exec.faultOf_of_error hend, Exec.after_of_error hend]
      refine of_return h ?_ hl hs hf hlt (.inr ⟨_, rfl⟩)
      rintro g ⟨⟩
      exact hg
    | false =>
      have hend : (Exec.catchThrown x >>= Evaluator.endCall c caller line) m₀ = .error g m₁ :=
        Exec.bind_of_error (Exec.catchThrown_of_error hx hg)
      rw [Exec.faultOf_of_error hend, Exec.after_of_error hend]
      exact of_cut h hg hl hs hf hlt

/-- **What a call is**: it is refused, or it runs in a scope of its own behind its frame. -/
theorem invoke_cases (id : ObjectId) (c : Closure) (this : Value) (args : List Value) (line : Nat)
    (m : Machine) :
    (∃ g : Fault, g.isThrown = false ∧ ∀ ev : Evaluator,
      ev.invoke id c this args line m = .error g { m with work := m.work + 1 }) ∨
    m.frames.length < m.limits.maxCallDepth ∧ ∃ scope m₀,
      Evaluator.callScope id c this
        { m with work := m.work + 1, frames := ⟨c.title, line⟩ :: m.frames } = .ok scope m₀ ∧
      ∀ ev : Evaluator, ev.invoke id c this args line m =
        (Exec.catchThrown (ev.runCall scope c args (", ".intercalate (args.map m.heap.inspect))
          line) >>= Evaluator.endCall c m.scope line) m₀ := by
  rcases Nat.lt_or_ge m.work m.limits.maxSteps with hwork | hwork
  · rcases Nat.lt_or_ge m.frames.length m.limits.maxCallDepth with hlt | hdeep
    · have hpush : Exec.pushFrame c.title line { m with work := m.work + 1 } = .ok () _ :=
        Exec.pushFrame_of_lt hlt
      obtain ⟨scope, m₀, hscope, -⟩ := callScope_leaves id c this
        { m with work := m.work + 1, frames := ⟨c.title, line⟩ :: m.frames }
      refine .inr ⟨hlt, scope, m₀, hscope, fun ev => ?_⟩
      exact (Exec.bind_of_ok (Exec.tick_of_lt hwork)).trans <| (Exec.bind_of_ok rfl).trans <|
        (Exec.bind_of_ok hpush).trans <| (Exec.bind_of_ok rfl).trans <| Exec.bind_of_ok hscope
    · have hpush : Exec.pushFrame c.title line { m with work := m.work + 1 } =
          .error .callDepth _ := Exec.pushFrame_of_le hdeep
      refine .inl ⟨.callDepth, rfl, fun ev => ?_⟩
      exact (Exec.bind_of_ok (Exec.tick_of_lt hwork)).trans <| (Exec.bind_of_ok rfl).trans <|
        Exec.bind_of_error hpush
  · exact .inl ⟨_, rfl, fun _ => Exec.bind_of_error (Exec.tick_of_le hwork)⟩

/-- **A call is traced** if the work inside it is. -/
theorem invoke {id : ObjectId} {this : Value}
    (hbind : ∀ scope m, Traced m ((ev.bindArguments scope c.definition args).faultOf m)
      ((ev.bindArguments scope c.definition args).after m))
    (hbody : ∀ scope m, Traced m ((ev.runBody scope c.definition.body).faultOf m)
      ((ev.runBody scope c.definition.body).after m)) (m : Machine) :
    Traced m ((ev.invoke id c this args line).faultOf m)
      ((ev.invoke id c this args line).after m) := by
  rcases invoke_cases id c this args line m with
    ⟨g, -, hinvoke⟩ | ⟨hlt, scope, m₀, hscope, hinvoke⟩
  · rw [Exec.faultOf_of_error (hinvoke ev), Exec.after_of_error (hinvoke ev)]
    exact .idle rfl rfl rfl
  · obtain ⟨_, _, hscope', hl, hs, hf⟩ := callScope_leaves id c this
      { m with work := m.work + 1, frames := ⟨c.title, line⟩ :: m.frames }
    cases hscope.symm.trans hscope'
    rw [Exec.faultOf_congr (hinvoke ev), Exec.after_congr (hinvoke ev)]
    exact of_begun (runCall (hbind scope) (hbody scope) m₀) hl hs hf hlt

end

end Traced

/-! ## Runs -/

/-- **Every evaluation is traced.** -/
theorem traced_lawful (l : Layer) : (Invariant.ofMoves Traced).Lawful l where
  toComposes := .of_effects (Invariant.safe_ofMoves _) (fun _ => .idle rfl rfl rfl) .trans .caught
    fun _ => .effect
  invoke _ _ _ hbind hbody := by
    refine Invariant.keeps_of_moves (fun _ => within_univ _) (Traced.invoke ?_ ?_)
    · exact fun scope => (hbind _ (Set.subset_univ _) scope trivial).moves_of_univ
    · exact fun scope => (hbody _ (Set.subset_univ _) scope trivial).moves_of_univ

theorem Evaluation.traced {α : Type} {x : Evaluator → Exec α} (hx : Evaluation x) (fuel : Nat)
    (m : Machine) :
    Traced m ((x (.bounded fuel)).faultOf m) ((x (.bounded fuel)).after m) :=
  hx.action.moves (traced_lawful .loop) m

/-- **The steps of a run are those of a call tree.**  All its calls have returned unless a fault
that no program can catch ended the run; that leaves the frames of the calls that it cut short. -/
theorem finalMachine_tree (limits : Limits) (fuel : Nat) (program : Syntax.Program) :
    ∃ t : CallTree, t.WellFormed limits.maxCallDepth [] ∧
      (finalMachine limits fuel program).steps.toList = t.steps ∧
      ((((Evaluator.bounded fuel).runProgram program).after (.initial limits)).frames =
        t.left []) ∧
      ((∀ f, ((Evaluator.bounded fuel).runProgram program).faultOf (.initial limits) = some f →
        f.isThrown = true) → t.IsComplete) := by
  have htraced := (Evaluation.runProgram program).traced fuel (.initial limits)
  obtain ⟨t, ht, hs, hf, hc⟩ := htraced.tree
  have hcomplete (h : ∀ f, ((Evaluator.bounded fuel).runProgram program).faultOf
      (.initial limits) = some f → f.isThrown = true) : t.IsComplete :=
    hc.resolve_right (Traced.not_final h)
  cases hrun : (Evaluator.bounded fuel).runProgram program (.initial limits) with
  | ok u m =>
    rw [finalMachine_of_ok hrun, ← Exec.after_of_ok hrun]
    exact ⟨t, ht, hs, hf, hcomplete⟩
  | error g m =>
    rw [finalMachine_of_error hrun]
    rw [Exec.after_of_error hrun] at hs hf ⊢
    have hplain : (m.view m.scope g.line .error g.message).IsPlain (t.left []) :=
      ⟨nofun, nofun, congrArg List.reverse hf⟩
    refine ⟨t.append (.step (m.view m.scope g.line .error g.message) .nil),
      ht.append ⟨hplain, trivial⟩, ?_, ?_, fun h => (hcomplete h).append rfl⟩
    · have hsteps : m.steps.toList = t.steps := hs
      simp [Machine.recorded, t.steps_append, CallTree.steps, hsteps]
    · rw [t.left_append]
      exact hf

/-- The trace of every run is that of a tree of calls. -/
theorem runWithin_tree (limits : Limits) (fuel : Nat) (source : String) :
    ∃ t : CallTree, t.WellFormed limits.maxCallDepth [] ∧
      (runWithin limits fuel source).steps.toList = t.steps := by
  rcases runWithin_steps limits fuel source with hnone | ⟨program, -, hsteps⟩
  · exact ⟨.nil, trivial, by rw [hnone]; rfl⟩
  · obtain ⟨t, ht, hs, -⟩ := finalMachine_tree limits fuel program
    exact ⟨t, ht, by rw [hsteps, hs]⟩

/-! ## Calls and returns -/

/-- **Well nested steps**: a reader who pushes at calls and pops at returns is left with `stack`,
and the last picture shows as many frames. -/
structure WellNested (limits : Limits) (ss stack : List Step) : Prop where
  scan : Scan [] ss stack
  depth : ∀ s ∈ ss, s.callStack.length ≤ limits.maxCallDepth
  last : ∀ s, ss.getLast? = some s → stack.length = s.callStack.length

theorem CallTree.WellFormed.wellNested {limits : Limits} {t : CallTree}
    (ht : t.WellFormed limits.maxCallDepth []) : WellNested limits t.steps t.opened where
  scan := by simpa using ht.scan []
  depth := (ht.length_le (Nat.zero_le _)).2
  last s hs := by
    rw [ht.last hs, List.length_reverse, t.length_left, List.length_nil, Nat.zero_add]

/-- **Calls and returns are well nested.**  In every trace each return ends the call that is open,
no picture shows more calls than there may be, and the last one shows the calls that are left open:
none unless a fault that no program can catch ended the run, and then those that the run was in.
Every evaluation that ends without such a fault leaves the frames as it found them. -/
theorem calls_well_nested (limits : Limits) :
    (∀ fuel source, ∃ stack,
      WellNested limits (runWithin limits fuel source).steps.toList stack) ∧
    (∀ program fuel, ∃ stack,
      WellNested limits (finalMachine limits fuel program).steps.toList stack ∧
      stack.length =
        (((Evaluator.bounded fuel).runProgram program).after (.initial limits)).frames.length ∧
      ((∀ f, ((Evaluator.bounded fuel).runProgram program).faultOf (.initial limits) = some f →
        f.isThrown = true) → stack = [])) ∧
    ∀ {α : Type} {x : Evaluator → Exec α}, Evaluation x → ∀ (fuel : Nat) (m : Machine),
      (∀ f, (x (.bounded fuel)).faultOf m = some f → f.isThrown = true) →
      ((x (.bounded fuel)).after m).frames = m.frames := by
  refine ⟨fun fuel source => ?_, fun program fuel => ?_, fun hx fuel m hf => ?_⟩
  · obtain ⟨t, ht, hs⟩ := runWithin_tree limits fuel source
    exact ⟨t.opened, hs ▸ ht.wellNested⟩
  · obtain ⟨t, ht, hs, hframes, hcomplete⟩ := finalMachine_tree limits fuel program
    refine ⟨t.opened, hs ▸ ht.wellNested, ?_, hcomplete⟩
    rw [hframes, t.length_left, List.length_nil, Nat.zero_add]
  · obtain ⟨t, -, -, hframes, hc⟩ := (hx.traced fuel m).tree
    have ht : t.IsComplete := hc.resolve_right (Traced.not_final hf)
    rw [hframes, ht.left_eq]

/-! ## The frames in a picture -/

/-- **The law of balance**: the frames in each picture are the calls up to it less the returns. -/
def FollowsBalance (ss : List Step) : Prop :=
  ∀ i (hi : i < ss.length), (ss[i].callStack.length : Int) =
    (ss.take (i + 1)).countP (·.kind = .functionCall) -
      (ss.take (i + 1)).countP (·.kind = .functionReturn)

/-- **When the law of balance holds.**  The picture of a step shows the calls up to it less the
returns, and besides the calls around it that are just binding their parameters.  So the law holds
of a trace if and only if no call shows anything while it binds its parameters. -/
theorem followsBalance_iff_quiet (limits : Limits) (fuel : Nat) (source : String) :
    (∃ t : CallTree, t.WellFormed limits.maxCallDepth [] ∧
      (runWithin limits fuel source).steps.toList = t.steps) ∧
    ∀ t : CallTree, t.WellFormed limits.maxCallDepth [] →
      (runWithin limits fuel source).steps.toList = t.steps →
      (∀ i (hi : i < t.steps.length), ∃ e, t.unshown[i]? = some e ∧
        (t.steps[i].callStack.length : Int) =
          (t.steps.take (i + 1)).countP (·.kind = .functionCall) -
            (t.steps.take (i + 1)).countP (·.kind = .functionReturn) + e) ∧
      (FollowsBalance (runWithin limits fuel source).steps.toList ↔ t.IsQuiet) := by
  refine ⟨runWithin_tree limits fuel source, fun t ht hs => ?_⟩
  have hexact (i : Nat) (hi : i < t.steps.length) : ∃ e, t.unshown[i]? = some e ∧
      (t.steps[i].callStack.length : Int) =
        (t.steps.take (i + 1)).countP (·.kind = .functionCall) -
          (t.steps.take (i + 1)).countP (·.kind = .functionReturn) + e := by
    obtain ⟨e, he, hlen⟩ := ht.tallies.getElem hi
    refine ⟨e, he, ?_⟩
    rw [hlen, balance_eq, List.length_nil, Nat.cast_zero, zero_add]
  refine ⟨hexact, ?_⟩
  rw [hs, CallTree.isQuiet_iff]
  constructor
  · intro h e he
    obtain ⟨i, hi, rfl⟩ := List.getElem_of_mem he
    obtain ⟨e', he', hlen⟩ := hexact i (ht.tallies.length_eq ▸ hi)
    rw [h i (ht.tallies.length_eq ▸ hi)] at hlen
    rw [List.getElem?_eq_getElem hi] at he'
    cases he'
    omega
  · intro h i hi
    obtain ⟨e, he, hlen⟩ := hexact i hi
    rw [hlen, h e (List.mem_of_getElem? he), Nat.cast_zero, add_zero]

/-- A call that prints while it binds its parameters. -/
def printingDefault : String := "function f(x = console.log(\"hi\")) \x7b\x7d f()"

/-- The default value of a parameter prints before its call is shown, one level too deep. -/
theorem balance_fails_at_printingDefault :
    ¬ FollowsBalance (run .default printingDefault).steps.toList := by
  have hview : (run .default printingDefault).steps.toList.map
      (fun s => (s.callStack.length, s.kind)) =
      [(0, .eventLoop), (0, .declaration), (1, .console), (1, .functionCall), (0, .functionReturn),
        (0, .eventLoop)] := by
    decide +kernel
  intro h
  generalize (run .default printingDefault).steps.toList = ss at h hview
  match ss with
  | [] | [_] | [_, _] => simp at hview
  | a :: b :: c :: rest =>
    -- The console step: one frame, no call so far.
    have hthird := h 2 (by simp)
    simp only [List.map_cons, List.cons.injEq, Prod.mk.injEq] at hview
    obtain ⟨⟨-, ha⟩, ⟨-, hb⟩, ⟨hc, hck⟩, -⟩ := hview
    simp [ha, hb, hc, hck] at hthird

end ScriptTrace
