import ScriptTrace.Proofs.Compositional
import ScriptTrace.Proofs.Invariant

/-!
# Proofs/Frozen — frozen data never change

    m ──▸ m₁ ──▸ ⋯ ──▸ mₙ        the machines that an action passes, one for every operation

Whoever changes an object asks first whether it is frozen (`Heap.Allows`), in several places of
their own.  An operation that asks in the heap that it then changes keeps all frozen data
(`Elementary.keepsFrozen`), and so does every evaluation, in all machines that it passes.
-/

namespace ScriptTrace

/-! ## The machines that an action passes -/

/-- **Single operations**: elementary actions, and what allocation and calls consist of. -/
inductive Exec.Single : {α : Type} → Exec α → Prop
  | elementary {l : Layer} {α : Type} {x : Exec α} {P : α → Prop} (h : Elementary l Set.univ x P) :
    Single x
  | allocate {body : Body} {className : Option String} : Single (Exec.allocate body className)
  | newScope {s : Scope} : Single (Exec.newScope s)
  | copyScope {scope : ScopeId} : Single (Exec.copyScope scope)
  | currentScope : Single Exec.currentScope
  | pushFrame {name : String} {line : Nat} : Single (Exec.pushFrame name line)
  | popFrame : Single Exec.popFrame
  | record {scope : ScopeId} {line : Nat} {kind : StepKind} {description : String} :
    Single (Exec.record scope line kind description)
  | exhausted {α : Type} : Single (throw .exhausted : Exec α)

/-- **The machines that an action passes** from a machine on, one behind every single operation, up
to the one that it leaves. -/
inductive Exec.Passes : {α : Type} → Exec α → Machine → List Machine → Prop
  | pure {α : Type} {a : α} {m : Machine} : Passes (pure a) m []
  | single {α : Type} {x : Exec α} (h : Single x) (m : Machine) : Passes x m [x.after m]
  | bind {α β : Type} {x : Exec α} {k : α → Exec β} {m m₁ : Machine} {a : α}
    {ms ms' : List Machine} (hx : Passes x m ms) (h : x m = .ok a m₁)
    (hk : Passes (k a) m₁ ms') : Passes (x >>= k) m (ms ++ ms')
  | stop {α β : Type} {x : Exec α} {k : α → Exec β} {m m₁ : Machine} {f : Fault}
    {ms : List Machine} (hx : Passes x m ms) (h : x m = .error f m₁) : Passes (x >>= k) m ms
  | catchThrown {α : Type} {x : Exec α} {m : Machine} {ms : List Machine} (hx : Passes x m ms) :
    Passes (Exec.catchThrown x) m ms
  | followedBy {α : Type} {x : Exec α} {scope : ScopeId} {line : Nat} {kind : StepKind}
    {description : String} {m : Machine} {ms : List Machine} (hx : Passes x m ms) :
    Passes (Exec.followedBy x (Exec.record scope line kind description)) m
      (ms ++ [(x.after m).recorded scope line kind description])
  | orElseShow {α : Type} {x : Exec α} {scope : ScopeId} {line : Nat} {kind : StepKind}
    {description : String} {m : Machine} {ms : List Machine} (hx : Passes x m ms) :
    Passes (Exec.orElseShow x (Exec.record scope line kind description)) m
      (ms ++ [(Exec.orElseShow x (Exec.record scope line kind description)).after m])

theorem List.getLastD_append {α : Type} (a : α) (l l' : List α) :
    (l ++ l').getLastD a = l'.getLastD (l.getLastD a) := by
  induction l generalizing a with
  | nil => rfl
  | cons b l ih => rw [List.cons_append, List.getLastD_cons, ih, List.getLastD_cons]

/-- The last machine that an action passes is the one that it leaves. -/
theorem Exec.Passes.last {α : Type} {x : Exec α} {m : Machine} {ms : List Machine}
    (h : x.Passes m ms) : ms.getLastD m = x.after m := by
  induction h with
  | pure => rfl
  | single => rfl
  | bind _ h _ ihx ihk =>
    rw [List.getLastD_append, ihx, Exec.after_of_ok h, ihk, Exec.after_bind_of_ok h]
  | stop _ h ih => rw [ih, Exec.after_of_error h, Exec.after_bind_of_error h]
  | catchThrown _ ih => rw [ih, Exec.after_catchThrown]
  | followedBy _ ih => rw [List.getLastD_concat, Exec.after_followedBy]
  | orElseShow _ ih => rw [List.getLastD_concat]

/-! ## Every evaluation passes machines -/

/-- An action of which it is known what its results are, and that passes machines. -/
structure Travels (fuel : Nat) {α : Type} (x : Evaluator → Exec α) (P : α → Prop) : Prop where
  yields : ∀ {m m' : Machine} {a : α}, x (.bounded fuel) m = .ok a m' → P a
  passes : ∀ m, ∃ ms, (x (.bounded fuel)).Passes m ms

namespace Travels

variable {fuel : Nat} {α β : Type} {x : Evaluator → Exec α} {P : α → Prop}

theorem single {x : Exec α} (h : x.Single) (hP : ∀ {m m' a}, x m = .ok a m' → P a) :
    Travels fuel (fun _ => x) P := ⟨hP, fun m => ⟨_, .single h m⟩⟩

/-- One action behind another passes the machines of both. -/
theorem bind {k : α → Evaluator → Exec β} {R : β → Prop} (hx : Travels fuel x P)
    (hk : ∀ a, P a → Travels fuel (k a) R) :
    Travels fuel (fun ev => x ev >>= fun a => k a ev) R where
  yields h := by
    obtain ⟨a, m₁, hxa, hka⟩ := Exec.bind_eq_ok h
    exact (hk a (hx.yields hxa)).yields hka
  passes m := by
    obtain ⟨ms, hms⟩ := hx.passes m
    cases hxm : x (.bounded fuel) m with
    | ok a m₁ =>
      obtain ⟨ms', hms'⟩ := (hk a (hx.yields hxm)).passes m₁
      exact ⟨_, .bind hms hxm hms'⟩
    | error f m₁ => exact ⟨_, .stop hms hxm⟩

end Travels

/-- All actions pass machines if requests do. -/
theorem travels_composable {fuel : Nat}
    (heval : ∀ {α : Type} (w : Work α), Travels fuel (fun ev => ev.run w) (w.Yields Set.univ)) :
    Composable .loop (Travels fuel) where
  pure ha := ⟨fun h => by cases h; exact ha, fun m => ⟨[], .pure⟩⟩
  elementary h := .single (.elementary h) h.yields_univ
  bind := .bind
  weaken hx h := ⟨fun hxm => h _ (hx.yields hxm), hx.passes⟩
  allocate _ := .single .allocate fun _ => trivial
  newScope := .single .newScope fun _ => trivial
  copyScope := .single .copyScope fun _ => trivial
  eval _ := heval _
  catchThrown hx :=
    { yields := fun h => by
        rcases Exec.catchThrown_eq_ok h with ⟨a, rfl, hxa⟩ | ⟨t, rfl, -⟩
        · exact hx.yields hxa
        · exact within_univ t
      passes := fun m => (hx.passes m).imp fun _ => .catchThrown }
  orElseShow _ hx := ⟨fun _ => trivial, fun m => (hx.passes m).elim fun _ h => ⟨_, .orElseShow h⟩⟩

theorem travels_calls {fuel : Nat} : CallParts (Travels fuel) where
  currentScope := .single .currentScope fun _ => trivial
  pushFrame := .single .pushFrame fun _ => trivial
  popFrame := .single .popFrame fun _ => trivial
  showCall hx := ⟨fun _ => trivial, fun m => (hx.passes m).elim fun _ h => ⟨_, .followedBy h⟩⟩
  showReturn := .single .record fun _ => trivial

/-- **Every piece of work passes machines**, by induction on the fuel. -/
theorem Work.travels : ∀ (fuel : Nat) {α : Type} (w : Work α),
    Travels fuel (fun ev => ev.run w) (w.Yields Set.univ)
  | 0, _, _ => ⟨nofun, fun m => ⟨_, .single .exhausted m⟩⟩
  | fuel + 1, _, w =>
    have hstep := (Action.step w.fits_univ).has
      ((travels_composable (Work.travels fuel)).compositional travels_calls) rfl
    ⟨hstep.yields, hstep.passes⟩

/-- **Every evaluation passes machines.** -/
theorem Evaluation.passes {α : Type} {x : Evaluator → Exec α} (hx : Evaluation x) (fuel : Nat)
    (m : Machine) : ∃ ms, (x (.bounded fuel)).Passes m ms :=
  have hT := (travels_composable (Work.travels fuel)).compositional travels_calls
  (hx.action.has hT rfl).passes m

/-! ## Frozen data -/

/-- **Frozen data are kept**: plain objects with their keys and values in order, and arrays with
their elements. -/
def Heap.KeepsFrozen (h h' : Heap) : Prop :=
  ∀ id o, h.get? id = some o → o.frozen = true → o.body.isData = true →
    ∃ o', h'.get? id = some o' ∧ o'.frozen = true ∧ o'.body = o.body

namespace Heap.KeepsFrozen

variable {h h₁ h₂ : Heap}

theorem refl (h : Heap) : h.KeepsFrozen h := fun _ o ho hf _ => ⟨o, ho, hf, rfl⟩

theorem of_eq (heq : h₁ = h) : h.KeepsFrozen h₁ := heq ▸ refl h

/-- What is kept through two stretches is kept. -/
theorem trans (hk : h.KeepsFrozen h₁) (hk₁ : h₁.KeepsFrozen h₂) : h.KeepsFrozen h₂ := by
  intro id o ho hf hd
  obtain ⟨o₁, ho₁, hf₁, hb₁⟩ := hk id o ho hf hd
  obtain ⟨o₂, ho₂, hf₂, hb₂⟩ := hk₁ id o₁ ho₁ hf₁ (hb₁ ▸ hd)
  exact ⟨o₂, ho₂, hf₂, hb₂.trans hb₁⟩

/-- A new object changes no frozen one. -/
theorem add (h : Heap) (body : Body) (className : Option String) :
    h.KeepsFrozen (h.add body className) := by
  intro id o ho hf _
  have hlt : id < h.objects.size := (Array.getElem?_eq_some_iff.mp ho).1
  refine ⟨o, ?_, hf, rfl⟩
  change (h.objects.push _)[id]? = some o
  rw [Array.getElem?_push, if_neg hlt.ne]
  exact ho

/-- Only the object that is modified need be looked at. -/
theorem modify {id : ObjectId} {f : HeapObject → HeapObject}
    (hf : ∀ o, h.get? id = some o → o.frozen = true → o.body.isData = true →
      (f o).frozen = true ∧ (f o).body = o.body) : h.KeepsFrozen (h.modify id f) := by
  intro id' o ho hfrozen hdata
  have hget : (h.modify id f).get? id' = if id = id' then (h.get? id').map f else h.get? id' :=
    Array.getElem?_modify
  rw [hget]
  split
  · rename_i heq
    subst heq
    obtain ⟨hf', hb⟩ := hf o ho hfrozen hdata
    exact ⟨f o, by rw [ho, Option.map_some], hf', hb⟩
  · exact ⟨o, ho, hfrozen, rfl⟩

/-- **A change that the heap allows** keeps frozen data. -/
theorem changed {id : ObjectId} {c : Change} (ha : h.Allows id c) :
    h.KeepsFrozen (h.modify id (·.changed c)) := by
  refine modify fun o ho hfrozen hdata => ?_
  cases c with
  | items | props => cases (ha o ho).symm.trans hfrozen
  | freeze => exact ⟨rfl, rfl⟩
  | record r =>
    obtain ⟨body, label, className, frozen⟩ := o
    cases body <;> first | exact ⟨hfrozen, rfl⟩ | cases hdata

/-- A label changes no contents. -/
theorem label (h : Heap) (v : Value) (name : String) : h.KeepsFrozen (h.label v name) := by
  unfold Heap.label
  split
  · refine modify fun o _ hfrozen _ => ?_
    unfold Heap.labeled
    split
    · exact ⟨hfrozen, rfl⟩
    · exact ⟨hfrozen, rfl⟩
  · exact refl h

end Heap.KeepsFrozen

/-- Frozen data of a machine that another one still has. -/
def Machine.KeepsFrozen (m m' : Machine) : Prop := m.heap.KeepsFrozen m'.heap

namespace Machine.KeepsFrozen

theorem of_ok {α : Type} {x : Exec α} {m m' : Machine} {a : α} (hx : x m = .ok a m')
    (h : m.KeepsFrozen m') : m.KeepsFrozen (x.after m) := by
  rwa [Exec.after_of_ok hx]

/-- Whoever writes has asked whether the heap allows it. -/
theorem writing {W : World} {m : Machine} {x : Exec Unit} (h : Writing W m.heap x) :
    m.KeepsFrozen (x.after m) := by
  induction h with
  | skip | misuse => exact .refl m.heap
  | change _ _ _ ha => exact .changed ha
  | raise => exact Heap.KeepsFrozen.add _ _ _
  | withHeap _ ih => exact ih
  | withCeiling _ ih => exact ih m.limits.maxLength

theorem tick (m : Machine) : m.KeepsFrozen (Exec.tick.after m) :=
  Exec.after_tick m ▸ .refl m.heap

end Machine.KeepsFrozen

/-- **No elementary action changes frozen data.** -/
theorem Elementary.keepsFrozen {l : Layer} {α : Type} {x : Exec α} {P : α → Prop}
    (h : Elementary l Set.univ x P) (m : Machine) : m.KeepsFrozen (x.after m) := by
  cases h with
  | tick => exact .tick m
  | write h => exact .writing (h m.heap (within_univ _))
  | @addReaction id r =>
    rcases Exec.addReaction_cases id r m with
      ⟨-, hadd⟩ | ⟨rs, -, hadd⟩ | ⟨outcome, rs, label, -, -, hadd⟩
    · exact .of_ok hadd (.refl m.heap)
    · exact .of_ok hadd (Heap.KeepsFrozen.changed trivial)
    · exact .of_ok hadd (.refl m.heap)
  | @settle id outcome line _ _ hp =>
    rcases Exec.settleFlat_cases id line m hp with
      hsettle | ⟨rs, tasks, description, -, -, -, hsettle⟩
    · exact .of_ok hsettle (.refl m.heap)
    · exact .of_ok hsettle (Heap.KeepsFrozen.changed trivial)
  | putIn => exact Heap.KeepsFrozen.label _ _ _
  | raise => exact Heap.KeepsFrozen.add _ _ _
  | flattened => exact .of_eq (by rw [Exec.after_flattened])
  | nextMicrotask? =>
    cases hq : m.microtasks with
    | nil => exact .of_ok (Exec.nextMicrotask_of_nil hq) (.refl m.heap)
    | cons => exact .of_ok (Exec.nextMicrotask_of_cons hq) (.refl m.heap)
  | nextCallback? =>
    cases hq : m.callbacks with
    | nil => exact .of_ok (Exec.nextCallback_of_nil hq) (.refl m.heap)
    | cons => exact .of_ok (Exec.nextCallback_of_cons hq) (.refl m.heap)
  | _ => exact .refl m.heap

/-- **No single operation changes frozen data.** -/
theorem Exec.Single.keepsFrozen {α : Type} {x : Exec α} (h : x.Single) (m : Machine) :
    m.KeepsFrozen (x.after m) := by
  cases h with
  | elementary h => exact h.keepsFrozen m
  | allocate => exact Heap.KeepsFrozen.add _ _ _
  | @pushFrame name line =>
    rcases Nat.lt_or_ge m.frames.length m.limits.maxCallDepth with h | h
    · exact .of_ok (Exec.pushFrame_of_lt h) (.refl m.heap)
    · rw [Exec.after_of_error (Exec.pushFrame_of_le h)]
      exact .refl m.heap
  | _ => exact .refl m.heap

namespace Machine.KeepsFrozen

/-- Machines one after another that keep the frozen data of those before them, as a last one
does. -/
def Along (ms : List Machine) (m' : Machine) : Prop :=
  ms.Pairwise Machine.KeepsFrozen ∧ ∀ m ∈ ms, m.KeepsFrozen m'

variable {m m₁ m' : Machine} {ms ms' : List Machine}

theorem alone (h : m.KeepsFrozen m') : Along [m, m'] m' :=
  ⟨List.pairwise_pair.mpr h,
    List.forall_mem_cons.mpr ⟨h, List.forall_mem_singleton.mpr (.refl m'.heap)⟩⟩

/-- Two ways one behind the other are one. -/
theorem joined (h : Along (m :: ms) m₁) (h₁ : Along (m₁ :: ms') m') :
    Along (m :: (ms ++ ms')) m' := by
  obtain ⟨hpair, hend⟩ := h
  obtain ⟨hpair₁, hend₁⟩ := h₁
  obtain ⟨hnext, hrest⟩ := List.pairwise_cons.mp hpair₁
  refine ⟨List.pairwise_append.mpr ⟨hpair, hrest, fun a ha b hb => ?_⟩, fun a ha => ?_⟩
  · exact (hend a ha).trans (hnext b hb)
  · rcases List.mem_append.mp (List.cons_append ▸ ha : a ∈ (m :: ms) ++ ms') with ha | ha
    · exact (hend a ha).trans (hend₁ m₁ List.mem_cons_self)
    · exact hend₁ a (List.mem_cons_of_mem _ ha)

end Machine.KeepsFrozen

open Machine.KeepsFrozen in
/-- **The machines that an action passes keep the frozen data of those before them**, and so does
the machine that it leaves. -/
theorem Exec.Passes.keepsFrozen {α : Type} {x : Exec α} {m : Machine} {ms : List Machine}
    (h : x.Passes m ms) : Along (m :: ms) (x.after m) := by
  induction h with
  | @pure _ _ m =>
    exact ⟨List.pairwise_singleton _ m, List.forall_mem_singleton.mpr (.refl m.heap)⟩
  | single h m => exact alone (h.keepsFrozen m)
  | bind _ h _ ihx ihk =>
    rw [Exec.after_of_ok h] at ihx
    rw [Exec.after_bind_of_ok h]
    exact joined ihx ihk
  | stop _ h ih =>
    rw [Exec.after_bind_of_error h]
    rwa [Exec.after_of_error h] at ih
  | catchThrown _ ih => rwa [Exec.after_catchThrown]
  | followedBy _ ih =>
    rw [Exec.after_followedBy]
    exact joined ih (alone (.refl _))
  | orElseShow _ ih =>
    refine joined ih (alone ?_)
    rcases Exec.after_orElseShow with h | h
    · exact .of_eq (by rw [h])
    · exact .of_eq (by rw [h]; rfl)

/-! ## Freezing -/

/-- **Freezing an object** marks it and leaves its contents as they are. -/
theorem Evaluator.callHost_freeze {ev : Evaluator} {m : Machine} {id : ObjectId} {o : HeapObject}
    {args : List Value} {line : Nat} (ho : m.heap.get? id = some o) :
    ∃ m', ev.callHost .freeze (.object id :: args) line m = .ok (.object id) m' ∧
      m'.heap.get? id = some { o with frozen := true } := by
  refine ⟨_, rfl, ?_⟩
  change (m.heap.objects.modify id _)[id]? = _
  rw [Array.getElem?_modify, if_pos rfl]
  exact congrArg (Option.map _) ho

/-- The driver shows a fault and changes nothing else. -/
theorem keepsFrozen_finalMachine {limits : Limits} {fuel : Nat} {program : Syntax.Program} :
    (((Evaluator.bounded fuel).runProgram program).after (.initial limits)).KeepsFrozen
      (finalMachine limits fuel program) := by
  cases h : (Evaluator.bounded fuel).runProgram program (.initial limits) with
  | ok _ m =>
    rw [Exec.after_of_ok h, finalMachine_of_ok h]
    exact .refl m.heap
  | error f m =>
    rw [Exec.after_of_error h, finalMachine_of_error h]
    exact .refl m.heap

/-- **Frozen data never change.**  `Object.freeze` marks an object and leaves its contents as they
are.  Every evaluation passes machines from the one in which it begins to the one that it leaves,
however it ends, and of any two of them the later one has all frozen data of the earlier one: plain
objects with the same properties in the same order, arrays with the same elements.  In a run, the
machine at its end has them, too. -/
theorem frozen_data_never_change :
    (∀ {ev : Evaluator} {m : Machine} {id : ObjectId} {o : HeapObject} {args : List Value}
      {line : Nat}, m.heap.get? id = some o →
        ∃ m', ev.callHost .freeze (.object id :: args) line m = .ok (.object id) m' ∧
          m'.heap.get? id = some { o with frozen := true }) ∧
    (∀ {α : Type} {x : Evaluator → Exec α}, Evaluation x → ∀ (fuel : Nat) (m : Machine),
      (∃ ms, (x (.bounded fuel)).Passes m ms) ∧
      ∀ ms, (x (.bounded fuel)).Passes m ms →
        ms.getLastD m = (x (.bounded fuel)).after m ∧
        (m :: ms).Pairwise Machine.KeepsFrozen) ∧
    ∀ (limits : Limits) (fuel : Nat) (program : Syntax.Program) (ms : List Machine),
      ((Evaluator.bounded fuel).runProgram program).Passes (.initial limits) ms →
        ∀ m ∈ Machine.initial limits :: ms, m.KeepsFrozen (finalMachine limits fuel program) := by
  refine ⟨Evaluator.callHost_freeze, fun hx fuel m => ⟨hx.passes fuel m, fun ms hms => ?_⟩, ?_⟩
  · exact ⟨hms.last, hms.keepsFrozen.1⟩
  · exact fun limits fuel program ms hms m hm =>
      (hms.keepsFrozen.2 m hm).trans keepsFrozen_finalMachine

/-- A machine with one array. -/
def frozenUse : Machine :=
  { Machine.initial .default with heap := Heap.empty.add (.array #[.null]) none }

/-- The array in it, frozen. -/
def frozenArray : HeapObject := ⟨.array #[.null], none, none, true⟩

/-- A program that freezes an array and tries to change it. -/
def freezingUse : Syntax.Program :=
  (Syntax.readProgram ("const a = [1]; Object.freeze(a); " ++
    "try \x7b a.push(2) \x7d catch (e) \x7b console.log(e.message) \x7d")).toOption.getD []

/-- An array that is frozen refuses to be pushed to, and stays as it is. -/
theorem frozenUse_keeps_array :
    (∃ m', (Evaluator.bounded 9).callHost .freeze [.object 0] 1 frozenUse = .ok (.object 0) m' ∧
      m'.heap.get? 0 = some frozenArray ∧
      ∃ ms, ((Evaluator.bounded 9).callMethod (.object 0) "push" [.null] 1).Passes m' ms ∧
        ∀ m ∈ ms, ∃ o, m.heap.get? 0 = some o ∧ o.body = frozenArray.body) ∧
    (∃ ms, ((Evaluator.bounded 40).runProgram freezingUse).Passes (.initial .default) ms ∧
      ∀ m ∈ ms, m.KeepsFrozen (finalMachine .default 40 freezingUse)) ∧
    (((finalMachine .default 40 freezingUse).heap.get? 0).map HeapObject.frozen,
      ((finalMachine .default 40 freezingUse).heap.items? (.object 0)).map Array.size) =
        (some true, some 1) := by
  refine ⟨?_, ?_, by decide +kernel⟩
  · have hopen : frozenUse.heap.get? 0 = some ⟨.array #[.null], none, none, false⟩ := rfl
    obtain ⟨m', hcall, harray⟩ : ∃ m', (Evaluator.bounded 9).callHost .freeze [.object 0] 1
        frozenUse = .ok (.object 0) m' ∧ m'.heap.get? 0 = some frozenArray :=
      frozen_data_never_change.1 hopen
    refine ⟨m', hcall, harray, ?_⟩
    obtain ⟨⟨ms, hms⟩, hkeep⟩ :=
      frozen_data_never_change.2.1 (.callMethod (.object 0) "push" [.null] 1) 9 m'
    refine ⟨ms, hms, fun m hm => ?_⟩
    have hkept : m'.KeepsFrozen m := (List.pairwise_cons.mp (hkeep ms hms).2).1 m hm
    obtain ⟨o, ho, -, hbody⟩ := hkept 0 frozenArray harray rfl rfl
    exact ⟨o, ho, hbody⟩
  · obtain ⟨⟨ms, hms⟩, -⟩ :=
      frozen_data_never_change.2.1 (.runProgram freezingUse) 40 (.initial .default)
    exact ⟨ms, hms, fun m hm =>
      frozen_data_never_change.2.2 .default 40 freezingUse ms hms m (List.mem_cons_of_mem _ hm)⟩

end ScriptTrace
