import ScriptTrace.Proofs.Invariant
import ScriptTrace.Proofs.ScopeTree

/-!
# Proofs/Growth — nothing is taken back

Whatever is evaluated, and however that ends: steps, objects and scopes are added behind those that
are there, and nothing that identifies an object or a scope changes.  So the pictures of the heap in
a trace are pictures of one heap that grows.
-/

namespace ScriptTrace

/-! ## Lists that grow -/

/-- **A list and a longer one**: its elements may have changed as `R` allows, and others stand
behind them. -/
inductive Extends {α : Type} (R : α → α → Prop) : List α → List α → Prop
  | nil (new : List α) : Extends R [] new
  | cons {a b : α} {l l' : List α} (h : R a b) (hl : Extends R l l') :
    Extends R (a :: l) (b :: l')

namespace Extends

variable {α β : Type} {R : α → α → Prop} {S : β → β → Prop} {l l' l₁ : List α}

theorem append (hR : ∀ a, R a a) (l new : List α) : Extends R l (l ++ new) := by
  induction l with
  | nil => exact .nil new
  | cons a l ih => exact .cons (hR a) ih

theorem refl (hR : ∀ a, R a a) (l : List α) : Extends R l l := by
  simpa only [List.append_nil] using append hR l []

/-- What has grown twice has grown. -/
theorem trans (hR : ∀ {a b c}, R a b → R b c → R a c) (h : Extends R l l')
    (h₁ : Extends R l' l₁) : Extends R l l₁ := by
  induction h generalizing l₁ with
  | nil => exact .nil _
  | cons hab _ ih =>
    cases h₁ with
    | cons hbc h₁ => exact .cons (hR hab hbc) (ih h₁)

/-- A change at one place that is related to what was there keeps the rest. -/
theorem modify (hR : ∀ a, R a a) {f : α → α} (hf : ∀ a, R a (f a)) (l : List α) (i : Nat) :
    Extends R l (l.modify i f) := by
  induction l generalizing i with
  | nil => exact .nil _
  | cons a l ih =>
    cases i with
    | zero => exact .cons (hf a) (refl hR l)
    | succ i => exact .cons (hR a) (ih i)

/-- The elements keep their places. -/
theorem getElem?_later (h : Extends R l l') {i : Nat} {a : α} (hget : l[i]? = some a) :
    ∃ b, l'[i]? = some b ∧ R a b := by
  induction h generalizing i with
  | nil => cases hget
  | @cons a b l l' hab _ ih =>
    cases i with
    | zero => cases hget; exact ⟨b, rfl, hab⟩
    | succ i => exact ih hget

/-- What does not change of the elements forms a prefix. -/
theorem map_prefix {γ : Type} {g : α → γ} (hg : ∀ {a b}, R a b → g b = g a) (h : Extends R l l') :
    l.map g <+: l'.map g := by
  induction h with
  | nil => exact List.nil_prefix
  | cons hab _ ih => exact List.prefix_cons_iff.mpr (.inr ⟨_, by rw [List.map_cons, hg hab], ih⟩)

end Extends

/-! ## What stays of objects and scopes -/

/-- **What may follow a body**: contents give way to contents of the same kind, a function stays as
it is. -/
inductive Body.GivesWay : Body → Body → Prop
  | plain (props props' : Props) : GivesWay (.plain props) (.plain props')
  | array (items items' : Array Value) : GivesWay (.array items) (.array items')
  | promise (r r' : PromiseRecord) : GivesWay (.promise r) (.promise r')
  | function {body : Body} (h : body.isCallable = true) : GivesWay body body

namespace Body.GivesWay

variable {b b' b₁ : Body}

theorem refl (b : Body) : b.GivesWay b := by
  cases b with
  | plain => exact .plain ..
  | array => exact .array ..
  | promise => exact .promise ..
  | closure | bound | method | resolver => exact .function rfl

/-- A body gives way only to one that gives way itself. -/
theorem trans (h : b.GivesWay b') (h₁ : b'.GivesWay b₁) : b.GivesWay b₁ := by
  cases h with
  | function => exact h₁
  | plain =>
    cases h₁ with
    | plain => exact .plain ..
    | function h => cases h
  | array =>
    cases h₁ with
    | array => exact .array ..
    | function h => cases h
  | promise =>
    cases h₁ with
    | promise => exact .promise ..
    | function h => cases h

theorem kindName (h : b.GivesWay b') : b'.kindName = b.kindName := by cases h <;> rfl

theorem isData (h : b.GivesWay b') : b'.isData = b.isData := by cases h <;> rfl

end Body.GivesWay

/-- **An object later on.** -/
structure HeapObject.Later (o o' : HeapObject) : Prop where
  body : o.body.GivesWay o'.body
  className : o'.className = o.className
  label : ∀ name, o.label = some name → o'.label = some name
  frozen : o.frozen = true → o'.frozen = true

namespace HeapObject.Later

theorem refl (o : HeapObject) : o.Later o := ⟨.refl _, rfl, fun _ => id, id⟩

/-- A machine that has grown twice has grown. -/
theorem trans {o o' o₁ : HeapObject} (h : o.Later o') (h₁ : o'.Later o₁) : o.Later o₁ where
  body := h.body.trans h₁.body
  className := h₁.className.trans h.className
  label name ho := h₁.label name (h.label name ho)
  frozen ho := h₁.frozen (h.frozen ho)

/-- A change of an object keeps what it is. -/
theorem changed (o : HeapObject) (c : Change) : o.Later (o.changed c) := by
  unfold HeapObject.changed
  split
  · rename_i hbody
    exact ⟨hbody ▸ .array .., rfl, fun _ => id, id⟩
  · rename_i hbody
    exact ⟨hbody ▸ .plain .., rfl, fun _ => id, id⟩
  · rename_i hbody
    exact ⟨hbody ▸ .promise .., rfl, fun _ => id, id⟩
  · exact ⟨.refl _, rfl, fun _ => id, fun _ => rfl⟩
  · exact refl o

/-- A label that is set stays. -/
theorem labeled (name : String) (o : HeapObject) : o.Later (Heap.labeled name o) := by
  unfold Heap.labeled
  split
  · rename_i h
    have hnone := Option.isNone_iff_eq_none.mp (Bool.and_eq_true_iff.mp h).1
    refine ⟨.refl _, rfl, fun name ho => ?_, id⟩
    cases hnone.symm.trans ho
  · exact refl o

end HeapObject.Later

/-- **A scope later on**: bindings are added behind those that are there. -/
structure Scope.Later (s s' : Scope) : Prop where
  parent : s'.parent = s.parent
  kind : s'.kind = s.kind
  receiver : s'.receiver = s.receiver
  names : s.bindings.map Prod.fst <+: s'.bindings.map Prod.fst

namespace Scope.Later

theorem refl (s : Scope) : s.Later s := ⟨rfl, rfl, rfl, List.prefix_rfl⟩

theorem trans {s s' s₁ : Scope} (h : s.Later s') (h₁ : s'.Later s₁) : s.Later s₁ where
  parent := h₁.parent.trans h.parent
  kind := h₁.kind.trans h.kind
  receiver := h₁.receiver.trans h.receiver
  names := h.names.trans h₁.names

/-- A binding that is put in takes no name away. -/
theorem put (s : Scope) (name : String) (b : Binding) : s.Later (s.put name b) := by
  refine ⟨rfl, rfl, rfl, ?_⟩
  change _ <+: (putBinding name b s.bindings).map Prod.fst
  rw [keys_putBinding]
  split
  · exact List.prefix_rfl
  · exact List.prefix_append ..

end Scope.Later

/-- **An entry of a picture of the heap, later on.** -/
structure HeapView.Later (v v' : HeapView) : Prop where
  id : v'.id = v.id
  kind : v'.kind = v.kind
  label : v.label ≠ "" → v'.label = v.label

namespace HeapView.Later

theorem refl (v : HeapView) : v.Later v := ⟨rfl, rfl, fun _ => rfl⟩

theorem trans {v v' v₁ : HeapView} (h : v.Later v') (h₁ : v'.Later v₁) : v.Later v₁ where
  id := h₁.id.trans h.id
  kind := h₁.kind.trans h.kind
  label hv := by
    have hv' := h.label hv
    rw [h₁.label (hv' ▸ hv), hv']

end HeapView.Later

/-! ## Machines that grow -/

/-- **The pictures that steps show** of a heap on its way from one picture to another. -/
structure Shows (v : List HeapView) (shown : List Step) (v' : List HeapView) : Prop where
  start : ∀ s ∈ shown, Extends HeapView.Later v s.heap
  order : shown.Pairwise fun s s' => Extends HeapView.Later s.heap s'.heap
  last : ∀ s ∈ shown, Extends HeapView.Later s.heap v'

/-- **A machine and one that came of it.** -/
structure Machine.Grows (m m' : Machine) : Prop where
  steps : ∃ shown, m'.steps.toList = m.steps.toList ++ shown ∧ Shows m.heapViews shown m'.heapViews
  objects : Extends HeapObject.Later m.heap.objects.toList m'.heap.objects.toList
  scopes : Extends Scope.Later m.scopes.toList m'.scopes.toList
  nextTimer : m.nextTimer ≤ m'.nextTimer
  work : m.work ≤ m'.work

/-- The entry of an object in a picture of the heap. -/
def objectView? (shown : ObjectId → String) : HeapObject × ObjectId → Option HeapView
  | (o, id) => if o.body.isData then some ⟨id, o.label.getD "", o.body.kindName, shown id⟩ else none

theorem objectView?_of_data (shown : ObjectId → String) (id : ObjectId) {o : HeapObject}
    (h : o.body.isData = true) : objectView? shown (o, id) =
      some ⟨id, o.label.getD "", o.body.kindName, shown id⟩ := if_pos h

theorem objectView?_of_hidden (shown : ObjectId → String) (id : ObjectId) {o : HeapObject}
    (h : o.body.isData = false) : objectView? shown (o, id) = none := if_neg (by rw [h]; nofun)

/-- A later object is shown with its kind, and with its label if it had one. -/
theorem HeapObject.Later.entry {o o' : HeapObject} (h : o.Later o') (id : ObjectId)
    (text text' : String) :
    HeapView.Later ⟨id, o.label.getD "", o.body.kindName, text⟩
      ⟨id, o'.label.getD "", o'.body.kindName, text'⟩ := by
  refine ⟨rfl, h.body.kindName, fun hlabel => ?_⟩
  cases hname : o.label with
  | none => exact absurd (congrArg (Option.getD · "") hname) hlabel
  | some name => exact congrArg (Option.getD · "") (h.label name hname)

/-- Objects keep their places in the pictures of a heap. -/
theorem Extends.objectViews {l l' : List HeapObject} (h : Extends HeapObject.Later l l')
    (shown shown' : ObjectId → String) (n : Nat) :
    Extends HeapView.Later ((l.zipIdx n).filterMap (objectView? shown))
      ((l'.zipIdx n).filterMap (objectView? shown')) := by
  induction h generalizing n with
  | nil => exact .nil _
  | @cons o o' l l' ho _ ih =>
    cases hdata : o.body.isData with
    | false =>
      rw [List.zipIdx_cons, List.zipIdx_cons,
        List.filterMap_cons_none (objectView?_of_hidden shown n hdata),
        List.filterMap_cons_none (objectView?_of_hidden shown' n (ho.body.isData.trans hdata))]
      exact ih (n + 1)
    | true =>
      rw [List.zipIdx_cons, List.zipIdx_cons,
        List.filterMap_cons_some (objectView?_of_data shown n hdata),
        List.filterMap_cons_some (objectView?_of_data shown' n (ho.body.isData.trans hdata))]
      exact .cons (ho.entry ..) (ih (n + 1))

theorem Extends.heapViews {m m' : Machine}
    (h : Extends HeapObject.Later m.heap.objects.toList m'.heap.objects.toList) :
    Extends HeapView.Later m.heapViews m'.heapViews :=
  h.objectViews (fun id => m.inspect (.object id)) (fun id => m'.inspect (.object id)) 0

namespace Shows

variable {v v' v₁ : List HeapView} {shown shown₁ : List Step}

theorem none (v v' : List HeapView) : Shows v [] v' := ⟨nofun, .nil, nofun⟩

theorem append (hv : Extends HeapView.Later v v') (hv₁ : Extends HeapView.Later v' v₁)
    (h : Shows v shown v') (h₁ : Shows v' shown₁ v₁) : Shows v (shown ++ shown₁) v₁ where
  start s hs := by
    rcases List.mem_append.mp hs with hs | hs
    · exact h.start s hs
    · exact hv.trans .trans (h₁.start s hs)
  order := List.pairwise_append.mpr
    ⟨h.order, h₁.order, fun s hs s₁ hs₁ => (h.last s hs).trans .trans (h₁.start s₁ hs₁)⟩
  last s hs := by
    rcases List.mem_append.mp hs with hs | hs
    · exact (h.last s hs).trans .trans hv₁
    · exact h₁.last s hs

end Shows

namespace Machine.Grows

variable {m m' m₁ : Machine}

/-- Nothing is shown. -/
theorem of_store (hs : m'.steps = m.steps)
    (ho : Extends HeapObject.Later m.heap.objects.toList m'.heap.objects.toList)
    (hc : Extends Scope.Later m.scopes.toList m'.scopes.toList) (hn : m.nextTimer ≤ m'.nextTimer)
    (hw : m.work ≤ m'.work) : m.Grows m' :=
  ⟨⟨[], by rw [hs, List.append_nil], .none _ _⟩, ho, hc, hn, hw⟩

/-- Neither objects nor scopes change. -/
theorem of_eq (hs : m'.steps = m.steps) (ho : m'.heap = m.heap) (hc : m'.scopes = m.scopes)
    (hn : m.nextTimer ≤ m'.nextTimer) (hw : m.work ≤ m'.work) : m.Grows m' :=
  of_store hs (ho ▸ .refl .refl _) (hc ▸ .refl .refl _) hn hw

theorem refl (m : Machine) : m.Grows m := of_eq rfl rfl rfl le_rfl le_rfl

theorem trans (h : m.Grows m') (h₁ : m'.Grows m₁) : m.Grows m₁ where
  steps := by
    obtain ⟨shown, hshown, hv⟩ := h.steps
    obtain ⟨shown₁, hshown₁, hv₁⟩ := h₁.steps
    refine ⟨shown ++ shown₁, by rw [hshown₁, hshown, List.append_assoc], ?_⟩
    exact hv.append h.objects.heapViews h₁.objects.heapViews hv₁
  objects := h.objects.trans .trans h₁.objects
  scopes := h.scopes.trans .trans h₁.scopes
  nextTimer := h.nextTimer.trans h₁.nextTimer
  work := h.work.trans h₁.work

/-- A step shows the heap as it is. -/
theorem recorded (m : Machine) (scope : ScopeId) (line : Nat) (kind : StepKind)
    (description : String) : m.Grows (m.recorded scope line kind description) where
  steps := by
    refine ⟨[m.view scope line kind description], Array.toList_push, ?_,
      List.pairwise_singleton _ _, ?_⟩
    all_goals
      intro s hs
      cases List.mem_singleton.mp hs
      exact .refl .refl _
  objects := .refl .refl _
  scopes := .refl .refl _
  nextTimer := le_rfl
  work := le_rfl

theorem shown (h : m.Grows m') {scope : ScopeId} {line : Nat} {kind : StepKind}
    {description : String} : m.Grows (m'.recorded scope line kind description) :=
  h.trans (recorded ..)

/-- A new object goes behind the others. -/
theorem objects_add (h : Heap) (body : Body) (className : Option String) :
    Extends HeapObject.Later h.objects.toList (h.add body className).objects.toList := by
  rw [Heap.add, Array.toList_push]
  exact .append .refl _ _

/-- A change that keeps what an object is lets the heap grow. -/
theorem objects_modify (h : Heap) (id : ObjectId) {f : HeapObject → HeapObject}
    (hf : ∀ o : HeapObject, o.Later (f o)) :
    Extends HeapObject.Later h.objects.toList (h.modify id f).objects.toList := by
  rw [Heap.modify, Array.toList_modify]
  exact .modify .refl hf _ _

theorem objects_label (h : Heap) (v : Value) (name : String) :
    Extends HeapObject.Later h.objects.toList (h.label v name).objects.toList := by
  unfold Heap.label
  split
  · exact objects_modify _ _ (.labeled name)
  · exact .refl .refl _

/-- A new scope goes behind the others. -/
theorem scopes_push (scopes : Scopes) (s : Scope) :
    Extends Scope.Later scopes.toList (scopes.push s).toList := by
  rw [Array.toList_push]
  exact .append .refl _ _

/-- A binding that is put in lets its scope grow. -/
theorem scopes_put (scopes : Scopes) (id : ScopeId) (name : String) (b : Binding) :
    Extends Scope.Later scopes.toList (scopes.modify id (·.put name b)).toList := by
  rw [Array.toList_modify]
  exact .modify .refl (Scope.Later.put · name b) _ _

/-- **Machines grow with every effect.** -/
theorem effect {l : Layer} {W : World} {f : Option Fault} (h : Effect l W m f m') :
    m.Grows m' := by
  cases h with
  | allocate => exact of_store rfl (objects_add ..) (.refl .refl _) le_rfl le_rfl
  | raise => exact of_store rfl (objects_add ..) (.refl .refl _) le_rfl le_rfl
  | @change id c =>
    exact of_store rfl (objects_modify _ _ (.changed · c)) (.refl .refl _) le_rfl le_rfl
  | newScope | copyScope => exact of_store rfl (.refl .refl _) (scopes_push ..) le_rfl le_rfl
  | putIn => exact of_store rfl (objects_label ..) (scopes_put ..) le_rfl le_rfl
  | record | recordHere | showMacrotask => exact recorded ..
  | print | enterPhase =>
    refine shown ?_
    exact of_eq rfl rfl rfl le_rfl le_rfl
  | tick | overrun => exact of_eq rfl rfl rfl le_rfl (Nat.le_succ _)
  | addTimer => exact of_eq rfl rfl rfl (Nat.le_succ _) le_rfl
  | _ => exact of_eq rfl rfl rfl le_rfl le_rfl

/-- What a call does lets the machine grow. -/
theorem call {W : World} {f : Option Fault} (h : CallEffect W m f m') : m.Grows m' := by
  cases h with
  | showCall | showReturn => exact recorded ..
  | _ => exact of_eq rfl rfl rfl le_rfl le_rfl

end Machine.Grows

/-- Step by step the machine grows. -/
theorem growing_stepwise (l : Layer) : (Invariant.ofMoves fun m _ m' => m.Grows m').Stepwise l where
  toComposes := .of_effects (Invariant.safe_ofMoves _) (fun _ => .refl _) .trans id fun _ => .effect
  call _ := .call
  shown h _ _ := h.shown

/-- **Machines grow with every evaluation.** -/
theorem Evaluation.grows {α : Type} {x : Evaluator → Exec α} (hx : Evaluation x) (fuel : Nat)
    (m : Machine) : m.Grows ((x (.bounded fuel)).after m) :=
  hx.action.moves (growing_stepwise .loop).lawful m

/-- The whole of a run is growth. -/
theorem finalMachine_grows (limits : Limits) (fuel : Nat) (program : Syntax.Program) :
    (Machine.initial limits).Grows (finalMachine limits fuel program) := by
  have hrun := (Evaluation.runProgram program).grows fuel (.initial limits)
  cases h : (Evaluator.bounded fuel).runProgram program (.initial limits) with
  | ok _ m =>
    rw [finalMachine_of_ok h]
    rwa [Exec.after_of_ok h] at hrun
  | error f m =>
    rw [finalMachine_of_error h]
    rw [Exec.after_of_error h] at hrun
    exact hrun.shown

/-- In a trace, the heap grows from step to step. -/
theorem run_heaps_grow (limits : Limits) (fuel : Nat) (source : String) :
    (runWithin limits fuel source).steps.toList.Pairwise fun s s' =>
      Extends HeapView.Later s.heap s'.heap := by
  rcases runWithin_steps limits fuel source with h | ⟨program, -, h⟩
  · rw [h]
    exact .nil
  · obtain ⟨shown, hshown, hv⟩ := (finalMachine_grows limits fuel program).steps
    rw [h, hshown]
    exact hv.order

/-- **Nothing is taken back.**  Machines grow with every evaluation, however it ends: steps, objects
and scopes are added behind those that are there; objects keep their kind, their class and their
label, and all of themselves if they are functions; scopes keep their place, their receiver and
their names.  So of two steps of a trace the later one shows, in the same places, all objects that
the earlier one shows, with their labels. -/
theorem nothing_taken_back :
    (∀ {α : Type} {x : Evaluator → Exec α}, Evaluation x → ∀ (fuel : Nat) (m : Machine),
      m.Grows ((x (.bounded fuel)).after m)) ∧
    ∀ (limits : Limits) (fuel : Nat) (source : String) {i j : Nat} {s s' : Step}, i < j →
      (runWithin limits fuel source).steps[i]? = some s →
      (runWithin limits fuel source).steps[j]? = some s' →
      (s.heap.map fun v => (v.id, v.kind)) <+: (s'.heap.map fun v => (v.id, v.kind)) ∧
      Extends HeapView.Later s.heap s'.heap := by
  refine ⟨Evaluation.grows, fun limits fuel source {i j s s'} hij hs hs' => ?_⟩
  rw [Array.getElem?_eq_some_iff] at hs hs'
  obtain ⟨hi, rfl⟩ := hs
  obtain ⟨hj, rfl⟩ := hs'
  have hgrow := List.pairwise_iff_getElem.mp (run_heaps_grow limits fuel source) i j hi hj hij
  exact ⟨hgrow.map_prefix fun h => Prod.ext h.id h.kind, hgrow⟩

/-- A program that makes two arrays. -/
def arraysUse : String := "const a = []; const b = [a];"

/-- A second array gets its label while the first one keeps its own. -/
theorem arraysUse_grows :
    (Machine.initial .default).Grows
      (((Evaluator.bounded 9).callHost (.console .log) [.string "a"] 1).after (.initial .default)) ∧
    ∃ s s', (runWithin .default 60 arraysUse).steps[1]? = some s ∧
      (runWithin .default 60 arraysUse).steps[2]? = some s' ∧
      (s.heap.map HeapView.label, s'.heap.map HeapView.label) = (["a"], ["a", "b"]) ∧
      Extends HeapView.Later s.heap s'.heap := by
  refine ⟨nothing_taken_back.1 (.callHost _ _ _) 9 _, ?_⟩
  obtain ⟨hlabels, hlabels'⟩ :
      ((runWithin .default 60 arraysUse).steps[1]?.map fun s => s.heap.map HeapView.label) = some ["a"] ∧
      ((runWithin .default 60 arraysUse).steps[2]?.map fun s => s.heap.map HeapView.label) =
        some ["a", "b"] := by decide +kernel
  obtain ⟨s, hs, hlabels⟩ := Option.map_eq_some_iff.mp hlabels
  obtain ⟨s', hs', hlabels'⟩ := Option.map_eq_some_iff.mp hlabels'
  exact ⟨s, s', hs, hs', Prod.ext hlabels hlabels',
    (nothing_taken_back.2 .default 60 arraysUse (by decide) hs hs').2⟩

end ScriptTrace
