import ScriptTrace.Proofs.Nested
import ScriptTrace.Proofs.ScopeTree

/-!
# Proofs/Closed — nothing names what is not there

A machine is closed if all that its heap, its scopes, its queues and its timers name is there, its
scopes form a tree, and all steps it recorded are sound.  Every single change keeps a machine
closed, so every machine that a run leads to is closed, and no number is ever looked up in vain.
-/

namespace ScriptTrace

/-! ## What is there -/

/-- What is there in a heap and among scopes. -/
def World.of (h : Heap) (scopes : Scopes) : World
  | .object id => id < h.size
  | .promise id => ∃ r, h.body? id = some (.promise r)
  | .scope id => id ≠ Scopes.globalId ∧ id < scopes.size

/-- What is there in a machine. -/
def Machine.world (m : Machine) : World := .of m.heap m.scopes

section

variable {h : Heap} {scopes : Scopes} {W : World}

/-- In a world all scopes of the machine can be seen, and no others. -/
theorem sees_of_iff (hs : 0 < scopes.size) {id : ScopeId} :
    Sees (World.of h scopes) id ↔ id < scopes.size := by
  refine sees_iff.trans ⟨fun hid => ?_, fun hid hne => ⟨hne, hid⟩⟩
  by_cases hne : id = Scopes.globalId
  · exact hne ▸ hs
  · exact (hid hne).2

/-- A change of an object is seen at its own place only. -/
theorem Heap.body?_modify (h : Heap) (id id' : ObjectId) (f : HeapObject → HeapObject) :
    (h.modify id f).body? id' =
      if id = id' then (h.get? id').map fun o => (f o).body else h.body? id' := by
  simp only [body?, get?, modify, Array.getElem?_modify]
  split
  · rw [Option.map_map]
    rfl
  · rfl

/-- A label changes no contents. -/
theorem Heap.body?_label (h : Heap) (v : Value) (name : String) (id : ObjectId) :
    (h.label v name).body? id = h.body? id := by
  have hbody (o : HeapObject) : (labeled name o).body = o.body := by
    unfold labeled
    split <;> rfl
  unfold label
  split
  · rw [body?_modify]
    split
    · simp only [hbody]
      rfl
    · rfl
  · rfl

/-- A label brings in no object. -/
theorem Heap.size_label (h : Heap) (v : Value) (name : String) :
    (h.label v name).size = h.size := by
  unfold label
  split
  · exact Array.size_modify
  · rfl

/-- Promises stay promises, and nothing else becomes one. -/
theorem HeapObject.changed_promise {o : HeapObject} {c : Change} :
    (∃ r, (o.changed c).body = .promise r) ↔ ∃ r, o.body = .promise r := by
  unfold changed
  split
  iterate 3
    rename_i hbody
    simp [hbody]
  all_goals exact Iff.rfl

/-- A world only grows when an object is added to it. -/
theorem World.of_add {body : Body} {className : Option String} :
    World.of h scopes ⊆ World.of (h.add body className) scopes := by
  rintro (id | id | id) hid
  · exact Nat.lt_of_lt_of_eq (Nat.lt_succ_of_lt hid) (Array.size_push _).symm
  · obtain ⟨r, hr⟩ := hid
    refine ⟨r, ?_⟩
    have hlt : id < h.size := by
      obtain ⟨o, ho, -⟩ := Option.map_eq_some_iff.mp hr
      exact (Array.getElem?_eq_some_iff.mp ho).1
    rw [Heap.body?_add, if_neg hlt.ne, hr]
  · exact hid

/-- Changing an object makes nothing and takes nothing away. -/
theorem World.of_change {id : ObjectId} {c : Change} :
    World.of (h.modify id (·.changed c)) scopes = World.of h scopes := by
  ext (id' | id' | id')
  · change id' < (h.objects.modify id _).size ↔ id' < h.objects.size
    rw [Array.size_modify]
  · change (∃ r, (h.modify id (·.changed c)).body? id' = some (.promise r)) ↔
      ∃ r, h.body? id' = some (.promise r)
    rw [Heap.body?_modify]
    split
    · rw [Heap.body?]
      cases h.get? id' with
      | none => exact Iff.rfl
      | some o => simpa using HeapObject.changed_promise
    · exact Iff.rfl
  · exact Iff.rfl

/-- A world only grows when a scope is added to it. -/
theorem World.of_push {s : Scope} : World.of h scopes ⊆ World.of h (scopes.push s) := by
  rintro (id | id | id) hid
  · exact hid
  · exact hid
  · exact ⟨hid.1, Nat.lt_of_lt_of_eq (Nat.lt_succ_of_lt hid.2) (Array.size_push _).symm⟩

/-- Binding a name makes nothing and takes nothing away. -/
theorem World.of_put {v : Value} {name : String} {owner : ScopeId} {b : Binding} :
    World.of (h.label v name) (scopes.modify owner (·.put name b)) = World.of h scopes := by
  ext (id | id | id)
  · change id < (h.label v name).size ↔ id < h.size
    rw [Heap.size_label]
  · change (∃ r, (h.label v name).body? id = some (.promise r)) ↔ ∃ r, h.body? id = _
    rw [Heap.body?_label]
  · change id ≠ _ ∧ id < (scopes.modify owner _).size ↔ id ≠ _ ∧ id < scopes.size
    rw [Array.size_modify]

end

/-! ## What changed data name -/

section

variable {W : World} {h : Heap} {scopes : Scopes}

/-- A change that stays within the world keeps an array within it. -/
theorem Within.modify {α : Type} [Holder α] {l : Array α} {f : α → α} {i : Nat} (hl : Within W l)
    (hf : ∀ a, Within W a → Within W (f a)) : Within W (l.modify i f) := by
  refine within_array.mpr fun a ha => ?_
  obtain ⟨j, hj, rfl⟩ := Array.getElem_of_mem ha
  rw [Array.getElem_modify]
  split
  · exact hf _ (hl.of_memArray (Array.getElem_mem _))
  · exact hl.of_memArray (Array.getElem_mem _)

/-- An object that takes in what is known holds only what is known. -/
theorem Within.changed {o : HeapObject} {c : Change} (ho : Within W o) (hc : Within W c) :
    Within W (o.changed c) := by
  unfold HeapObject.changed
  split
  all_goals first | exact hc | exact ho

/-- A label changes nothing that an object holds. -/
theorem Within.label {v : Value} {name : String} (hh : Within W h) :
    Within W (h.label v name) := by
  unfold Heap.label
  split
  · refine Within.modify (l := h.objects) hh fun o ho => ?_
    unfold Heap.labeled
    split
    · exact ho
    · exact ho
  · exact hh

/-- A binding within the world keeps a scope within it. -/
theorem Within.putBinding {name : String} {b : Binding} {es : List (String × Binding)}
    (he : Within W es) (hb : Within W b) : Within W (putBinding name b es) := by
  induction es with
  | nil => exact within_cons.mpr ⟨hb, within_nil⟩
  | cons e es ih =>
    obtain ⟨h₁, h₂⟩ := within_cons.mp he
    unfold ScriptTrace.putBinding
    split
    · exact within_cons.mpr ⟨hb, h₂⟩
    · exact within_cons.mpr ⟨h₁, ih h₂⟩

/-- A scope that takes in a known value holds only what is known. -/
theorem Within.put {s : Scope} {name : String} {b : Binding} (hs : Within W s)
    (hb : Within W b) : Within W (s.put name b) := by
  obtain ⟨hp, he, hr⟩ := within_scope.mp hs
  exact within_scope.mpr ⟨hp, he.putBinding hb, hr⟩

end

/-! ## Sound pictures -/

/-- **A sound picture**: its scopes end with the global one, and a variable that refers to the heap
names an entry of the same picture with the text of the variable. -/
structure Step.Sound (s : Step) : Prop where
  global : ∃ inner g, s.scopes = inner ++ [g] ∧ g.name = "Global" ∧ g.kind = "global"
  refers : ∀ g ∈ s.scopes, ∀ v ∈ g.bindings, ∀ id, v.heapRef = some id →
    ∃ o ∈ s.heap, o.id = id ∧ o.value = v.value

namespace Machine

variable {m : Machine}

/-- What a variable refers to is among the entries of the heap, with the same text. -/
theorem heapView_of_heapRef {v : Value} {id : ObjectId} (h : m.heapRef? v = some id) :
    ∃ o ∈ m.heapViews, o.id = id ∧ o.value = m.inspect v := by
  obtain ⟨hid, hdata⟩ := Option.filter_eq_some_iff.mp h
  obtain ⟨b, hb, hdata⟩ := (Option.any_eq_true _ _).mp hdata
  obtain ⟨o, ho, rfl⟩ := Option.map_eq_some_iff.mp hb
  obtain rfl : v = .object id := by
    cases v <;> first | cases hid; rfl | cases hid
  refine ⟨⟨id, o.label.getD "", o.body.kindName, m.inspect (.object id)⟩, ?_, rfl, rfl⟩
  refine List.mem_filterMap.mpr ⟨(o, id), ?_, if_pos hdata⟩
  rw [List.mem_zipIdx_iff_getElem?, Array.getElem?_toList]
  exact ho

/-- The global scope is shown under its own name. -/
theorem scopeView_global {s : Scope} (hs : m.scopes[Scopes.globalId]? = some s)
    (hk : s.kind = .global) :
    ∃ g, m.scopeView? Scopes.globalId = some g ∧ g.name = "Global" ∧ g.kind = "global" := by
  refine ⟨⟨s.kind.title, s.kind.label, s.bindings.map fun e => m.variableView e.1 e.2⟩, ?_⟩
  rw [scopeView?, hs, Option.bind_some]
  simp only [hk]
  exact ⟨by simp [ScopeKind.isHiddenEmpty], rfl, rfl⟩

/-- What a step tells of a machine resolves in what it tells of the heap. -/
theorem view_sound (ht : m.scopes.IsTree) {scope : ScopeId} (hs : scope < m.scopes.size)
    (line : Nat) (kind : StepKind) (description : String) :
    (m.view scope line kind description).Sound where
  global := by
    obtain ⟨⟨inner, hinner⟩, -⟩ := ht.chain_outward hs
    obtain ⟨s, hglobal⟩ := Scopes.IsTree.exists_of_lt ht.nonempty
    obtain ⟨g, hg, hname, hkind⟩ := scopeView_global hglobal ((ht.fits hglobal).kind.mpr rfl)
    refine ⟨inner.filterMap m.scopeView?, g, ?_, hname, hkind⟩
    change (m.scopes.chain scope).filterMap m.scopeView? = _
    rw [hinner, List.filterMap_append, List.filterMap_cons, hg, List.filterMap_nil]
  refers := by
    intro g hg v hv id hid
    obtain ⟨sid, -, hview⟩ := List.mem_filterMap.mp hg
    obtain ⟨s, -, hview⟩ := Option.bind_eq_some_iff.mp hview
    split at hview
    · cases hview
    · cases hview
      obtain ⟨e, -, rfl⟩ := List.mem_map.mp hv
      exact heapView_of_heapRef hid

end Machine

/-! ## Closed machines -/

/-- **A closed machine**: nothing in it names what is not there. -/
structure Machine.Closed (m : Machine) : Prop where
  tree : m.scopes.IsTree
  heap : Within m.world m.heap
  scopes : Within m.world m.scopes
  timers : Within m.world m.timers
  callbacks : Within m.world m.callbacks
  microtasks : Within m.world m.microtasks
  scope : Sees m.world m.scope
  shown : ∀ s ∈ m.steps, s.Sound

namespace Machine.Closed

variable {m m' : Machine} {l : Layer} {f : Option Fault}

/-- The machine in which a run begins is closed. -/
theorem initial (limits : Limits) : (Machine.initial limits).Closed where
  tree := .initial
  heap := within_nil
  scopes := by
    refine within_array.mpr fun s hs => ?_
    obtain rfl := Array.mem_singleton.mp hs
    exact within_scope.mpr ⟨nofun, within_nil, within_none⟩
  timers := within_nil
  callbacks := within_nil
  microtasks := within_nil
  scope := sees_global
  shown _ hs := absurd hs (Array.not_mem_empty _)

theorem sees_iff (hm : m.Closed) {id : ScopeId} : Sees m.world id ↔ id < m.scopes.size :=
  sees_of_iff hm.tree.nonempty

/-- Another heap and other scopes in which all is there that was. -/
theorem of_store (hm : m.Closed) {h : Heap} {scopes : Scopes} (ht : scopes.IsTree)
    (hW : m.world ⊆ .of h scopes) (hh : Within (.of h scopes) h)
    (hs : Within (.of h scopes) scopes) : { m with heap := h, scopes := scopes }.Closed where
  tree := ht
  heap := hh
  scopes := hs
  timers := hm.timers.mono hW
  callbacks := hm.callbacks.mono hW
  microtasks := hm.microtasks.mono hW
  scope := hm.scope.mono hW
  shown := hm.shown

/-- A closed machine stays so when an object is made of what it knows. -/
theorem add (hm : m.Closed) {body : Body} {className : Option String} (hb : Within m.world body) :
    { m with heap := m.heap.add body className }.Closed :=
  hm.of_store hm.tree World.of_add
    ((hm.heap.mono World.of_add).push (within_heapObject.mpr (hb.mono World.of_add)))
    (hm.scopes.mono World.of_add)

/-- A closed machine stays so when a scope is opened that fits. -/
theorem pushScope (hm : m.Closed) {s : Scope} (hs : Within m.world s)
    (hfit : s.FitsAt m.scopes.size) : { m with scopes := m.scopes.push s }.Closed :=
  hm.of_store (hm.tree.push hfit) World.of_push (hm.heap.mono World.of_push)
    ((hm.scopes.mono World.of_push).push (hs.mono World.of_push))

/-- A closed machine stays so when a step is recorded. -/
theorem recorded (hm : m.Closed) {scope : ScopeId} (hs : Sees m.world scope) (line : Nat)
    (kind : StepKind) (description : String) : (m.recorded scope line kind description).Closed :=
  { hm with
    shown := fun s h => (Array.mem_push.mp h).elim (hm.shown s) fun h =>
      h ▸ view_sound hm.tree (hm.sees_iff.mp hs) line kind description }

theorem enterPhase (hm : m.Closed) (phase : Phase) : { m with phase }.Closed := { hm with }

theorem write (hm : m.Closed) (e : ConsoleEntry) :
    { m with console := m.console.push e }.Closed := { hm with }

/-- **A single change keeps a machine closed.** -/
theorem effect (hm : m.Closed) (h : Effect l m.world m f m') : m'.Closed := by
  cases h with
  | still | fail | throw => exact hm
  | tick | overrun | random => exact { hm with }
  | enter h => exact { hm with scope := h }
  | allocate h => exact hm.add h
  | raise h => exact hm.add h
  | change h hc =>
    refine hm.of_store hm.tree World.of_change.ge ?_ (hm.scopes.mono World.of_change.ge)
    rw [World.of_change]
    exact Within.modify hm.heap fun _ ho => Within.changed ho hc
  | newScope h hk hr =>
    refine hm.pushScope (within_scope.mpr ⟨?_, within_nil, hr⟩) (.inside (hm.sees_iff.mp h) hk)
    rintro p ⟨⟩
    exact h
  | copyScope h =>
    obtain ⟨hne, hlt⟩ := h
    obtain ⟨s, hs⟩ := Scopes.IsTree.exists_of_lt hlt
    rw [Array.getD_eq_getD_getElem?, hs]
    exact hm.pushScope (hm.scopes.of_memArray (Array.mem_of_getElem? hs))
      ((hm.tree.fits hs).later hne hlt)
  | putIn h hb =>
    refine hm.of_store (hm.tree.modify fun hs => hs.put _ _) World.of_put.ge ?_ ?_
    · rw [World.of_put]
      exact hm.heap.label
    · rw [World.of_put]
      exact hm.scopes.modify fun s hs => hs.put hb
  | record h => exact hm.recorded h _ _ _
  | recordHere => exact hm.recorded hm.scope _ _ _
  | print => exact (hm.write _).recorded hm.scope _ _ _
  | addTimer hc ha =>
    refine { hm with timers := within_append.mpr ⟨hm.timers, within_cons.mpr ⟨?_, within_nil⟩⟩ }
    exact within_timer.mpr ⟨hc, ha⟩
  | addMicrotask h =>
    have htask := within_cons.mpr ⟨h, within_nil⟩
    exact { hm with microtasks := within_append.mpr ⟨hm.microtasks, htask⟩ }
  | enterPhase => exact (hm.enterPhase _).recorded sees_global _ _ _
  | showMacrotask => exact hm.recorded hm.scope _ _ _
  | takeMicrotask _ h =>
    exact { hm with microtasks := (within_cons.mp (h ▸ hm.microtasks)).2 }
  | takeCallback _ h => exact { hm with callbacks := (within_cons.mp (h ▸ hm.callbacks)).2 }
  | moveTimers =>
    have hdue : Within m.world ((Timer.inOrder m.timers).map Timer.task) := by
      refine within_list.mpr fun task htask => ?_
      obtain ⟨t, ht, rfl⟩ := List.mem_map.mp htask
      exact within_callback.mpr (within_timer.mp (hm.timers.of_mem (List.mem_mergeSort.mp ht)))
    exact { hm with timers := within_nil, callbacks := within_append.mpr ⟨hm.callbacks, hdue⟩ }

/-- A closed machine stays so when a call begins or ends. -/
theorem call (hm : m.Closed) (h : CallEffect m.world m f m') : m'.Closed := by
  cases h with
  | push | tooDeep | pop => exact { hm with }
  | showCall h | showReturn h => exact hm.recorded h _ _ _

end Machine.Closed

section

variable {m m' : Machine} {l : Layer} {f : Option Fault}

/-- Nothing that is there goes away. -/
theorem Effect.grows (h : Effect l m.world m f m') : m.world ⊆ m'.world := by
  cases h with
  | allocate | raise => exact World.of_add
  | change => exact World.of_change.ge
  | newScope | copyScope => exact World.of_push
  | putIn => exact World.of_put.ge
  | _ => exact subset_rfl

theorem CallEffect.world_eq (h : CallEffect m.world m f m') : m'.world = m.world := by
  cases h <;> rfl

/-- What is thrown names what is there. -/
theorem Effect.held (h : Effect l m.world m f m') : ∀ g, f = some g → Within m'.world g := by
  rintro g rfl
  cases h with
  | throw h => exact h
  | raise =>
    exact within_object.mpr (Nat.lt_of_lt_of_eq (Nat.lt_succ_self _) (Array.size_push _).symm)
  | fail h => exact within_fault (Fault.isThrown_of_isLocal h)
  | overrun => exact within_fault rfl

end

/-! ## Every machine of a run -/

/-- **Machines that a run can lead to**, one change after another. -/
inductive Reachable (limits : Limits) : Machine → Prop
  | initial : Reachable limits (.initial limits)
  | effect {m m' : Machine} {f : Option Fault} (hm : Reachable limits m)
    (h : Effect .loop m.world m f m') : Reachable limits m'
  | call {m m' : Machine} {f : Option Fault} (hm : Reachable limits m)
    (h : CallEffect m.world m f m') : Reachable limits m'
  /-- The fault that ends a run is shown. -/
  | stopped {m : Machine} (hm : Reachable limits m) (f : Fault) :
    Reachable limits (m.recorded m.scope f.line .error f.message)

/-- **Every reachable machine is closed.** -/
theorem Reachable.closed {limits : Limits} {m : Machine} (h : Reachable limits m) : m.Closed := by
  induction h with
  | initial => exact .initial limits
  | effect _ h ih => exact ih.effect h
  | call _ h ih => exact ih.call h
  | stopped _ f ih => exact ih.recorded ih.scope _ _ _

/-- Closed machines with what is there in them. -/
def Invariant.closed (moves : Machine → Option Fault → Machine → Prop) : Invariant :=
  ⟨Machine.Closed, Machine.world, moves⟩

/-- Writing makes nothing and takes nothing away, unless it throws. -/
theorem Writing.world_eq {W : World} {m m' : Machine} {x : Exec Unit} (h : Writing W m.heap x)
    (hx : x m = .ok () m') : m'.world = m.world := by
  induction h with
  | skip =>
    cases hx
    rfl
  | change =>
    cases hx
    exact World.of_change
  | misuse | raise => cases hx
  | withHeap _ ih => exact ih hx
  | withCeiling _ ih => exact ih m.limits.maxLength hx

/-- What is read from a closed machine names what is there. -/
theorem Elementary.yields_closed {l : Layer} {W : World} {α : Type} {x : Exec α} {P : α → Prop}
    (h : Elementary l W x P) {m m' : Machine} {a : α} (hm : m.Closed) (hW : m.world = W)
    (hx : x m = .ok a m') : P a ∧ m'.world = W := by
  subst hW
  cases h with
  | heap =>
    cases hx
    exact ⟨hm.heap, rfl⟩
  | scopes =>
    cases hx
    exact ⟨⟨hm.scopes, fun _ => hm.sees_iff.mpr⟩, rfl⟩
  | tick =>
    rw [Exec.eq_of_tick hx]
    exact ⟨trivial, rfl⟩
  | write h => exact ⟨trivial, (h m.heap hm.heap).world_eq hx⟩
  | @flattened items depth hi =>
    cases hflat : flatten m.heap m.limits.maxLength depth items with
    | some all =>
      cases (Exec.flattened_of_some hflat).symm.trans hx
      exact ⟨within_flatten hm.heap hi hflat, rfl⟩
    | none => cases (Exec.flattened_of_none hflat).symm.trans hx
  | @addReaction id r =>
    rcases Exec.addReaction_cases id r m with
      ⟨-, hadd⟩ | ⟨rs, -, hadd⟩ | ⟨outcome, rs, label, -, -, hadd⟩
    all_goals cases hadd.symm.trans hx
    · exact ⟨trivial, rfl⟩
    · exact ⟨trivial, World.of_change⟩
    · exact ⟨trivial, rfl⟩
  | @settle id outcome line _ _ hp =>
    rcases Exec.settleFlat_cases id line m hp with
      hsettle | ⟨rs, tasks, description, -, -, -, hsettle⟩
    all_goals cases hsettle.symm.trans hx
    · exact ⟨trivial, rfl⟩
    · exact ⟨trivial, World.of_change⟩
  | putIn =>
    cases hx
    exact ⟨trivial, World.of_put⟩
  | print =>
    cases hx
    exact ⟨within_undefined, rfl⟩
  | nextMicrotask? =>
    cases hq : m.microtasks with
    | nil =>
      cases (Exec.nextMicrotask_of_nil hq).symm.trans hx
      exact ⟨within_none, rfl⟩
    | cons task rest =>
      cases (Exec.nextMicrotask_of_cons hq).symm.trans hx
      exact ⟨within_some.mpr (within_cons.mp (hq ▸ hm.microtasks)).1, rfl⟩
  | nextCallback? =>
    cases hq : m.callbacks with
    | nil =>
      cases (Exec.nextCallback_of_nil hq).symm.trans hx
      exact ⟨within_none, rfl⟩
    | cons task rest =>
      cases (Exec.nextCallback_of_cons hq).symm.trans hx
      exact ⟨within_some.mpr (within_cons.mp (hq ▸ hm.callbacks)).1, rfl⟩
  | throw | raise | fail => cases hx
  | _ =>
    cases hx
    exact ⟨trivial, rfl⟩

/-- Every effect keeps a machine closed. -/
theorem Invariant.safe_closed (moves : Machine → Option Fault → Machine → Prop) :
    (closed moves).Safe where
  current hm := hm.scope
  effect hm h := ⟨hm.effect h, h.grows, h.held⟩
  call hm h := ⟨hm.call h, h.world_eq.ge⟩
  yields h hm hW hx := h.yields_closed hm hW hx
  allocate {m body className} _ _ := by
    have hsize : (m.heap.add body className).size = m.heap.size + 1 := Array.size_push _
    refine ⟨Nat.lt_of_lt_of_eq (Nat.lt_succ_self _) hsize.symm, ?_⟩
    rintro ⟨r, rfl⟩
    exact ⟨r, by rw [Heap.body?_add, if_pos rfl]⟩
  newScope hm :=
    ⟨hm.tree.nonempty.ne', Nat.lt_of_lt_of_eq (Nat.lt_succ_self _) (Array.size_push _).symm⟩

/-- The invariant that reachable machines lead to reachable ones. -/
def Invariant.reaching (limits : Limits) : Invariant :=
  .closed fun m _ m' => Reachable limits m → Reachable limits m'

/-- From reachable machines only reachable ones are reached. -/
theorem reaching_stepwise (limits : Limits) : (Invariant.reaching limits).Stepwise .loop where
  toComposes := .of_effects (Invariant.safe_closed _) (fun _ => id) (fun h₁ h₂ => h₂ ∘ h₁) id
    fun _ h hm => .effect hm h
  call _ h hm := .call hm h
  shown h _ hs hm := .call (h hm) (.showCall hs)

/-- An action leads from reachable machines to reachable ones, however it ends. -/
theorem Action.reachable {limits : Limits} {α : Type} {x : Evaluator → Exec α}
    {Q : World → α → Prop} {m : Machine} (hx : Action .loop m.world x Q)
    (hm : Reachable limits m) (fuel : Nat) : Reachable limits ((x (.bounded fuel)).after m) := by
  have hI := (reaching_stepwise limits).lawful
  have hkeeps := hx.keeps hI (Evaluator.keeps_bounded hI fuel)
  cases heq : x (.bounded fuel) m with
  | ok a m' =>
    rw [Exec.after_of_ok heq]
    exact (hkeeps.ok hm.closed rfl heq).1.moves hm
  | error f m' =>
    rw [Exec.after_of_error heq]
    exact (hkeeps.error hm.closed rfl heq).moves hm

/-- The machine in which a run ends is reachable. -/
theorem reachable_finalMachine (limits : Limits) (program : Syntax.Program) (fuel : Nat) :
    Reachable limits (finalMachine limits fuel program) := by
  have hinitial : Reachable limits (.initial limits) := .initial
  have hend := Action.reachable (x := fun ev => ev.runProgram program) .runProgram hinitial fuel
  unfold finalMachine
  split
  · rename_i m heq
    rwa [Exec.after_of_ok heq] at hend
  · rename_i f m heq
    rw [Exec.after_of_error heq] at hend
    exact hend.stopped f

/-- **No number is looked up in vain** in a closed machine: objects and scopes that anything names
are there, and the way outward from a scope goes from parent to parent down to the global one. -/
structure Machine.Resolves (m : Machine) : Prop where
  object : ∀ id, .object id ∈ m.world → ∃ o, m.heap.get? id = some o
  promise : ∀ id, .promise id ∈ m.world → m.heap.isPromise id = true
  scope : ∀ id, Sees m.world id → ∃ s, m.scopes[id]? = some s
  parents : ∀ id s, m.scopes[id]? = some s →
    m.scopes.chain id = id :: s.parent.elim [] m.scopes.chain
  outward : ∀ id, Sees m.world id →
    (m.scopes.chain id).Pairwise (· > ·) ∧ ∃ inner, m.scopes.chain id = inner ++ [Scopes.globalId]

/-- In a closed machine every reference leads somewhere. -/
theorem Machine.Closed.resolves {m : Machine} (hm : m.Closed) : m.Resolves where
  object _ hid := ⟨_, Array.getElem?_eq_getElem hid⟩
  promise _ hid := by
    obtain ⟨r, hr⟩ := hid
    rw [Heap.isPromise, hr]
  scope _ hid := Scopes.IsTree.exists_of_lt (hm.sees_iff.mp hid)
  parents _ _ hs := hm.tree.chain_eq hs
  outward _ hid :=
    have ⟨hglobal, hsorted, _⟩ := hm.tree.chain_outward (hm.sees_iff.mp hid)
    ⟨hsorted, hglobal⟩

/-- **No dangling references.**  Every machine that a run can lead to is closed; these include the
machine that any evaluation nested in the run begins in, the one that it leaves, in whatever way it
ends, and the one at the end.  What a nested evaluation is given names what is there, and every step
of a trace is sound. -/
theorem no_dangling_references (limits : Limits) :
    (∀ {m : Machine}, Reachable limits m → m.Closed ∧ m.Resolves) ∧
    (∀ {program : Syntax.Program} {fuel k : Nat} {β : Type} {w : Work β} {m : Machine},
      Nested (fun ev => ev.runProgram program) fuel (.initial limits) w k m →
      w.Fits .loop m.world ∧ Reachable limits m ∧ Reachable limits ((w.exec k).after m)) ∧
    (∀ program fuel, Reachable limits (finalMachine limits fuel program)) ∧
    ∀ fuel source, ∀ s ∈ (runWithin limits fuel source).steps, s.Sound := by
  refine ⟨fun hm => ⟨hm.closed, hm.closed.resolves⟩, ?_, reachable_finalMachine limits, ?_⟩
  · intro program fuel k β w m h
    have hinitial : Reachable limits (.initial limits) := .initial
    obtain ⟨hlead, hfit, -⟩ :=
      Action.nested (reaching_stepwise limits) .runProgram hinitial.closed h
    have hm := hlead.moves hinitial
    exact ⟨hfit, hm, Action.reachable (x := fun ev => ev.run w) (.eval hfit) hm k⟩
  · intro fuel source s hs
    rcases runWithin_steps limits fuel source with hnone | ⟨program, -, hsteps⟩
    · exact absurd (hnone ▸ hs) (Array.not_mem_empty _)
    · exact (reachable_finalMachine _ program _).closed.shown s (hsteps ▸ hs)

/-- A program that is cut short while a timer, a reaction to a promise and a microtask wait for a
closure. -/
def waitingUse : Syntax.Program :=
  (Syntax.readProgram ("const o = \x7b\x7d; const f = () => o; setTimeout(f, 1, o); " ++
    "new Promise(r => r(o)).then(f); queueMicrotask(f); while (true) ;")).toOption.getD []

/-- The machine in which it is cut short. -/
def waitingMachine : Machine := finalMachine ⟨20, 9, 9⟩ 60 waitingUse

/-- Closures, timers and promises that wait are held by such a machine. -/
theorem waitingUse_reachable :
    (waitingMachine.Closed ∧ waitingMachine.Resolves) ∧
    (waitingMachine.heap.size, waitingMachine.timers.length, waitingMachine.microtasks.length) =
      (7, 1, 2) ∧
    ∃ m : Machine, Reachable ⟨20, 9, 9⟩ m ∧ Reachable ⟨20, 9, 9⟩
      (((Work.statement Scopes.globalId none (waitingUse.headD default)).exec 60).after m) := by
  obtain ⟨hclosed, hnested, hfinal, -⟩ := no_dangling_references ⟨20, 9, 9⟩
  obtain ⟨hcounts, hne, hhoisted⟩ : (waitingMachine.heap.size, waitingMachine.timers.length,
        waitingMachine.microtasks.length) = (7, 1, 2) ∧
      waitingUse.isEmpty = false ∧
      ((Exec.hoistBody Scopes.globalId waitingUse).faultOf (.initial ⟨20, 9, 9⟩)).isNone = true := by
    decide +kernel
  refine ⟨hclosed (hfinal waitingUse 60), hcounts, ?_⟩
  cases hprogram : waitingUse with
  | nil =>
    rw [hprogram] at hne
    cases hne
  | cons s ss =>
    rw [hprogram] at hhoisted
    cases hhoist : Exec.hoistBody Scopes.globalId (s :: ss) (.initial ⟨20, 9, 9⟩) with
    | ok u m =>
      obtain ⟨-, hm, hend⟩ := hnested (.first hhoist)
      exact ⟨_, hm, hend⟩
    | error f m =>
      rw [Exec.faultOf_of_error hhoist] at hhoisted
      cases hhoisted

end ScriptTrace
