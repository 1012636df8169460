import ScriptTrace.Proofs.World

/-!
# Proofs/Reading — what is read from larger data

What is found in a heap, a scope, a property list or an array, and what these are after a change,
lies in the world of what went into them.
-/

namespace ScriptTrace

/-! ## Data read from the heap and the scopes -/

section

variable {W : World} {h : Heap} {s : Scopes} {id : ObjectId}

theorem Within.get? (hh : Within W h) : Within W (h.get? id) :=
  within_option.mpr fun _ ho => (within_heap.mp hh).of_memArray (Array.mem_of_getElem? ho)

theorem Within.body? (hh : Within W h) : Within W (h.body? id) := by
  refine within_option.mpr fun b hb => ?_
  obtain ⟨o, ho, rfl⟩ := Option.map_eq_some_iff.mp hb
  exact within_option.mp hh.get? o ho

theorem Within.of_body? {b : Body} (hh : Within W h) (hb : h.body? id = some b) : Within W b :=
  within_some.mp (hb ▸ hh.body?)

/-- The items of an array are known with it. -/
theorem Within.items? {v : Value} (hh : Within W h) : Within W (h.items? v) := by
  unfold Heap.items?
  split
  · split
    · exact within_arrayBody.mp (hh.of_body? ‹_›)
    · exact within_none
  · exact within_none

/-- The values of an object are known with it. -/
theorem Within.ownEntries {v : Value} (hh : Within W h) : Within W (h.ownEntries v) := by
  unfold Heap.ownEntries
  split
  · split
    · exact within_plainBody.mp (hh.of_body? ‹_›)
    · rename_i items hb
      refine within_list.mpr fun e he => ?_
      obtain ⟨⟨v, i⟩, hv, rfl⟩ := List.mem_map.mp he
      exact (within_toList.mpr (within_arrayBody.mp (hh.of_body? hb))).of_mem
        (List.fst_mem_of_mem_zipIdx hv)
    · exact within_nil
  · refine within_list.mpr fun e he => ?_
    obtain ⟨⟨c, _⟩, -, rfl⟩ := List.mem_map.mp he
    change Within W (Value.chars [c])
    exact within_chars
  · exact within_nil

theorem Within.find? {α : Type} [Holder α] {l : List (String × α)} (hl : Within W l)
    (p : String × α → Bool) : Within W ((l.find? p).map Prod.snd) := by
  refine within_option.mpr fun a ha => ?_
  obtain ⟨e, he, rfl⟩ := Option.map_eq_some_iff.mp ha
  exact within_entry.mp (hl.of_mem (List.mem_of_find?_eq_some he))

theorem Within.bindingIn? {name : String} {scope : ScopeId} (hs : Within W s) :
    Within W (s.bindingIn? name scope) := by
  refine within_option.mpr fun b hb => ?_
  obtain ⟨sc, hsc, hb⟩ := Option.bind_eq_some_iff.mp hb
  have hsc := within_scope.mp (hs.of_memArray (Array.mem_of_getElem? hsc))
  exact within_option.mp (hsc.2.1.find? _) b hb

/-- The scope that binds a name is one of those that were made. -/
theorem Scopes.lt_size_of_binder {scope owner : ScopeId} {name : String}
    (h : s.binder? scope name = some owner) : owner < s.size := by
  have hfound : (s.bindingIn? name owner).isSome = true := by
    rw [Scopes.binder?] at h
    exact List.find?_some (p := fun id => (s.bindingIn? name id).isSome) h
  obtain ⟨b, hb⟩ := Option.isSome_iff_exists.mp hfound
  obtain ⟨sc, hsc, -⟩ := Option.bind_eq_some_iff.mp hb
  exact (Array.getElem?_eq_some_iff.mp hsc).1

/-- Around the global scope there is no other. -/
theorem Scopes.binder_global {owner : ScopeId} {name : String}
    (h : s.binder? globalId name = some owner) : owner = globalId := by
  have hmem : owner ∈ s.chain globalId := List.mem_of_find?_eq_some h
  unfold Scopes.chain Scopes.chainWithin at hmem
  split at hmem
  · cases hmem
  · rcases List.mem_cons.mp hmem with hself | hmem
    · exact hself
    · split at hmem <;> cases hmem

theorem Within.lookup? {name : String} {scope : ScopeId} (hs : Within W s) :
    Within W (s.lookup? scope name) := by
  refine within_option.mpr fun b hb => ?_
  obtain ⟨id, -, hb⟩ := List.exists_of_findSome?_eq_some hb
  exact within_option.mp hs.bindingIn? b hb

/-- The value of `this` is known with the scope. -/
theorem Within.receiver {scope : ScopeId} (hs : Within W s) : Within W (s.receiver scope) := by
  unfold Scopes.receiver
  cases hr : (s.chain scope).findSome? fun id => s[id]?.bind (·.receiver) with
  | none => exact within_globalThis
  | some v =>
    obtain ⟨id, -, hv⟩ := List.exists_of_findSome?_eq_some hr
    obtain ⟨sc, hsc, hv⟩ := Option.bind_eq_some_iff.mp hv
    have hsc := within_scope.mp (hs.of_memArray (Array.mem_of_getElem? hsc))
    exact within_some.mp (hv ▸ hsc.2.2)

end

/-! ## Names without declaration -/

section

variable {W : World}

/-- A global value is a function of the host, or no reference. -/
theorem within_globalValue {name : String} {v : Value} (h : globalValue? name = some v) :
    Within W v := by
  unfold globalValue? at h
  split at h
  all_goals first | (cases h; simp) | skip
  obtain ⟨c, -, rfl⟩ := Option.map_eq_some_iff.mp h
  exact within_host

theorem within_functionOr (f : Option HostFunction) : Within W (functionOr f) := by
  cases f
  · exact within_undefined
  · exact within_function

theorem within_named (h : HostObject) (key : String) :
    Within W (HostObject.member.named h key) := by
  unfold HostObject.member.named
  split
  · exact within_string
  · exact within_undefined

/-- A member of a host object is no reference. -/
theorem within_member (h : HostObject) (key : String) : Within W (h.member key) := by
  unfold HostObject.member
  split
  · exact within_functionOr _
  · split
    · exact within_number
    · exact within_functionOr _
  · split
    all_goals first | exact within_function | skip
    cases numberConstant? key
    · exact within_undefined
    · exact within_number
  all_goals first | exact within_named _ _ | skip
  all_goals
    split
    all_goals first | exact within_function | exact within_named _ _

end

/-! ## Properties -/

section

variable {W : World} {p : Props} {key : String} {v : Value}

theorem Within.propsGet? (hp : Within W p) : Within W (p.get? key) := hp.find? _

/-- A property that is replaced brings in its value alone. -/
theorem Within.replace {es : List (String × Value)} (he : Within W es) (hv : Within W v) :
    Within W (Props.replace key v es) := by
  induction es with
  | nil => exact within_nil
  | cons e es ih =>
    obtain ⟨h₁, h₂⟩ := within_cons.mp he
    unfold Props.replace
    split
    · exact within_cons.mpr ⟨hv, h₂⟩
    · exact within_cons.mpr ⟨h₁, ih h₂⟩

/-- A property that is put in brings in its value alone. -/
theorem Within.insertIndex {index : Nat} {es : List (String × Value)} (he : Within W es)
    (hv : Within W v) : Within W (Props.insertIndex index key v es) := by
  induction es with
  | nil => exact within_cons.mpr ⟨hv, within_nil⟩
  | cons e es ih =>
    obtain ⟨h₁, h₂⟩ := within_cons.mp he
    unfold Props.insertIndex
    split
    · exact within_cons.mpr ⟨hv, he⟩
    · exact within_cons.mpr ⟨h₁, ih h₂⟩

/-- A property that is set brings in its value alone. -/
theorem Within.propsSet (hp : Within W p) (hv : Within W v) : Within W (p.set key v) := by
  unfold Props.set
  split
  · exact Within.replace hp hv
  · split
    · exact Within.insertIndex hp hv
    · exact within_append.mpr ⟨hp, within_cons.mpr ⟨hv, within_nil⟩⟩

theorem Within.propsErase (hp : Within W p) : Within W (p.erase key) :=
  Within.of_subset hp List.eraseP_subset

/-- Properties that are set one by one bring in their values alone. -/
theorem Within.foldSet {es : List (String × Value)} (hp : Within W p) (he : Within W es) :
    Within W (es.foldl (fun p e => p.set e.1 e.2) p) := by
  induction es generalizing p with
  | nil => exact hp
  | cons e es ih =>
    obtain ⟨h₁, h₂⟩ := within_cons.mp he
    exact ih (hp.propsSet h₁) h₂

theorem Within.values {es : List (String × Value)} (he : Within W es) :
    Within W (es.map Prod.snd) := by
  refine within_list.mpr fun v hv => ?_
  obtain ⟨e, hmem, rfl⟩ := List.mem_map.mp hv
  exact within_entry.mp (he.of_mem hmem)

theorem Within.propsOfList {es : List (String × Value)} (he : Within W es) :
    Within W (Props.ofList es) := Within.foldSet within_nil he

end

/-! ## Elements -/

section

variable {W : World} {l l' : Array Value} {v : Value}

theorem Within.getD (hl : Within W l) (i : Nat) : Within W (l.getD i .undefined) := by
  rw [Array.getD_eq_getD_getElem?]
  cases h : l[i]? with
  | none => exact within_undefined
  | some v => exact hl.of_memArray (Array.mem_of_getElem? h)

theorem within_arrayAppend : Within W (l ++ l') ↔ Within W l ∧ Within W l' := by
  simp only [within_array, Array.mem_append, or_imp, forall_and]

theorem Within.push {α : Type} [Holder α] {l : Array α} {a : α} (hl : Within W l)
    (ha : Within W a) : Within W (l.push a) :=
  within_array.mpr fun _ hb => (Array.mem_push.mp hb).elim hl.of_memArray (· ▸ ha)

theorem Within.extract (hl : Within W l) (i j : Nat) : Within W (l.extract i j) := by
  refine within_array.mpr fun v hv => ?_
  obtain ⟨k, _, rfl⟩ := Array.mem_extract_iff_getElem.mp hv
  exact hl.of_memArray (Array.getElem_mem _)

theorem Within.pop (hl : Within W l) : Within W l.pop := by
  refine within_array.mpr fun v hv => ?_
  obtain ⟨i, hi, rfl⟩ := Array.getElem_of_mem hv
  rw [Array.getElem_pop]
  exact hl.of_memArray (Array.getElem_mem _)

theorem Within.backD (hl : Within W l) : Within W (l.back?.getD .undefined) := by
  cases h : l.back? with
  | none => exact within_undefined
  | some v => exact hl.of_memArray (Array.mem_of_back? h)

theorem Within.reverse (hl : Within W l) : Within W l.reverse :=
  within_array.mpr fun _ ha => hl.of_memArray (Array.mem_reverse.mp ha)

/-- Elements in the place of some of an array. -/
theorem Within.overwrite (hl : Within W l) (hv : Within W v) (p : Nat → Bool) :
    Within W (l.mapIdx fun i a => if p i then v else a) := by
  refine within_array.mpr fun b hb => ?_
  obtain ⟨i, hi, rfl⟩ := Array.mem_mapIdx.mp hb
  split
  · exact hv
  · exact hl.of_memArray (Array.getElem_mem hi)

theorem Within.setElement (hl : Within W l) (hv : Within W v) (i : Nat) :
    Within W (l.set! i v) :=
  within_array.mpr fun _ ha =>
    (Array.mem_or_eq_of_mem_setIfInBounds ha).elim hl.of_memArray (· ▸ hv)

theorem within_replicate {n : Nat} (hv : Within W v) : Within W (Array.replicate n v) :=
  within_array.mpr fun _ ha => (Array.mem_replicate.mp ha).2 ▸ hv

theorem Within.resize (hl : Within W l) (n : Nat) : Within W (Exec.resize l n) := by
  unfold Exec.resize
  split
  · exact hl.extract _ _
  · exact within_arrayAppend.mpr ⟨hl, within_replicate within_undefined⟩

end

end ScriptTrace
