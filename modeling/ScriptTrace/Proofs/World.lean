import Mathlib.Data.Set.Lattice
import ScriptTrace.Evaluation.Call

/-!
# Proofs/World — what a piece of data names

Values, queues and scopes name other parts of the machine by number.  `holds a` is the set of all
that `a` names, and a world is a set of such entities: `Within W a` says that `a` names nothing
outside of `W`.  Worlds grow while a program runs, and everything lies within the world of all
entities.
-/

namespace ScriptTrace

/-- A part of the machine that data can name. -/
inductive Entity where
  | object (id : ObjectId)
  /-- An object that is a promise. -/
  | promise (id : ObjectId)
  /-- A scope other than the global one. -/
  | scope (id : ScopeId)

/-- The entities that may be named. -/
abbrev World := Set Entity

/-- Data that name entities. -/
class Holder (α : Type) where
  holds : α → Set Entity

export Holder (holds)

/-- **Nothing outside of a world is named.** -/
def Within {α : Type} [Holder α] (W : World) (a : α) : Prop := holds a ⊆ W

section

variable {α : Type} [Holder α] {W W' : World} {a : α}

theorem Within.mono (h : Within W a) (hW : W ⊆ W') : Within W' a := h.trans hW

@[simp] theorem within_univ (a : α) : Within Set.univ a := Set.subset_univ _

end

/-- The entities that the number of a scope names; the global scope is always there. -/
def scopeEntities (id : ScopeId) : Set Entity := {e | id ≠ Scopes.globalId ∧ e = .scope id}

/-- **A scope that can be used**: the global one, or one of the world. -/
def Sees (W : World) (id : ScopeId) : Prop := scopeEntities id ⊆ W

section

variable {W W' : World} {id : ScopeId}

theorem Sees.mono (h : Sees W id) (hW : W ⊆ W') : Sees W' id := h.trans hW

@[simp] theorem sees_univ (id : ScopeId) : Sees Set.univ id := Set.subset_univ _

@[simp] theorem sees_global : Sees W Scopes.globalId := fun _ h => absurd rfl h.1

theorem sees_of_mem (h : .scope id ∈ W) : Sees W id := fun _ he => he.2 ▸ h

theorem sees_iff : Sees W id ↔ (id ≠ Scopes.globalId → .scope id ∈ W) :=
  ⟨fun h hid => h ⟨hid, rfl⟩, fun h _ he => he.2 ▸ h he.1⟩

end

/-! ## Containers -/

instance : Holder Unit := ⟨fun _ => ∅⟩

instance {α : Type} [Holder α] : Holder (List α) := ⟨fun l => ⋃ a ∈ l, holds a⟩

instance {α : Type} [Holder α] : Holder (Array α) := ⟨fun l => holds l.toList⟩

instance {α : Type} [Holder α] : Holder (Option α) := ⟨fun o => o.elim ∅ holds⟩

instance {α : Type} [Holder α] : Holder (String × α) := ⟨fun p => holds p.2⟩

section

variable {α : Type} [Holder α] {W : World}

@[simp] theorem within_unit (u : Unit) : Within W u := Set.empty_subset _

theorem within_list {l : List α} : Within W l ↔ ∀ a ∈ l, Within W a := Set.iUnion₂_subset_iff

@[simp] theorem within_nil : Within W ([] : List α) := within_list.mpr nofun

@[simp] theorem within_cons {a : α} {l : List α} : Within W (a :: l) ↔ Within W a ∧ Within W l := by
  simp [within_list]

@[simp] theorem within_append {l l' : List α} :
    Within W (l ++ l') ↔ Within W l ∧ Within W l' := by
  simp only [within_list, List.mem_append, or_imp, forall_and]

@[simp] theorem within_reverse {l : List α} : Within W l.reverse ↔ Within W l := by
  simp [within_list]

theorem Within.of_mem {l : List α} {a : α} (h : Within W l) (ha : a ∈ l) : Within W a :=
  within_list.mp h a ha

/-- A list names no more than one that has all its elements. -/
theorem Within.of_subset {l l' : List α} (h : Within W l) (hl : l' ⊆ l) : Within W l' :=
  within_list.mpr fun _ ha => h.of_mem (hl ha)

theorem Within.tail {l : List α} (h : Within W l) : Within W l.tail :=
  h.of_subset fun _ ha => List.mem_of_mem_tail ha

theorem Within.drop {l : List α} (h : Within W l) (n : Nat) : Within W (l.drop n) :=
  h.of_subset (List.drop_subset n l)

theorem within_array {l : Array α} : Within W l ↔ ∀ a ∈ l, Within W a := by
  change Within W l.toList ↔ _
  simp only [within_list, Array.mem_toList_iff]

theorem Within.of_memArray {l : Array α} {a : α} (h : Within W l) (ha : a ∈ l) : Within W a :=
  within_array.mp h a ha

@[simp] theorem within_toList {l : Array α} : Within W l.toList ↔ Within W l := Iff.rfl

@[simp] theorem within_toArray {l : List α} : Within W l.toArray ↔ Within W l := Iff.rfl

@[simp] theorem within_none : Within W (none : Option α) := Set.empty_subset _

@[simp] theorem within_some {a : α} : Within W (some a) ↔ Within W a := Iff.rfl

theorem within_option {o : Option α} : Within W o ↔ ∀ a, o = some a → Within W a := by
  cases o <;> simp

@[simp] theorem within_pair {key : String} {a : α} : Within W (key, a) ↔ Within W a := Iff.rfl

theorem within_entry {e : String × α} : Within W e ↔ Within W e.2 := Iff.rfl

end

/-! ## Values and objects -/

instance : Holder Value where
  holds
    | .object id => {.object id}
    | _ => ∅

instance : Holder Props := ⟨fun p => holds p.entries⟩

/-- A promise named by its number. -/
def promiseEntities (id : ObjectId) : Set Entity := {.object id, .promise id}

instance : Holder PromiseState where
  holds
    | .pending => ∅
    | .fulfilled v | .rejected v => holds v

instance : Holder Reaction where
  holds r := holds r.onFulfilled ∪ holds r.onRejected ∪ promiseEntities r.derived

instance : Holder PromiseRecord := ⟨fun r => holds r.state ∪ holds r.reactions⟩

instance : Holder Closure := ⟨fun c => scopeEntities c.scope⟩

instance : Holder Body where
  holds
    | .plain props => holds props
    | .array items => holds items
    | .closure c => holds c
    | .bound target this args => holds target ∪ holds this ∪ holds args
    | .method receiver _ => holds receiver
    | .promise record => holds record
    | .resolver promise _ => promiseEntities promise

instance : Holder Change where
  holds
    | .items items => holds items
    | .props props => holds props
    | .record record => holds record
    | .freeze => ∅

instance : Holder HeapObject := ⟨fun o => holds o.body⟩

instance : Holder Heap := ⟨fun h => holds h.objects⟩

section

variable {W : World}

@[simp] theorem within_object {id : ObjectId} :
    Within W (Value.object id) ↔ Entity.object id ∈ W := Set.singleton_subset_iff

@[simp] theorem within_undefined : Within W Value.undefined := Set.empty_subset _

@[simp] theorem within_null : Within W Value.null := Set.empty_subset _

@[simp] theorem within_bool {b : Bool} : Within W (Value.bool b) := Set.empty_subset _

@[simp] theorem within_number {x : Float} : Within W (Value.number x) := Set.empty_subset _

@[simp] theorem within_string {s : String} : Within W (Value.string s) := Set.empty_subset _

@[simp] theorem within_function {f : HostFunction} : Within W (Value.function f) :=
  Set.empty_subset _

@[simp] theorem within_host {h : HostObject} : Within W (Value.host h) := Set.empty_subset _

@[simp] theorem within_globalThis : Within W Value.globalThis := Set.empty_subset _

@[simp] theorem within_count {n : Nat} : Within W (Value.count n) := Set.empty_subset _

@[simp] theorem within_chars {cs : List Char} : Within W (Value.chars cs) := Set.empty_subset _

theorem Within.argument {args : List Value} (h : Within W args) (n : Nat) :
    Within W (argument args n) := by
  rw [ScriptTrace.argument, List.getD_eq_getElem?_getD]
  cases hn : args[n]? with
  | none => exact within_undefined
  | some v => exact h.of_mem (List.mem_of_getElem? hn)

@[simp] theorem within_props {p : Props} : Within W p ↔ Within W p.entries := Iff.rfl

@[simp] theorem within_pending : Within W PromiseState.pending := Set.empty_subset _

@[simp] theorem within_fulfilled {v : Value} :
    Within W (PromiseState.fulfilled v) ↔ Within W v := Iff.rfl

@[simp] theorem within_rejected {v : Value} :
    Within W (PromiseState.rejected v) ↔ Within W v := Iff.rfl

theorem promiseEntities_subset {id : ObjectId} :
    promiseEntities id ⊆ W ↔ Entity.object id ∈ W ∧ Entity.promise id ∈ W := Set.pair_subset_iff

@[simp] theorem within_reaction {r : Reaction} :
    Within W r ↔ Within W r.onFulfilled ∧ Within W r.onRejected ∧
      Entity.object r.derived ∈ W ∧ Entity.promise r.derived ∈ W := by
  rw [← promiseEntities_subset, ← and_assoc]
  exact Set.union_subset_iff.trans (and_congr_left fun _ => Set.union_subset_iff)

@[simp] theorem within_record {r : PromiseRecord} :
    Within W r ↔ Within W r.state ∧ Within W r.reactions := Set.union_subset_iff

@[simp] theorem within_closure {c : Closure} : Within W c ↔ Sees W c.scope := Iff.rfl

@[simp] theorem within_plainBody {p : Props} : Within W (Body.plain p) ↔ Within W p := Iff.rfl

@[simp] theorem within_arrayBody {l : Array Value} : Within W (Body.array l) ↔ Within W l := Iff.rfl

@[simp] theorem within_closureBody {c : Closure} : Within W (Body.closure c) ↔ Within W c := Iff.rfl

@[simp] theorem within_boundBody {target this : Value} {args : List Value} :
    Within W (Body.bound target this args) ↔
      Within W target ∧ Within W this ∧ Within W args := by
  rw [← and_assoc]
  exact Set.union_subset_iff.trans (and_congr_left fun _ => Set.union_subset_iff)

@[simp] theorem within_methodBody {receiver : Value} {name : String} :
    Within W (Body.method receiver name) ↔ Within W receiver := Iff.rfl

@[simp] theorem within_promiseBody {r : PromiseRecord} :
    Within W (Body.promise r) ↔ Within W r := Iff.rfl

@[simp] theorem within_resolverBody {id : ObjectId} {rejects : Bool} :
    Within W (Body.resolver id rejects) ↔ Entity.object id ∈ W ∧ Entity.promise id ∈ W :=
  promiseEntities_subset

@[simp] theorem within_itemsChange {l : Array Value} :
    Within W (Change.items l) ↔ Within W l := Iff.rfl

@[simp] theorem within_propsChange {p : Props} : Within W (Change.props p) ↔ Within W p := Iff.rfl

@[simp] theorem within_recordChange {r : PromiseRecord} :
    Within W (Change.record r) ↔ Within W r := Iff.rfl

@[simp] theorem within_freeze : Within W Change.freeze := Set.empty_subset _

theorem within_heapObject {o : HeapObject} : Within W o ↔ Within W o.body := Iff.rfl

theorem within_heap {h : Heap} : Within W h ↔ Within W h.objects := Iff.rfl

end

/-! ## Scopes and queues -/

instance : Holder Binding := ⟨fun b => holds b.value⟩

instance : Holder Scope where
  holds s := s.parent.elim ∅ scopeEntities ∪ holds s.bindings ∪ holds s.receiver

instance : Holder Job where
  holds
    | .callback f args => holds f ∪ holds args
    | .reaction r outcome => holds r ∪ holds outcome

instance : Holder Task := ⟨fun t => holds t.job⟩

instance : Holder Timer := ⟨fun t => holds t.callback ∪ holds t.args⟩

section

variable {W : World}

@[simp] theorem within_binding {b : Binding} : Within W b ↔ Within W b.value := Iff.rfl

@[simp] theorem within_scope {s : Scope} :
    Within W s ↔ (∀ p, s.parent = some p → Sees W p) ∧ Within W s.bindings ∧
      Within W s.receiver := by
  have hp : s.parent.elim ∅ scopeEntities ⊆ W ↔ ∀ p, s.parent = some p → Sees W p := by
    cases s.parent <;> simp [Sees]
  rw [← hp, ← and_assoc]
  exact Set.union_subset_iff.trans (and_congr_left fun _ => Set.union_subset_iff)

@[simp] theorem within_callback {f : Value} {args : List Value} :
    Within W (Job.callback f args) ↔ Within W f ∧ Within W args := Set.union_subset_iff

@[simp] theorem within_reactionJob {r : Reaction} {outcome : PromiseState} :
    Within W (Job.reaction r outcome) ↔ Within W r ∧ Within W outcome := Set.union_subset_iff

@[simp] theorem within_task {t : Task} : Within W t ↔ Within W t.job := Iff.rfl

@[simp] theorem within_timer {t : Timer} :
    Within W t ↔ Within W t.callback ∧ Within W t.args := Set.union_subset_iff

end

/-! ## What evaluation yields -/

instance : Holder Thrown := ⟨fun t => holds t.value⟩

instance : Holder Fault where
  holds
    | .thrown v _ _ => holds v
    | _ => ∅

instance : Holder Completion where
  holds
    | .returned v => holds v
    | _ => ∅

instance : Holder Reference where
  holds
    | .property receiver _ => holds receiver
    | _ => ∅

instance : Holder CallTarget where
  holds
    | .method receiver _ => holds receiver
    | .value f this => holds f ∪ holds this

section

variable {W : World}

@[simp] theorem within_thrown {t : Thrown} : Within W t ↔ Within W t.value := Iff.rfl

@[simp] theorem within_thrownFault {v : Value} {text : String} {line : Nat} :
    Within W (Fault.thrown v text line) ↔ Within W v := Iff.rfl

theorem within_fault {f : Fault} (h : f.isThrown = false) : Within W f := by
  cases f <;> first | exact Set.empty_subset _ | cases h

@[simp] theorem within_normal : Within W Completion.normal := Set.empty_subset _

@[simp] theorem within_returned {v : Value} :
    Within W (Completion.returned v) ↔ Within W v := Iff.rfl

@[simp] theorem within_broken {label : Option String} : Within W (Completion.broken label) :=
  Set.empty_subset _

@[simp] theorem within_continued {label : Option String} : Within W (Completion.continued label) :=
  Set.empty_subset _

@[simp] theorem within_bindingReference {name : String} : Within W (Reference.binding name) :=
  Set.empty_subset _

@[simp] theorem within_property {receiver : Value} {key : String} :
    Within W (Reference.property receiver key) ↔ Within W receiver := Iff.rfl

@[simp] theorem within_methodTarget {receiver : Value} {name : String} :
    Within W (CallTarget.method receiver name) ↔ Within W receiver := Iff.rfl

@[simp] theorem within_valueTarget {f this : Value} :
    Within W (CallTarget.value f this) ↔ Within W f ∧ Within W this := Set.union_subset_iff

end

end ScriptTrace
