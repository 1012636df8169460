import Mathlib.Data.List.Chain
import Mathlib.Data.List.Perm.Subperm
import Mathlib.Logic.Relation
import ScriptTrace.Proofs.Reading

/-!
# Proofs/Traversal/Trail — ways into objects come to an end

    v  ─▸  object 4  ─▸  object 7  ─▸  ⋯

Whoever follows values into objects and turns back at each object that is around already, goes
through different objects of one heap.  A way that has room for as many of them as the heap holds
has room for each step (`Trail.enter`).

Flattening gives up where more arrays lie inside one another than there are objects.  Then one of
them lies inside itself (`hasNoEnd_of_flatten`).
-/

namespace ScriptTrace

/-- **A way into objects**: those around a place, the innermost first, and how many more may be
entered. -/
structure Trail (h : Heap) (room : Nat) (around : List ObjectId) : Prop where
  nodup : around.Nodup
  live : ∀ id ∈ around, id < h.size
  total : room + around.length = h.size

section

variable {h : Heap} {room : Nat} {around : List ObjectId} {id : ObjectId}

theorem Heap.lt_size_of_get? {o : HeapObject} (ho : h.get? id = some o) : id < h.size :=
  (Array.getElem?_eq_some_iff.mp ho).1

theorem Heap.lt_size_of_body? {b : Body} (hb : h.body? id = some b) : id < h.size := by
  obtain ⟨o, ho, -⟩ := Option.map_eq_some_iff.mp hb
  exact Heap.lt_size_of_get? ho

namespace Trail

theorem start (h : Heap) : Trail h h.size [] := ⟨.nil, nofun, rfl⟩

/-- **There is room for one more object.** -/
theorem enter (ht : Trail h room around) (hid : id < h.size) (hnew : id ∉ around) :
    ∃ room', room = room' + 1 ∧ Trail h room' (id :: around) := by
  have hnodup : (id :: around).Nodup := List.nodup_cons.mpr ⟨hnew, ht.nodup⟩
  have hlive : ∀ a ∈ id :: around, a < h.size := List.forall_mem_cons.mpr ⟨hid, ht.live⟩
  have hle : (id :: around).length ≤ h.size := by
    have hsub : id :: around ⊆ List.range h.size := fun a ha => List.mem_range.mpr (hlive a ha)
    simpa only [List.length_range] using (hnodup.subperm hsub).length_le
  have htotal := ht.total
  rw [List.length_cons] at hle
  exact ⟨room - 1, by omega, hnodup, hlive, by rw [List.length_cons]; omega⟩

end Trail

end

/-! ## Arrays that have no end -/

/-- One value holds another one: it is an array with the other among its elements. -/
def Heap.Holds (h : Heap) (v w : Value) : Prop :=
  ∃ items, h.items? v = some items ∧ w ∈ items

/-- **A value has no end**: it is, or holds directly or not, an array that lies inside itself. -/
def Heap.HasNoEnd (h : Heap) (v : Value) : Prop :=
  ∃ w, Relation.ReflTransGen h.Holds v w ∧ Relation.TransGen h.Holds w w

section

variable {h : Heap} {limit : Nat}

/-- Arrays are objects of the heap. -/
theorem Heap.items?_eq_some {v : Value} {items : Array Value} (hv : h.items? v = some items) :
    ∃ id < h.size, v = .object id := by
  unfold Heap.items? at hv
  split at hv
  · rename_i id
    refine ⟨id, ?_, rfl⟩
    by_contra hle
    have hnone : h.body? id = none := by
      rw [Heap.body?, Heap.get?, Array.getElem?_eq_none (not_lt.mp hle), Option.map_none]
    rw [hnone] at hv
    cases hv
  · cases hv

/-- **Where more arrays lie inside one another than there are objects**, one comes again. -/
theorem Heap.hasNoEnd_of_chain {v : Value} {path : List Value}
    (hpath : (v :: path).IsChain h.Holds)
    (harray : ∀ w ∈ v :: path, ∃ items, h.items? w = some items) (hlength : h.size ≤ path.length) :
    h.HasNoEnd v := by
  by_contra hno
  have hpair : (v :: path).Pairwise (Relation.TransGen h.Holds) :=
    List.isChain_iff_pairwise.mp (hpath.imp fun _ _ => .single)
  have hbelow {w : Value} (hw : w ∈ v :: path) : Relation.ReflTransGen h.Holds v w := by
    rcases List.mem_cons.mp hw with rfl | hw
    · exact .refl
    · exact (List.rel_of_pairwise_cons hpair hw).to_reflTransGen
  have hnodup : (v :: path).Nodup := by
    refine hpair.imp_of_mem fun {w u} hw _ hwu heq => hno ⟨w, hbelow hw, ?_⟩
    subst heq
    exact hwu
  have hsub : v :: path ⊆ (List.range h.size).map Value.object := by
    intro w hw
    obtain ⟨items, hitems⟩ := harray w hw
    obtain ⟨id, hid, rfl⟩ := Heap.items?_eq_some hitems
    exact List.mem_map_of_mem (List.mem_range.mpr hid)
  have hle := (hnodup.subperm hsub).length_le
  rw [List.length_map, List.length_range, List.length_cons] at hle
  omega

/-- If a list has no end, one of its values has none. -/
theorem exists_of_flattenList {item : Value → Array Value → Option (Array Value)} {vs : List Value}
    {out : Array Value} (hnone : flattenList limit item vs out = none) :
    ∃ v ∈ vs, ∃ out, item v out = none := by
  induction vs generalizing out with
  | nil => cases hnone
  | cons v vs ih =>
    rw [flattenList] at hnone
    split at hnone
    · cases hnone
    · cases hv : item v out with
      | none => exact ⟨v, List.mem_cons_self, out, hv⟩
      | some out' =>
        rw [hv] at hnone
        obtain ⟨w, hw, hitem⟩ := ih hnone
        exact ⟨w, List.mem_cons_of_mem _ hw, hitem⟩

/-- Where flattening gives up there are that many arrays inside one another. -/
theorem exists_chain_of_flattenItem : ∀ {fuel : Nat} {depth : Float} {v : Value}
    {out : Array Value}, flattenItem h limit fuel depth v out = none →
      ∃ path : List Value, (v :: path).IsChain h.Holds ∧
        (∀ w ∈ v :: path, ∃ items, h.items? w = some items) ∧ path.length = fuel
  | fuel, depth, v, out, hnone => by
    unfold flattenItem at hnone
    split at hnone
    · rename_i items fuel hitems _
      obtain ⟨w, hw, out', hnone⟩ := exists_of_flattenList hnone
      obtain ⟨path, hpath, harray, hlength⟩ := exists_chain_of_flattenItem hnone
      have hholds : h.Holds v w := ⟨items, hitems, Array.mem_toList_iff.mp hw⟩
      refine ⟨w :: path, hpath.cons_cons hholds, fun u hu => ?_, congrArg (· + 1) hlength⟩
      rcases List.mem_cons.mp hu with rfl | hu
      · exact ⟨items, hitems⟩
      · exact harray u hu
    · rename_i items hitems _
      refine ⟨[], .singleton v, fun u hu => ?_, rfl⟩
      exact ⟨items, List.mem_singleton.mp hu ▸ hitems⟩
    · cases hnone

/-- **What cannot be flattened has no end.** -/
theorem hasNoEnd_of_flatten {depth : Float} {items : Array Value}
    (hnone : flatten h limit depth items = none) : ∃ v ∈ items, h.HasNoEnd v := by
  obtain ⟨v, hv, out, hnone⟩ := exists_of_flattenList hnone
  obtain ⟨path, hpath, harray, hlength⟩ := exists_chain_of_flattenItem hnone
  refine ⟨v, Array.mem_toList_iff.mp hv, Heap.hasNoEnd_of_chain hpath harray ?_⟩
  rw [hlength, flattenRoom]
  have hroom : h.size + 1 ≤ (limit + 2) * (h.size + 1) := Nat.le_mul_of_pos_left _ (by omega)
  omega

end

end ScriptTrace
