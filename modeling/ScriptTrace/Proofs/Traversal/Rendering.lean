import ScriptTrace.Proofs.Traversal.Picture

/-!
# Proofs/Traversal/Rendering — values as text, on every heap

The text of an array is put together from the texts of its elements, from those of arrays inside it
as well, until it is longer than a limit.  `Joins` says how a text grows by one element and
`JoinsAll` how by several, without any bound on how deep arrays lie inside one another; the elements
of an array always have such a text (`joins_of_trail`), and it is longer than the limit by one
element at most (`Joins.size_le`).
-/

namespace ScriptTrace

/-- Whether a comma stands in front of the next element. -/
def Capped.separated (out : Capped) (first : Bool) : Capped := if first then out else out.add ","

mutual

/-- **The text before and after an element**, with the arrays that it lies in.  Nullish values and
an array inside itself add nothing. -/
inductive Joins (h : Heap) : List ObjectId → Value → Capped → Capped → Prop
  | nullish {around : List ObjectId} {v : Value} {out : Capped} (hv : v.isNullish = true) :
    Joins h around v out out
  | circular {around : List ObjectId} {id : ObjectId} {out : Capped} (hid : id ∈ around) :
    Joins h around (.object id) out out
  | text {around : List ObjectId} {v : Value} {out : Capped} (hv : v.isNullish = false)
    (hnew : ∀ id, v = .object id → id ∉ around) (hitems : h.items? v = none) :
    Joins h around v out (out.add (h.simpleText v))
  | array {around : List ObjectId} {id : ObjectId} {items : Array Value} {out out' : Capped}
    (hid : id ∉ around) (hitems : h.items? (.object id) = some items)
    (hall : JoinsAll h (id :: around) true items.toList out out') :
    Joins h around (.object id) out out'

/-- The text before and after some elements, with commas between them; none is added to a text that
is longer than its limit. -/
inductive JoinsAll (h : Heap) : List ObjectId → Bool → List Value → Capped → Capped → Prop
  | done {around : List ObjectId} {first : Bool} {out : Capped} : JoinsAll h around first [] out out
  | full {around : List ObjectId} {first : Bool} {v : Value} {vs : List Value} {out : Capped}
    (hfull : out.isFull = true) : JoinsAll h around first (v :: vs) out out
  | more {around : List ObjectId} {first : Bool} {v : Value} {vs : List Value}
    {out mid out' : Capped} (hroom : out.isFull = false)
    (hv : Joins h around v (out.separated first) mid) (hvs : JoinsAll h around false vs mid out') :
    JoinsAll h around first (v :: vs) out out'

end

section

variable {h : Heap} {around : List ObjectId} {v : Value} {vs : List Value} {out out' : Capped}
  {first : Bool} {items : Array Value}

/-! ## Each element has a text -/

/-- If each item is joined, all of them are. -/
theorem joinsAll_of_forall {item : Value → Capped → Capped}
    (hitem : ∀ v ∈ vs, ∀ out, Joins h around v out (item v out)) :
    JoinsAll h around first vs out (Heap.joinItems item first vs out) := by
  induction vs generalizing first out with
  | nil => exact .done
  | cons v vs ih =>
    rw [Heap.joinItems]
    cases hfull : out.isFull with
    | true => exact .full hfull
    | false =>
      exact .more hfull (hitem v List.mem_cons_self _)
        (ih fun w hw => hitem w (List.mem_cons_of_mem v hw))

/-- **Joining comes to an end**: arrays inside one another that are all different are no more than
the heap has. -/
theorem joins_of_trail {fuel : Nat} (ht : Trail h fuel around) :
    Joins h around v out (h.joinItem fuel around v out) := by
  induction fuel using Nat.strong_induction_on generalizing around v out with
  | h fuel ih =>
    unfold Heap.joinItem
    by_cases hnull : v.isNullish = true
    · rw [if_pos hnull]
      exact .nullish hnull
    rw [if_neg hnull]
    by_cases haround : v.objectId?.any around.contains = true
    · rw [if_pos haround]
      obtain ⟨id, rfl, hmem⟩ : ∃ id, v = .object id ∧ id ∈ around := by
        cases v with
        | object id => exact ⟨id, rfl, by simpa [Value.objectId?] using haround⟩
        | undefined | null | bool | number | string | function | host | globalThis => cases haround
      exact .circular hmem
    rw [if_neg haround]
    have hnew : ∀ id, v = .object id → id ∉ around := by
      rintro id rfl hmem
      exact haround (by simpa [Value.objectId?] using hmem)
    cases hitems : h.items? v with
    | none => exact .text (by simpa using hnull) hnew hitems
    | some items =>
      obtain ⟨id, hid, rfl⟩ := Heap.items?_eq_some hitems
      obtain ⟨room, rfl, ht'⟩ := ht.enter hid (hnew id rfl)
      exact .array (hnew id rfl) hitems
        (joinsAll_of_forall fun w _ out => ih room (Nat.lt_succ_self room) ht')

@[simp] theorem Capped.limit_separated : (out.separated first).limit = out.limit := by
  unfold Capped.separated
  split <;> rfl

mutual

/-- The ceiling stays the same while a value is joined. -/
theorem Joins.limit_eq : ∀ {around : List ObjectId} {v : Value} {out out' : Capped},
    Joins h around v out out' → out'.limit = out.limit
  | _, _, _, _, .nullish _ | _, _, _, _, .circular _ | _, _, _, _, .text .. => rfl
  | _, _, _, _, .array _ _ hall => hall.limit_eq

/-- The ceiling stays the same while items are joined. -/
theorem JoinsAll.limit_eq : ∀ {around : List ObjectId} {first : Bool} {vs : List Value}
    {out out' : Capped}, JoinsAll h around first vs out out' → out'.limit = out.limit
  | _, _, _, _, _, .done | _, _, _, _, _, .full _ => rfl
  | _, _, _, _, _, .more _ hv hvs => by rw [hvs.limit_eq, hv.limit_eq, Capped.limit_separated]

end

/-- The text of an array. -/
theorem Heap.joins_text {limit : Nat} (hitems : h.items? v = some items) :
    Joins h [] v ⟨limit, ""⟩ ⟨limit, h.text limit v⟩ := by
  have hjoins : Joins h [] v ⟨limit, ""⟩ (h.joinItem h.size [] v ⟨limit, ""⟩) :=
    joins_of_trail (.start h)
  have hlimit : (h.joinItem h.size [] v ⟨limit, ""⟩).limit = limit := hjoins.limit_eq
  have htext : h.text limit v = (h.joinItem h.size [] v ⟨limit, ""⟩).text := by
    rw [Heap.text, hitems]
  have heq : Capped.mk limit (h.text limit v) = h.joinItem h.size [] v ⟨limit, ""⟩ :=
    congrArg₂ Capped.mk hlimit.symm htext
  rw [heq]
  exact hjoins

/-! ## How long a text is -/

/-- A separator is at most one byte beyond the ceiling. -/
theorem Capped.size_separated_le (hroom : out.isFull = false) :
    (out.separated first).text.utf8ByteSize ≤ out.limit + 1 := by
  rw [Capped.isFull, decide_eq_false_iff_not, Nat.not_lt] at hroom
  unfold Capped.separated
  cases first with
  | true => exact hroom.trans (Nat.le_succ _)
  | false =>
    have hcomma : ",".utf8ByteSize = 1 := rfl
    simp only [Bool.false_eq_true, if_false, Capped.add, String.utf8ByteSize_append, hcomma]
    omega

/-- Values that an array holds, directly or in arrays inside it, and that stand for themselves in
its text have texts of at most `m` bytes. -/
def Heap.WordsFit (h : Heap) (m : Nat) (v : Value) : Prop :=
  ∀ w, Relation.ReflTransGen h.Holds v w → w.isNullish = false → h.items? w = none →
    (h.simpleText w).utf8ByteSize ≤ m

variable {m : Nat}

theorem Heap.WordsFit.of_mem {id : ObjectId} (hm : h.WordsFit m (.object id))
    (hitems : h.items? (.object id) = some items) (hv : v ∈ items) : h.WordsFit m v :=
  fun w hw => hm w (.head ⟨items, hitems, hv⟩ hw)

mutual

/-- **One element beyond the limit**: a text with room for one more byte than its limit gets no
longer than one element more. -/
theorem Joins.size_le : ∀ {around : List ObjectId} {v : Value} {out out' : Capped},
    Joins h around v out out' → h.WordsFit m v → out.text.utf8ByteSize ≤ out.limit + 1 →
      out'.text.utf8ByteSize ≤ out.limit + 1 + m
  | _, _, _, _, .nullish _, _, hout | _, _, _, _, .circular _, _, hout => by omega
  | _, v, _, _, .text hv _ hitems, hm, hout => by
    have hword := hm v .refl hv hitems
    rw [Capped.add, String.utf8ByteSize_append]
    omega
  | _, _, _, _, .array _ hitems hall, hm, hout =>
    hall.size_le (fun _ hw => hm.of_mem hitems (Array.mem_toList_iff.mp hw)) (by omega)

/-- Joined items surpass the ceiling by a separator and one word at most. -/
theorem JoinsAll.size_le : ∀ {around : List ObjectId} {first : Bool} {vs : List Value}
    {out out' : Capped}, JoinsAll h around first vs out out' → (∀ v ∈ vs, h.WordsFit m v) →
      out.text.utf8ByteSize ≤ out.limit + 1 + m → out'.text.utf8ByteSize ≤ out.limit + 1 + m
  | _, _, _, _, _, .done, _, hout | _, _, _, _, _, .full _, _, hout => hout
  | _, _, _, _, _, .more hroom hv hvs, hm, hout => by
    have hlimit := hv.limit_eq
    have hmid := hv.size_le (hm _ List.mem_cons_self) (by
      rw [Capped.limit_separated]
      exact Capped.size_separated_le hroom)
    rw [Capped.limit_separated] at hlimit hmid
    rw [← hlimit] at hmid ⊢
    exact hvs.size_le (fun w hw => hm w (List.mem_cons_of_mem _ hw)) hmid

end

/-! ## Rendering -/

/-- **Every value is rendered.**  What is shown of a value is a picture: an object in it is marked
as circular just where it lies inside itself, and one with more than two objects around it is opened
only if it holds no data or is an error, which shows nothing that it holds.  A value is printed as
it is shown, but for texts.  The text of an array comes to an end as well, and is at most one byte
and one element longer than the limit. -/
theorem Heap.rendering_ends (hlive : h.IsLive) (hv : h.Knows v) :
    (∃ p : Picture, Depicts h [] v p ∧ h.inspect v = p.text h ∧
      (∀ around q id, p.Holds around q → q.object? = some id →
        (q = .circular id ↔ id ∈ around)) ∧
      ∀ around id inside, p.Holds around (.opened id inside) → 2 < around.length →
        ∃ o, h.get? id = some o ∧ (o.isFilled = false ∨ o.isError = true ∧ inside = [])) ∧
    (h.display v = h.inspect v ∨ ∃ s, v = .string s ∧ h.display v = s) ∧
    ∀ limit items, h.items? v = some items →
      Joins h [] v ⟨limit, ""⟩ ⟨limit, h.text limit v⟩ ∧
      ∀ m, (∀ w, Relation.TransGen h.Holds v w → w.isNullish = false → h.items? w = none →
        (h.text limit w).utf8ByteSize ≤ m) → (h.text limit v).utf8ByteSize ≤ limit + 1 + m := by
  refine ⟨?_, ?_, fun limit items hitems => ⟨Heap.joins_text hitems, fun m hm => ?_⟩⟩
  · obtain ⟨p, hp, htext⟩ := Inspect.exists_depicts hlive (.start h) hv
    refine ⟨p, hp, htext, fun around q id hq hid => ?_, fun around id inside hq hdeep => ?_⟩
    · obtain ⟨w, hw⟩ := hp.of_holds hq
      rw [List.append_nil] at hw
      exact hw.circular_iff hid
    · obtain ⟨w, hw⟩ := hp.of_holds hq
      rw [List.append_nil] at hw
      exact hw.not_filled_of_opened hdeep
  · unfold Heap.display
    split
    · exact .inr ⟨_, rfl, rfl⟩
    · exact .inl rfl
  · refine (Heap.joins_text hitems).size_le (fun w hw hnull hword => ?_) (Nat.zero_le _)
    have htext : h.text limit w = h.simpleText w := by rw [Heap.text, hword]
    rw [← htext]
    rcases Relation.reflTransGen_iff_eq_or_transGen.mp hw with rfl | hw
    · rw [hitems] at hword
      cases hword
    · exact hm w hw hnull hword

end

/-- Two arrays that hold each other. -/
def Heap.ring : Heap :=
  ⟨#[⟨.array #[.string "x", .object 1], none, none, false⟩,
    ⟨.array #[.object 0, .string "y"], none, none, false⟩]⟩

/-- An array that holds itself is depicted and joined. -/
theorem Heap.rendering_ends_of_ring :
    Heap.ring.IsLive ∧ Heap.ring.Knows (.object 0) ∧
      (∃ p : Picture, Depicts Heap.ring [] (.object 0) p ∧
        Heap.ring.inspect (.object 0) = p.text Heap.ring) ∧
      Joins Heap.ring [] (.object 0) ⟨100, ""⟩ ⟨100, "x,,y"⟩ := by
  have hlive : Heap.ring.IsLive := by
    simp [Heap.ring, Heap.IsLive, within_heap, within_array, within_heapObject, Heap.size]
  have hknows : Heap.ring.Knows (.object 0) := Heap.knows_object.mpr (by decide)
  obtain ⟨⟨p, hp, htext, -⟩, -, hjoins⟩ := Heap.rendering_ends hlive hknows
  have hxy : Heap.ring.text 100 (.object 0) = "x,,y" := by decide +kernel
  exact ⟨hlive, hknows, ⟨p, hp, htext⟩, hxy ▸ (hjoins 100 _ rfl).1⟩

end ScriptTrace
