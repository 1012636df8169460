import ScriptTrace.Machine.Value

/-!
# Machine/Props — the properties of an object

Properties keep the order in which they were added, except that keys that are indices stand in front
of all others, in ascending order.
-/

namespace ScriptTrace

/-- Whether a key may stand in front of another one: indices do in ascending order, and in front of
all other keys, of which any two differ. -/
def Precedes (k l : String) : Prop :=
  match Number.indexOf? k, Number.indexOf? l with
  | some i, some j => i < j
  | some _, none => True
  | none, some _ => False
  | none, none => k ≠ l

/-- Properties in the order in which a program sees them. -/
structure Props where
  entries : List (String × Value)
  ordered : entries.Pairwise fun e f => Precedes e.1 f.1

namespace Props

/-- No properties. -/
def empty : Props := ⟨[], .nil⟩

instance : Inhabited Props := ⟨empty⟩

/-- Whether there are no properties. -/
def isEmpty (p : Props) : Bool := p.entries.isEmpty

/-- The keys in their order. -/
def keys (p : Props) : List String := p.entries.map Prod.fst

/-- The value of a key. -/
def get? (p : Props) (key : String) : Option Value :=
  (p.entries.find? (·.1 = key)).map Prod.snd

/-- Whether there is a property with this key. -/
def contains (p : Props) (key : String) : Bool := p.entries.any (·.1 = key)

/-- Writes the value of a key that is there. -/
def replace (key : String) (value : Value) : List (String × Value) → List (String × Value)
  | [] => []
  | e :: es => if e.1 = key then (key, value) :: es else e :: replace key value es

/-- Adds a key that is an index in front of the first key that is none or a larger one. -/
def insertIndex (index : Nat) (key : String) (value : Value) :
    List (String × Value) → List (String × Value)
  | [] => [(key, value)]
  | e :: es =>
    if (Number.indexOf? e.1).all (index < ·) then (key, value) :: e :: es
    else e :: insertIndex index key value es

/-! ## Changes keep the order -/

section

variable {key : String} {value : Value} {index : Nat} {e : String × Value}
  {es : List (String × Value)}

/-- A new value under a key that is there leaves the keys as they are. -/
theorem map_replace : (replace key value es).map Prod.fst = es.map Prod.fst := by
  induction es with
  | nil => rfl
  | cons e es ih =>
    unfold replace
    split
    · rw [List.map_cons, List.map_cons, ← ‹e.1 = key›]
    · rw [List.map_cons, List.map_cons, ih]

/-- An insertion brings in nothing but the new property. -/
theorem mem_insertIndex {f : String × Value} (h : f ∈ insertIndex index key value es) :
    f = (key, value) ∨ f ∈ es := by
  induction es with
  | nil => exact .inl (List.mem_singleton.mp h)
  | cons e es ih =>
    unfold insertIndex at h
    split at h
    · exact List.mem_cons.mp h
    · obtain rfl | h := List.mem_cons.mp h
      · exact .inr List.mem_cons_self
      · exact (ih h).imp_right (List.mem_cons_of_mem e)

/-- A new value under a key that is there leaves the order. -/
theorem ordered_replace (h : es.Pairwise fun e f => Precedes e.1 f.1) :
    (replace key value es).Pairwise fun e f => Precedes e.1 f.1 := by
  have hkeys (es : List (String × Value)) : (es.Pairwise fun e f => Precedes e.1 f.1) ↔
      (es.map Prod.fst).Pairwise Precedes := List.pairwise_map.symm
  rw [hkeys, map_replace]
  exact (hkeys es).mp h

/-- An index stands in front of all that stands behind the first key that is none or a
larger one. -/
theorem precedes_of_all {f : String × Value} (hk : Number.indexOf? key = some index)
    (he : (Number.indexOf? e.1).all (index < ·) = true) (hf : f = e ∨ Precedes e.1 f.1) :
    Precedes key f.1 := by
  unfold Precedes at hf ⊢
  rw [hk]
  obtain rfl | hf := hf
  · cases hi : Number.indexOf? f.1 with
    | none => trivial
    | some j =>
      rw [hi] at he
      exact of_decide_eq_true he
  · cases hi : Number.indexOf? f.1 with
    | none => trivial
    | some j =>
      cases hj : Number.indexOf? e.1 with
      | none =>
        rw [hi, hj] at hf
        cases hf
      | some i =>
        rw [hi, hj] at hf
        rw [hj] at he
        exact Nat.lt_trans (of_decide_eq_true he) hf

/-- **An index is put in its place**: if the properties were in order, they are so behind it. -/
theorem ordered_insertIndex (hk : Number.indexOf? key = some index)
    (hnew : ∀ e ∈ es, e.1 ≠ key) (h : es.Pairwise fun e f => Precedes e.1 f.1) :
    (insertIndex index key value es).Pairwise fun e f => Precedes e.1 f.1 := by
  induction es with
  | nil => exact .cons nofun .nil
  | cons e es ih =>
    obtain ⟨he, hes⟩ := List.pairwise_cons.mp h
    unfold insertIndex
    split
    · rename_i hall
      refine .cons (fun f hf => precedes_of_all hk hall ?_) h
      exact (List.mem_cons.mp hf).imp_right (he f)
    · rename_i hall
      refine .cons (fun f hf => ?_) (ih (fun f hf => hnew f (List.mem_cons_of_mem e hf)) hes)
      obtain rfl | hf := mem_insertIndex hf
      · unfold Precedes
        rw [hk]
        cases hi : Number.indexOf? e.1 with
        | none =>
          rw [hi] at hall
          exact absurd rfl hall
        | some i =>
          have hne : i ≠ index := by
            rintro rfl
            exact hnew e List.mem_cons_self (Number.indexOf?_inj hi hk)
          have hle : ¬ index < i := fun hlt => hall (by rw [hi]; exact decide_eq_true hlt)
          change i < index
          omega
      · exact he f hf

/-- A key that is no index goes to the end, where it is in order. -/
theorem ordered_append (hk : Number.indexOf? key = none) (hnew : ∀ e ∈ es, e.1 ≠ key)
    (h : es.Pairwise fun e f => Precedes e.1 f.1) :
    (es ++ [(key, value)]).Pairwise fun e f => Precedes e.1 f.1 := by
  refine List.pairwise_append.mpr ⟨h, .cons nofun .nil, fun e he f hf => ?_⟩
  cases List.mem_singleton.mp hf
  unfold Precedes
  rw [hk]
  cases hi : Number.indexOf? e.1 with
  | none => exact hnew e he
  | some i => trivial

theorem ne_of_not_contains {p : Props} (h : ¬ p.contains key = true) : ∀ e ∈ p.entries, e.1 ≠ key :=
  fun e he heq => h (List.any_eq_true.mpr ⟨e, he, decide_eq_true heq⟩)

end

/-- Writes a property; a new key takes its place, a known one keeps it. -/
def set (p : Props) (key : String) (value : Value) : Props :=
  if hc : p.contains key then ⟨replace key value p.entries, ordered_replace p.ordered⟩
  else match hk : Number.indexOf? key with
  | some index =>
    ⟨insertIndex index key value p.entries,
      ordered_insertIndex hk (ne_of_not_contains hc) p.ordered⟩
  | none =>
    ⟨p.entries ++ [(key, value)], ordered_append hk (ne_of_not_contains hc) p.ordered⟩

/-- Removes a property. -/
def erase (p : Props) (key : String) : Props :=
  ⟨p.entries.eraseP (·.1 = key), p.ordered.sublist List.eraseP_sublist⟩

/-- The properties that a list of them makes, later values of a key over earlier ones. -/
def ofList (entries : List (String × Value)) : Props :=
  entries.foldl (fun p e => p.set e.1 e.2) empty

end Props

end ScriptTrace
