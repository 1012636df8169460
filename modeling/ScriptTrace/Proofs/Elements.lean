import Mathlib.Algebra.Group.Nat.Defs
import ScriptTrace.Evaluation.Member
import ScriptTrace.Proofs.Json.Reader
import ScriptTrace.Proofs.Outcome

/-!
# Proofs/Elements — elements are found under their indices

    [x, y, z]  ─▸  "0" x, "1" y, "2" z  ─▸  x, y, z

The elements of an array and the characters of a text are listed under their places in decimal form.
A key is an index exactly if it is the decimal form of a count of 64 bits (`indexOf?_eq_some_iff`),
so each of them is found again under the key that it was listed with (`elements_under_indices`).
-/

namespace ScriptTrace

/-! ## Indices in decimal form -/

namespace Number

variable {k : String} {n : Nat}

/-- The digits of a count are its ordinary form. -/
theorem isPlainCount_toDigits (n : Nat) : isPlainCount (Nat.toDigits 10 n) = true := by
  obtain ⟨c, cs, hdigits⟩ := List.exists_cons_of_ne_nil (@Nat.toDigits_ne_nil n 10)
  have hall : (Nat.toDigits 10 n).all isDigit = true :=
    List.all_eq_true.mpr fun _ => Json.isDigit_toDigits
  rw [hdigits] at hall ⊢
  rw [isPlainCount, hall, Bool.and_true, Bool.or_eq_true, decide_eq_true_iff]
  rcases Nat.eq_zero_or_pos n with rfl | hpos
  · cases hdigits
    exact .inr rfl
  · have hhead := Json.toDigits_head hpos
    rw [hdigits] at hhead
    exact .inl fun hc => hhead (congrArg some hc)

theorem natOfDigits_toDigits (n : Nat) : natOfDigits (Nat.toDigits 10 n) = n :=
  Nat.ofDigitChars_ten_toDigits

/-- The decimal form of a count is an index as far as 64 bits go. -/
theorem indexOf?_toString (n : Nat) :
    indexOf? (toString n) = if n < 2 ^ 64 then some n else none := by
  have hform : (toString n).toList = Nat.toDigits 10 n := Nat.toList_repr
  have hbound : n ≤ maxCount ↔ n < 2 ^ 64 := by
    rw [maxCount, Nat.one_shiftLeft]
    exact Nat.le_sub_one_iff_lt (Nat.two_pow_pos 64)
  unfold indexOf?
  dsimp only
  rw [hform, if_pos (isPlainCount_toDigits n), natOfDigits_toDigits, Option.filter_some]
  by_cases hlt : n < 2 ^ 64
  · rw [if_pos hlt, if_pos (decide_eq_true (hbound.mpr hlt))]
  · rw [if_neg hlt, if_neg (by rw [decide_eq_true_iff, hbound]; exact hlt)]

/-- **Indices are the counts of 64 bits in decimal form**, and nothing else is one. -/
theorem indexOf?_eq_some_iff : indexOf? k = some n ↔ n < 2 ^ 64 ∧ k = toString n := by
  refine ⟨fun h => ?_, fun hk => by rw [hk.2, indexOf?_toString, if_pos hk.1]⟩
  have hlt : n < 2 ^ 64 := by
    unfold indexOf? at h
    dsimp only at h
    split at h
    · obtain ⟨-, hle⟩ := Option.filter_eq_some_iff.mp h
      have hle : n ≤ 1 <<< 64 - 1 := of_decide_eq_true hle
      rw [Nat.one_shiftLeft] at hle
      exact Nat.lt_of_le_sub_one (Nat.two_pow_pos 64) hle
    · cases h
  exact ⟨hlt, indexOf?_inj h (by rw [indexOf?_toString, if_pos hlt])⟩

end Number

/-! ## Elements -/

/-- The elements that a value consists of: those of an array, or the characters of a text. -/
inductive Heap.HasElements (h : Heap) : Value → List Value → Prop
  | array {id : ObjectId} {items : Array Value} (hbody : h.body? id = some (.array items)) :
      HasElements h (.object id) items.toList
  | characters (s : String) : HasElements h (.string s) (s.toList.map fun c => .chars [c])

/-- **Each element is listed once**, under its place. -/
theorem Heap.HasElements.ownEntries {h : Heap} {v : Value} {elements : List Value}
    (hv : h.HasElements v elements) :
    h.ownEntries v = elements.zipIdx.map fun e => (toString e.2, e.1) := by
  cases hv with
  | array hbody => rw [Heap.ownEntries, hbody]
  | characters s =>
    rw [Heap.ownEntries, List.zipIdx_map, List.map_map]
    rfl

namespace Exec

variable {m : Machine} {v : Value} {elements : List Value} {i line : Nat}

/-- A place is not the length. -/
theorem ne_length {k : String} (hindex : Number.indexOf? k = some i) : k ≠ "length" := by
  rintro rfl
  cases hindex

/-- **An element is read under its place**, as far as 64 bits go. -/
theorem getMember_of_hasElements (hv : m.heap.HasElements v elements) (hi : i < elements.length)
    (hlt : i < 2 ^ 64) : getMember v (toString i) line m = .ok elements[i] m := by
  have hindex : Number.indexOf? (toString i) = some i := by
    rw [Number.indexOf?_toString, if_pos hlt]
  cases hv with
  | @array id items hbody =>
    rw [Array.length_toList] at hi
    refine (bind_of_ok (show body? id m = .ok (some (.array items)) m from hbody ▸ rfl)).trans ?_
    dsimp only
    rw [if_neg (ne_length hindex), hindex]
    dsimp only
    rw [Array.getD_eq_getD_getElem?, Array.getElem?_eq_getElem hi, Array.getElem_toList]
    rfl
  | characters s =>
    rw [List.length_map] at hi
    change stringMember s (toString i) m = _
    unfold stringMember
    rw [if_neg (ne_length hindex), hindex]
    dsimp only
    rw [List.getElem?_eq_getElem hi, List.getElem_map]
    rfl

end Exec

/-- **Indices are exactly the counts of 64 bits in decimal form**: different keys are different
ones, and no longer count is one.  The elements of an array and the characters of a text are listed
under their places, each once, and each of them is read under the key that it is listed with. -/
theorem elements_under_indices :
    (∀ (k : String) (n : Nat), Number.indexOf? k = some n ↔ n < 2 ^ 64 ∧ k = toString n) ∧
    (∀ (k l : String) (n : Nat), Number.indexOf? k = some n → Number.indexOf? l = some n → k = l) ∧
    (∀ n, 2 ^ 64 ≤ n → Number.indexOf? (toString n) = none) ∧
    ∀ (m : Machine) (v : Value) (elements : List Value) (line : Nat),
      m.heap.HasElements v elements → elements.length ≤ 2 ^ 64 →
      m.heap.ownEntries v = elements.zipIdx.map (fun e => (toString e.2, e.1)) ∧
      ∀ e ∈ m.heap.ownEntries v, Exec.getMember v e.1 line m = .ok e.2 m := by
  refine ⟨fun _ _ => Number.indexOf?_eq_some_iff, fun _ _ _ => Number.indexOf?_inj, fun n hn => ?_,
    fun m v elements line hv hlength => ⟨hv.ownEntries, fun e he => ?_⟩⟩
  · rw [Number.indexOf?_toString, if_neg (Nat.not_lt.mpr hn)]
  · rw [hv.ownEntries] at he
    obtain ⟨⟨x, i⟩, hx, rfl⟩ := List.mem_map.mp he
    obtain ⟨hi, heq⟩ := List.mem_zipIdx' hx
    rw [heq]
    exact Exec.getMember_of_hasElements hv hi (Nat.lt_of_lt_of_le hi hlength)

/-- A text of eleven characters, the last of which stands under a key of two digits. -/
theorem elements_under_indices_long :
    Number.indexOf? "10" = some 10 ∧ Number.indexOf? (toString (2 ^ 64)) = none ∧
    Exec.getMember (.string "aßcdefghij€") "10" 1 (.initial .default) =
      .ok (.string "€") (.initial .default) := by
  obtain ⟨hindex, -, hlarge, hread⟩ := elements_under_indices
  obtain ⟨hentries, helement⟩ :=
    hread (.initial .default) _ _ 1 (.characters "aßcdefghij€") (by decide)
  refine ⟨(hindex "10" 10).mpr ⟨by decide, by decide⟩, hlarge _ (Nat.le_refl _),
    helement ("10", .string "€") ?_⟩
  rw [hentries]
  exact List.mem_of_getElem? (i := 10) (by rfl)

end ScriptTrace
