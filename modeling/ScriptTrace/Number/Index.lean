import ScriptTrace.Number.Reading

/-!
# Number/Index — keys that are indices

A key is an index when it is a count below `2 ^ 64` in its ordinary decimal form, without a zero in
front.
-/

namespace ScriptTrace.Number

/-- Whether digits are the ordinary form of a count: at least one, all decimal, and no zero in front
of others. -/
def isPlainCount (cs : List Char) : Bool :=
  match cs with
  | [] => false
  | c :: rest => (c ≠ '0' || rest.isEmpty) && cs.all isDigit

/-- **The index that a key stands for.** -/
def indexOf? (key : String) : Option Nat :=
  let cs := key.toList
  if isPlainCount cs then (some (natOfDigits cs)).filter (· ≤ maxCount) else none

/-! ## Different keys are different indices -/

theorem isDigit_iff {c : Char} : isDigit c = true ↔ 48 ≤ c.toNat ∧ c.toNat ≤ 57 := by
  unfold isDigit
  rw [Bool.and_eq_true, decide_eq_true_iff, decide_eq_true_iff]
  exact Iff.rfl

/-- The count that decimal digits write, the last one first. -/
def countBackward (ds : List Char) : Nat := ds.foldr (fun d n => 10 * n + (d.toNat - 48)) 0

theorem natOfDigits_eq (ds : List Char) : natOfDigits ds = countBackward ds.reverse := by
  rw [countBackward, List.foldr_reverse]
  rfl

/-- Digits, the last one first, without a zero in front. -/
def IsBackwardCount (ds : List Char) : Prop :=
  (∀ d ∈ ds, isDigit d = true) ∧ ds.getLast? ≠ some '0'

theorem IsBackwardCount.tail {d : Char} {ds : List Char} (h : IsBackwardCount (d :: ds)) :
    IsBackwardCount ds := by
  refine ⟨fun e he => h.1 e (List.mem_cons_of_mem d he), fun hlast => h.2 ?_⟩
  cases ds with
  | nil => cases hlast
  | cons e es => rwa [List.getLast?_cons_cons]

/-- A count that does not begin with a zero is not zero. -/
theorem countBackward_pos {d : Char} {ds : List Char} (h : IsBackwardCount (d :: ds)) :
    0 < countBackward (d :: ds) := by
  induction ds generalizing d with
  | nil =>
    have hd := isDigit_iff.mp (h.1 d (List.mem_singleton_self d))
    have hne : d.toNat ≠ 48 := fun heq => h.2 (congrArg some (Char.toNat_inj.mp heq))
    change 0 < 10 * 0 + (d.toNat - 48)
    omega
  | cons e es ih =>
    have hrest := ih h.tail
    change 0 < 10 * countBackward (e :: es) + (d.toNat - 48)
    omega

/-- A number has one plain spelling. -/
theorem countBackward_inj {ds es : List Char} (hd : IsBackwardCount ds) (he : IsBackwardCount es)
    (h : countBackward ds = countBackward es) : ds = es := by
  induction ds generalizing es with
  | nil =>
    cases es with
    | nil => rfl
    | cons e es => exact absurd h (Nat.ne_of_lt (countBackward_pos he))
  | cons d ds ih =>
    cases es with
    | nil => exact absurd h (Nat.ne_of_gt (countBackward_pos hd))
    | cons e es =>
      have hd₁ := isDigit_iff.mp (hd.1 d List.mem_cons_self)
      have he₁ := isDigit_iff.mp (he.1 e List.mem_cons_self)
      change 10 * countBackward ds + (d.toNat - 48) = 10 * countBackward es + (e.toNat - 48) at h
      have hfirst : d = e := Char.toNat_inj.mp (by omega)
      have hrest : ds = es := ih hd.tail he.tail (by omega)
      rw [hfirst, hrest]

/-- A plain spelling is that of zero or begins with another digit. -/
theorem isBackwardCount_of_plain {c : Char} {cs : List Char} (h : isPlainCount (c :: cs) = true) :
    c :: cs = ['0'] ∨ IsBackwardCount (c :: cs).reverse := by
  rw [isPlainCount, Bool.and_eq_true, Bool.or_eq_true, decide_eq_true_iff, List.all_eq_true] at h
  by_cases hc : c = '0'
  · left
    rw [hc, List.isEmpty_iff.mp (h.1.resolve_left (not_not_intro hc))]
  · right
    refine ⟨fun d hd => h.2 d (List.mem_reverse.mp hd), fun hlast => hc ?_⟩
    rw [List.getLast?_reverse] at hlast
    exact Option.some.inj hlast

/-- Digits in ordinary form write different counts. -/
theorem natOfDigits_inj {cs ds : List Char} (hc : isPlainCount cs = true)
    (hd : isPlainCount ds = true) (h : natOfDigits cs = natOfDigits ds) : cs = ds := by
  rw [natOfDigits_eq, natOfDigits_eq] at h
  match cs, ds, hc, hd with
  | c :: cs, d :: ds, hc, hd =>
    have hzero {d : Char} {ds : List Char} (hd : IsBackwardCount (d :: ds).reverse) :
        0 < countBackward (d :: ds).reverse := by
      obtain ⟨e, es, he⟩ := List.exists_cons_of_ne_nil (List.reverse_ne_nil_iff.mpr
        (List.cons_ne_nil d ds))
      rw [he] at hd ⊢
      exact countBackward_pos hd
    obtain hc | hc := isBackwardCount_of_plain hc <;> obtain hd | hd := isBackwardCount_of_plain hd
    · rw [hc, hd]
    · rw [hc] at h
      exact absurd h (Nat.ne_of_lt (hzero hd))
    · rw [hd] at h
      exact absurd h (Nat.ne_of_gt (hzero hc))
    · exact List.reverse_inj.mp (countBackward_inj hc hd h)

/-- **Different keys are different indices.** -/
theorem indexOf?_inj {k l : String} {i : Nat} (hk : indexOf? k = some i)
    (hl : indexOf? l = some i) :
    k = l := by
  have hplain {k : String} (hk : indexOf? k = some i) :
      isPlainCount k.toList = true ∧ natOfDigits k.toList = i := by
    unfold indexOf? at hk
    dsimp only at hk
    split at hk
    · obtain ⟨heq, -⟩ := Option.filter_eq_some_iff.mp hk
      exact ⟨‹_›, Option.some.inj heq⟩
    · cases hk
  obtain ⟨hk₁, hk₂⟩ := hplain hk
  obtain ⟨hl₁, hl₂⟩ := hplain hl
  exact String.toList_inj.mp (natOfDigits_inj hk₁ hl₁ (hk₂.trans hl₂.symm))

end ScriptTrace.Number
