import Mathlib.Data.List.Perm.Basic
import Mathlib.Tactic.Ring
import ScriptTrace.Library.Array

/-!
# Proofs/Sorting/Stable — what a sort by insertion makes of a list

A comparison puts two elements in an order, whatever that order is worth.  `Inserts` and `Arranges`
say which comparisons an insertion and a sort go by.  Without any assumption on them the result is a
rearrangement, by few comparisons.  Where they follow a preorder it is in order
(`Arranges.ordered`), and where none takes equals for different it is stable (`Arranges.stable`).
-/

namespace ScriptTrace

/-! ## Stable sorts -/

section

variable {α : Type} {le : α → α → Bool} {l l' out : List α} {a b : α}

/-- **A total preorder of the elements of a list.** -/
structure IsPreorderOn (le : α → α → Bool) (l : List α) : Prop where
  total : ∀ a ∈ l, ∀ b ∈ l, le a b = true ∨ le b a = true
  trans : ∀ a ∈ l, ∀ b ∈ l, ∀ c ∈ l, le a b = true → le b c = true → le a c = true

/-- Two elements of which neither comes before the other. -/
def Equals (le : α → α → Bool) (a b : α) : Bool := le a b && le b a

/-- **A stable sort of a list**: its elements in order, and those that equal one another in the
order in which they were. -/
structure IsStableSort (le : α → α → Bool) (l out : List α) : Prop where
  perm : out.Perm l
  sorted : out.Pairwise fun a b => le a b = true
  stable : ∀ a ∈ l, out.filter (Equals le a) = l.filter (Equals le a)

theorem equals_iff : Equals le a b = true ↔ le a b = true ∧ le b a = true := Bool.and_eq_true_iff

theorem IsPreorderOn.of_subset (h : IsPreorderOn le l) (hsub : l' ⊆ l) : IsPreorderOn le l' where
  total a ha b hb := h.total a (hsub ha) b (hsub hb)
  trans a ha b hb c hc := h.trans a (hsub ha) b (hsub hb) c (hsub hc)

end

/-! ## Comparisons -/

/-- Two elements that were compared, the order they were found in, and the machines before and
after. -/
structure Comparison where
  left : Value
  right : Value
  ordering : Ordering
  start : Machine
  stop : Machine

/-- **A comparison follows a relation**: it finds the elements out of order only if it may, and in
order only if they are. -/
def Comparison.Follows (le : Value → Value → Bool) (c : Comparison) : Prop :=
  (c.ordering = .gt → le c.right c.left = true) ∧ (c.ordering ≠ .gt → le c.left c.right = true)

/-- A comparison takes no equals for different. -/
def Comparison.Discerns (le : Value → Value → Bool) (c : Comparison) : Prop :=
  c.ordering = .gt → le c.left c.right = false

/-- A value is put into a list that is given last element first. -/
inductive Inserts (v : Value) : List Value → List Comparison → List Value → Prop
  | first : Inserts v [] [] [v]
  | stays {last : Value} {before : List Value} {c : Comparison} (hl : c.left = last)
    (hr : c.right = v) (ho : c.ordering ≠ .gt) :
    Inserts v (last :: before) [c] (v :: last :: before)
  | passes {last : Value} {before after : List Value} {c : Comparison} {cs : List Comparison}
    (hl : c.left = last) (hr : c.right = v) (ho : c.ordering = .gt)
    (h : Inserts v before cs after) :
    Inserts v (last :: before) (c :: cs) (last :: after)

/-- **A list is sorted by insertion**, one value after the other; what is sorted so far is given
last element first. -/
inductive Arranges : List Value → List Value → List Comparison → List Value → Prop
  | done {sorted : List Value} : Arranges sorted [] [] sorted.reverse
  | next {v : Value} {sorted after vs out : List Value} {cs cs' : List Comparison}
    (h : Inserts v sorted cs after) (h' : Arranges after vs cs' out) :
    Arranges sorted (v :: vs) (cs ++ cs') out

namespace Inserts

variable {v : Value} {before after : List Value} {cs : List Comparison} {le : Value → Value → Bool}

/-- A value that is put in its place is one more. -/
theorem perm (h : Inserts v before cs after) : after.Perm (v :: before) := by
  induction h with
  | first | stays => exact .refl _
  | passes _ _ _ _ ih => exact (ih.cons _).trans (.swap _ _ _)

/-- What comes behind stays there. -/
theorem perm_append (h : Inserts v before cs after) (vs : List Value) :
    (after ++ vs).Perm (before ++ v :: vs) :=
  (h.perm.append_right vs).trans List.perm_middle.symm

/-- A value is compared with no more values than there are. -/
theorem length_le (h : Inserts v before cs after) : cs.length ≤ before.length := by
  induction h with
  | first => exact le_rfl
  | stays => exact Nat.succ_le_succ (Nat.zero_le _)
  | passes _ _ _ _ ih => exact Nat.succ_le_succ ih

/-- A value is compared only with those before it. -/
theorem mem (h : Inserts v before cs after) {c : Comparison} (hc : c ∈ cs) :
    c.left ∈ before ∧ c.right = v := by
  induction h with
  | first => cases hc
  | stays hl hr _ =>
    obtain rfl := List.mem_singleton.mp hc
    exact ⟨hl ▸ List.mem_cons_self, hr⟩
  | passes hl hr _ _ ih =>
    obtain rfl | hc := List.mem_cons.mp hc
    · exact ⟨hl ▸ List.mem_cons_self, hr⟩
    · exact (ih hc).imp_left (List.mem_cons_of_mem _)

/-- **What was in order stays in order.** -/
theorem ordered (h : Inserts v before cs after) (hle : IsPreorderOn le (v :: before))
    (hcs : ∀ c ∈ cs, c.Follows le) (hs : before.Pairwise fun a b => le b a = true) :
    after.Pairwise fun a b => le b a = true := by
  induction h with
  | first => exact List.pairwise_singleton ..
  | @stays last before c hl hr ho =>
    have hlast : le last v = true := hl ▸ hr ▸ (hcs c List.mem_cons_self).2 ho
    refine List.pairwise_cons.mpr ⟨fun a ha => ?_, hs⟩
    obtain rfl | hbefore := List.mem_cons.mp ha
    · exact hlast
    · exact hle.trans a (List.mem_cons_of_mem v ha) last (by simp) v (by simp)
        (List.rel_of_pairwise_cons hs hbefore) hlast
  | @passes last before after c cs hl hr ho h ih =>
    have hv : le v last = true := hl ▸ hr ▸ (hcs c List.mem_cons_self).1 ho
    have hsub : v :: before ⊆ v :: last :: before :=
      List.cons_subset_cons v (List.subset_cons_self ..)
    refine List.pairwise_cons.mpr ⟨fun a ha => ?_, ih (hle.of_subset hsub)
      (fun c hc => hcs c (List.mem_cons_of_mem _ hc)) (List.pairwise_cons.mp hs).2⟩
    obtain rfl | hbefore := List.mem_cons.mp (h.perm.subset ha)
    · exact hv
    · exact List.rel_of_pairwise_cons hs hbefore

/-- **No value passes one of its equals.** -/
theorem stable (h : Inserts v before cs after) {a : Value}
    (hle : IsPreorderOn le (a :: v :: before)) (hcs : ∀ c ∈ cs, c.Discerns le) :
    after.filter (Equals le a) = (v :: before).filter (Equals le a) := by
  induction h with
  | first | stays => rfl
  | @passes last before after c cs hl hr ho h ih =>
    have hdiffer : le last v = false := hl ▸ hr ▸ hcs c List.mem_cons_self ho
    have hsub : a :: v :: before ⊆ a :: v :: last :: before :=
      List.cons_subset_cons a (List.cons_subset_cons v (List.subset_cons_self ..))
    have hrest := ih (hle.of_subset hsub) fun c hc => hcs c (List.mem_cons_of_mem _ hc)
    have hnot (hv : Equals le a v = true) (hlast : Equals le a last = true) : False := by
      have hlv := hle.trans last (by simp) a (by simp) v (by simp) (equals_iff.mp hlast).2
        (equals_iff.mp hv).1
      rw [hdiffer] at hlv
      cases hlv
    rw [List.filter_cons, hrest]
    simp only [List.filter_cons]
    split <;> split
    · exact (hnot ‹_› ‹_›).elim
    all_goals rfl

end Inserts

namespace Arranges

variable {before vs out : List Value} {cs : List Comparison} {le : Value → Value → Bool}

/-- **A sort rearranges**, whatever the comparisons are worth. -/
theorem perm (h : Arranges before vs cs out) : out.Perm (before ++ vs) := by
  induction h with
  | @done before => exact before.reverse_perm.trans (.of_eq before.append_nil.symm)
  | next h _ ih => exact ih.trans (h.perm_append _)

/-- Only values of the list are compared. -/
theorem mem (h : Arranges before vs cs out) {c : Comparison} (hc : c ∈ cs) :
    c.left ∈ before ++ vs ∧ c.right ∈ before ++ vs := by
  induction h with
  | done => cases hc
  | next h _ ih =>
    obtain hc | hc := List.mem_append.mp hc
    · obtain ⟨hl, hr⟩ := h.mem hc
      exact ⟨List.mem_append_left _ hl, hr ▸ by simp⟩
    · exact (ih hc).imp (fun hl => (h.perm_append _).subset hl) fun hr =>
        (h.perm_append _).subset hr

/-- Each value is compared once at most with each of those in front of it. -/
theorem length_le (h : Arranges before vs cs out) :
    2 * cs.length ≤ 2 * (before.length * vs.length) + vs.length * (vs.length - 1) := by
  induction h with
  | done => exact Nat.zero_le _
  | @next v before after vs out cs cs' h _ ih =>
    have hfirst := h.length_le
    rw [h.perm.length_eq, List.length_cons] at ih
    rw [List.length_append, List.length_cons, Nat.add_sub_cancel]
    have hsum : vs.length * (vs.length - 1) + 2 * vs.length = (vs.length + 1) * vs.length := by
      cases vs.length with
      | zero => rfl
      | succ k =>
        rw [Nat.add_sub_cancel]
        ring
    calc 2 * (cs.length + cs'.length)
        ≤ 2 * before.length + (2 * ((before.length + 1) * vs.length) +
            vs.length * (vs.length - 1)) := by omega
      _ = 2 * (before.length * (vs.length + 1)) +
            (vs.length * (vs.length - 1) + 2 * vs.length) := by ring
      _ = _ := by rw [hsum]

/-- **Comparisons that follow a preorder put a list in order.** -/
theorem ordered (h : Arranges before vs cs out) (hle : IsPreorderOn le (before ++ vs))
    (hcs : ∀ c ∈ cs, c.Follows le) (hs : before.Pairwise fun a b => le b a = true) :
    out.Pairwise fun a b => le a b = true := by
  induction h with
  | done => exact List.pairwise_reverse.mpr hs
  | @next v before after vs out cs cs' h _ ih =>
    have hmove : (v :: before ++ vs).Perm (before ++ v :: vs) := List.perm_middle.symm
    have hafter := h.ordered (hle.of_subset fun a ha => hmove.subset (List.mem_append_left _ ha))
      (fun c hc => hcs c (List.mem_append_left _ hc)) hs
    exact ih (hle.of_subset (h.perm_append vs).subset)
      (fun c hc => hcs c (List.mem_append_right _ hc)) hafter

/-- **Comparisons that take no equals for different keep those in order.** -/
theorem stable (h : Arranges before vs cs out) {a : Value} (ha : a ∈ before ++ vs)
    (hle : IsPreorderOn le (before ++ vs)) (hcs : ∀ c ∈ cs, c.Discerns le) :
    out.filter (Equals le a) = (before.reverse ++ vs).filter (Equals le a) := by
  induction h with
  | done => rw [List.append_nil]
  | @next v before after vs out cs cs' h _ ih =>
    have hmove : (v :: before ++ vs).Perm (before ++ v :: vs) := List.perm_middle.symm
    have hafter := h.stable (a := a) (hle.of_subset fun b hb => by
        obtain rfl | hb := List.mem_cons.mp hb
        · exact ha
        · exact hmove.subset (List.mem_append_left _ hb))
      fun c hc => hcs c (List.mem_append_left _ hc)
    rw [ih ((h.perm_append vs).symm.subset ha) (hle.of_subset (h.perm_append vs).subset)
        fun c hc => hcs c (List.mem_append_right _ hc),
      List.filter_append, List.filter_reverse, hafter, ← List.filter_reverse, List.reverse_cons,
      ← List.filter_append, List.append_assoc, List.singleton_append]

end Arranges

/-! ## `undefined` behind all others -/

/-- The elements that are not `undefined`. -/
def definedOnes (l : List Value) : List Value := l.filter fun v => !v.isUndefined

/-- **The elements in another order**, `undefined` behind all others. -/
structure IsArrangement (l out : List Value) : Prop where
  perm : out.Perm l
  last : ∃ k, out = definedOnes out ++ List.replicate k .undefined

/-- A relation of elements with `undefined` behind all others. -/
def undefinedLast (le : Value → Value → Bool) (a b : Value) : Bool :=
  b.isUndefined || (!a.isUndefined && le a b)

/-- Both elements are more than `undefined`. -/
def Comparison.isDefined (c : Comparison) : Bool := !c.left.isUndefined && !c.right.isUndefined

/-- **`undefined` is found behind all others**, by whatever comparison. -/
def Comparison.PutsUndefinedLast (c : Comparison) : Prop :=
  c.isDefined = false → (c.ordering = .gt ↔ c.left.isUndefined = true ∧ c.right.isUndefined = false)

section

variable {le : Value → Value → Bool} {a b : Value} {l out : List Value} {c : Comparison}

theorem eq_undefined (h : a.isUndefined = true) : a = .undefined := by
  cases a with
  | undefined => rfl
  | _ => cases h

theorem mem_definedOnes : a ∈ definedOnes l ↔ a ∈ l ∧ a.isUndefined = false := by
  rw [definedOnes, List.mem_filter, Bool.not_eq_true']

theorem undefinedLast_iff : undefinedLast le a b = true ↔
    b.isUndefined = true ∨ a.isUndefined = false ∧ le a b = true := by
  rw [undefinedLast, Bool.or_eq_true, Bool.and_eq_true, Bool.not_eq_true']

/-- Between values that are defined `undefined` has no say. -/
theorem undefinedLast_of_defined (ha : a.isUndefined = false) (hb : b.isUndefined = false) :
    undefinedLast le a b = le a b := by
  rw [undefinedLast, ha, hb]
  rfl

theorem Comparison.isDefined_iff :
    c.isDefined = true ↔ c.left.isUndefined = false ∧ c.right.isUndefined = false := by
  rw [isDefined, Bool.and_eq_true, Bool.not_eq_true', Bool.not_eq_true']

/-- An order with `undefined` at its end is an order. -/
theorem IsPreorderOn.undefinedLast (h : IsPreorderOn le (definedOnes l)) :
    IsPreorderOn (undefinedLast le) l where
  total a ha b hb := by
    rw [undefinedLast_iff, undefinedLast_iff]
    cases hau : a.isUndefined with
    | true => exact .inr (.inl rfl)
    | false =>
      cases hbu : b.isUndefined with
      | true => exact .inl (.inl rfl)
      | false =>
        exact (h.total a (mem_definedOnes.mpr ⟨ha, hau⟩) b (mem_definedOnes.mpr ⟨hb, hbu⟩)).imp
          (fun hle => .inr ⟨rfl, hle⟩) fun hle => .inr ⟨rfl, hle⟩
  trans a ha b hb c hc := by
    simp only [undefinedLast_iff]
    rintro hab (hcu | ⟨hbu, hbc⟩)
    · exact .inl hcu
    · obtain hbu' | ⟨hau, hab⟩ := hab
      · rw [hbu] at hbu'
        cases hbu'
      · cases hcu : c.isUndefined with
        | true => exact .inl rfl
        | false =>
          exact .inr ⟨hau, h.trans a (mem_definedOnes.mpr ⟨ha, hau⟩) b
            (mem_definedOnes.mpr ⟨hb, hbu⟩) c (mem_definedOnes.mpr ⟨hc, hcu⟩) hab hbc⟩

/-- In a list with `undefined` behind all others, all of them stand at the end. -/
theorem eq_append_replicate
    (h : out.Pairwise fun a b => undefinedLast (fun _ _ => true) a b = true) :
    ∃ k, out = definedOnes out ++ List.replicate k .undefined := by
  induction out with
  | nil => exact ⟨0, rfl⟩
  | cons a out ih =>
    obtain ⟨hfirst, hrest⟩ := List.pairwise_cons.mp h
    obtain ⟨k, hk⟩ := ih hrest
    cases ha : a.isUndefined with
    | false =>
      refine ⟨k, ?_⟩
      rw [definedOnes, List.filter_cons_of_pos (by rw [ha]; rfl), List.cons_append]
      exact congrArg (a :: ·) hk
    | true =>
      have hnone : definedOnes (a :: out) = [] := List.filter_eq_nil_iff.mpr fun b hb => by
        obtain rfl | hb := List.mem_cons.mp hb
        · simp [ha]
        · simpa [undefinedLast, ha] using hfirst b hb
      have hnone' : definedOnes out = [] := by
        rwa [definedOnes, List.filter_cons_of_neg (by simp [ha])] at hnone
      rw [hnone', List.nil_append] at hk
      refine ⟨k + 1, ?_⟩
      rw [hnone, List.nil_append, List.replicate_succ, ← hk, eq_undefined ha]

namespace Comparison.PutsUndefinedLast

/-- A comparison that follows an order does so with `undefined` at its end. -/
theorem follows (h : c.PutsUndefinedLast) (hdef : c.isDefined = true → c.Follows le) :
    c.Follows (undefinedLast le) := by
  cases hc : c.isDefined with
  | true =>
    obtain ⟨hl, hr⟩ := isDefined_iff.mp hc
    rw [Follows, undefinedLast_of_defined hl hr, undefinedLast_of_defined hr hl]
    exact hdef hc
  | false =>
    have hgt := h hc
    rw [isDefined] at hc
    constructor
    · intro ho
      rw [undefinedLast, (hgt.mp ho).1, Bool.true_or]
    · intro ho
      rw [undefinedLast]
      cases hl : c.left.isUndefined <;> cases hr : c.right.isUndefined
      · simp [hl, hr] at hc
      · rfl
      · exact absurd (hgt.mpr ⟨hl, hr⟩) ho
      · rfl

/-- A comparison that tells values apart does so with `undefined` at the end. -/
theorem discerns (h : c.PutsUndefinedLast) (hdef : c.isDefined = true → c.Discerns le) :
    c.Discerns (undefinedLast le) := by
  cases hc : c.isDefined with
  | true =>
    obtain ⟨hl, hr⟩ := isDefined_iff.mp hc
    rw [Discerns, undefinedLast_of_defined hl hr]
    exact hdef hc
  | false =>
    intro ho
    obtain ⟨hl, hr⟩ := (h hc).mp ho
    rw [undefinedLast, hl, hr]
    rfl

end Comparison.PutsUndefinedLast

namespace Arranges

variable {cs : List Comparison}

/-- **A sort that puts `undefined` last is an arrangement**, whatever its other comparisons are
worth. -/
theorem isArrangement (h : Arranges [] l cs out) (hcs : ∀ c ∈ cs, c.PutsUndefinedLast) :
    IsArrangement l out where
  perm := h.perm
  last := by
    have hle : IsPreorderOn (fun _ _ => true) (definedOnes l) :=
      ⟨fun _ _ _ _ => .inl rfl, fun _ _ _ _ _ _ _ _ => rfl⟩
    exact eq_append_replicate (h.ordered hle.undefinedLast
      (fun c hc => (hcs c hc).follows fun _ => ⟨fun _ => rfl, fun _ => rfl⟩) .nil)

/-- **A sort is stable** by any preorder that its comparisons of defined elements agree with. -/
theorem isStableSort (h : Arranges [] l cs out) (hcs : ∀ c ∈ cs, c.PutsUndefinedLast)
    (hle : IsPreorderOn le (definedOnes l))
    (hagree : ∀ c ∈ cs, c.isDefined = true → (c.ordering = .gt ↔ le c.left c.right = false)) :
    IsStableSort le (definedOnes l) (definedOnes out) := by
  have hfollows (c : Comparison) (hc : c ∈ cs) (hdef : c.isDefined = true) : c.Follows le := by
    obtain ⟨hl, hr⟩ := Comparison.isDefined_iff.mp hdef
    obtain ⟨hlmem, hrmem⟩ := h.mem hc
    have htotal := hle.total _ (mem_definedOnes.mpr ⟨hlmem, hl⟩) _ (mem_definedOnes.mpr ⟨hrmem, hr⟩)
    rw [Comparison.Follows, Ne, hagree c hc hdef, Bool.not_eq_false]
    refine ⟨fun hno => htotal.resolve_left ?_, id⟩
    rw [hno]
    exact Bool.false_ne_true
  have hs := h.ordered hle.undefinedLast (fun c hc => (hcs c hc).follows (hfollows c hc)) .nil
  refine ⟨h.perm.filter _, ?_, fun a ha => ?_⟩
  · refine (hs.filter _).imp_of_mem fun ha hb hab => ?_
    rwa [undefinedLast_of_defined (mem_definedOnes.mp ha).2 (mem_definedOnes.mp hb).2] at hab
  · obtain ⟨hmem, hau⟩ := mem_definedOnes.mp ha
    have hclass (l' : List Value) : (definedOnes l').filter (Equals le a) =
        l'.filter (Equals (undefinedLast le) a) := by
      rw [definedOnes, List.filter_filter]
      refine List.filter_congr fun b _ => ?_
      cases hb : b.isUndefined <;> simp [Equals, undefinedLast, hau, hb]
    rw [hclass, hclass]
    exact h.stable hmem hle.undefinedLast fun c hc =>
      (hcs c hc).discerns fun hdef => (hagree c hc hdef).mp

end Arranges

end

end ScriptTrace
