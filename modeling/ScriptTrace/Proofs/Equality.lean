import ScriptTrace.Evaluation.Operator
import ScriptTrace.Proofs.Numbers
import ScriptTrace.Proofs.Outcome

/-!
# Proofs/Equality — the laws of equality and order

    true == [1]  ─▸  1 == [1]  ─▸  1 == "1"  ─▸  1 == 1

Equality with conversion changes the kind of one side at a time: a boolean becomes a number, an
object its text, a text next to a number becomes one.  `Converts` is one such change and
`LooselyEquals` what a row of them comes to.  Each change leaves a pair that is simpler
(`Converts.weight_lt`), so every row ends, and it ends with the answer of `Heap.looseEquals`
(`looselyEquals_iff`).  The two sides stand under the same rules, so equality is symmetric.

Numbers are compared by one function, of which `<` and `==` read off an answer each; turned around
it answers the other way (`compare_swap`).  So at most one of `x < y`, `x == y` and `y < x` holds,
and NaN alone is unequal to itself.
-/

namespace ScriptTrace.Number

open Float.Model (UnpackedFloat)
open Float.Model.UnpackedFloat

/-! ## One comparison -/

theorem compare_sign_swap (s t : Sign) : compare s t = (compare t s).swap := by
  cases s <;> cases t <;> rfl

/-- Of two finite numbers the one with the greater exponent is greater, then the one with the
greater significand. -/
theorem then_compare_swap (m n : Nat) (e f : Int) :
    (compare e f).then (compare m n) = ((compare f e).then (compare n m)).swap := by
  rw [Ordering.swap_then, ← Std.OrientedOrd.eq_swap, ← Std.OrientedOrd.eq_swap]

/-- **Turned around, a comparison answers the other way.** -/
theorem compare_swap (a b : UnpackedFloat) : a.compare b = (b.compare a).map Ordering.swap := by
  cases a with
  | notANumber => cases b <;> rfl
  | infinity s =>
    cases b with
    | infinity t => exact congrArg some (compare_sign_swap s t)
    | notANumber | zero | finite => cases s <;> rfl
  | zero s =>
    cases b with
    | notANumber | zero => rfl
    | infinity t => cases t <;> rfl
    | finite t n f hn => cases t <;> rfl
  | finite s m e hm =>
    cases b with
    | notANumber => rfl
    | infinity t | zero t => cases s <;> cases t <;> rfl
    | finite t n f hn =>
      cases s with
      | negative =>
        cases t with
        | negative => exact congrArg (fun o => some o.swap) (then_compare_swap m n e f)
        | positive => rfl
      | positive =>
        cases t with
        | negative => rfl
        | positive => exact congrArg some (then_compare_swap m n e f)

/-! ## Laws of order -/

variable {x y z : Float}

theorem beq_eq (x y : Float) : (x == y) = x.toModel.unpack.beq y.toModel.unpack := rfl

theorem beq_comm (x y : Float) : (x == y) = (y == x) := by
  rw [beq_eq, beq_eq, UnpackedFloat.beq, UnpackedFloat.beq, compare_swap]
  cases y.toModel.unpack.compare x.toModel.unpack with
  | none => rfl
  | some o => cases o <;> rfl

/-- At most one of `x < y` and `y < x`. -/
theorem lt_asymm (h : x < y) : ¬ y < x := by
  rw [lt_iff, UnpackedFloat.lt] at h ⊢
  rw [compare_swap, eq_of_beq h]
  decide

/-- A smaller number is not an equal one. -/
theorem beq_eq_false_of_lt (h : x < y) : (x == y) = false := by
  rw [lt_iff, UnpackedFloat.lt] at h
  rw [beq_eq, UnpackedFloat.beq, eq_of_beq h]
  rfl

/-- **NaN alone is unequal to itself.** -/
theorem isNaN_eq_false_iff : isNaN x = false ↔ (x == x) = true := by
  rw [isNaN, bne, Bool.not_eq_false']

/-- Equal numbers are numbers. -/
theorem isNaN_of_beq (h : (x == y) = true) : isNaN x = false := by
  rw [isNaN_eq_false_iff, Float.beq_self_iff]
  exact (Float.beq_iff_ne_nan_and_eq.mp h).1

/-- **Equality of numbers is transitive**: equal ones are the same up to the sign of zero. -/
theorem beq_trans (hxy : (x == y) = true) (hyz : (y == z) = true) : (x == z) = true := by
  obtain ⟨hx, -, hxy⟩ := Float.beq_iff_ne_nan_and_eq.mp hxy
  obtain ⟨-, hz, hyz⟩ := Float.beq_iff_ne_nan_and_eq.mp hyz
  have hzeros : (0 : Float) ≠ -0 := of_decide_eq_true rfl
  refine Float.beq_iff_ne_nan_and_eq.mpr ⟨hx, hz, ?_⟩
  rcases hxy with rfl | ⟨rfl, rfl⟩ | ⟨rfl, rfl⟩
  · exact hyz
  · rcases hyz with rfl | ⟨hy, -⟩ | ⟨-, rfl⟩
    · exact .inr (.inl ⟨rfl, rfl⟩)
    · exact absurd hy.symm hzeros
    · exact .inl rfl
  · rcases hyz with rfl | ⟨-, rfl⟩ | ⟨hy, -⟩
    · exact .inr (.inr ⟨rfl, rfl⟩)
    · exact .inl rfl
    · exact absurd hy hzeros

end ScriptTrace.Number

namespace ScriptTrace

namespace Value

variable {a b c : Value}

/-! ## Equality without conversion -/

/-- Strict equality is symmetric. -/
theorem strictEquals_comm (a b : Value) : a.strictEquals b = b.strictEquals a := by
  cases a with
  | undefined | null | globalThis => cases b <;> rfl
  | number x =>
    cases b with
    | number y => exact Number.beq_comm x y
    | undefined | null | bool | string | object | function | host | globalThis => rfl
  | bool | string | object | function | host =>
    cases b with
    | bool | string | object | function | host => first | rfl | exact decide_eq_decide.mpr eq_comm
    | undefined | null | number | globalThis => rfl

/-- Values that are equal without conversion are the same value, or equal numbers. -/
theorem eq_or_of_strictEquals (h : a.strictEquals b = true) :
    a = b ∨ ∃ x y, a = .number x ∧ b = .number y ∧ (x == y) = true := by
  cases a with
  | number x =>
    cases b with
    | number y => exact .inr ⟨x, y, rfl, rfl, h⟩
    | undefined | null | bool | string | object | function | host | globalThis => cases h
  | bool | string | object | function | host =>
    cases b with
    | bool | string | object | function | host =>
      first | cases h | exact .inl (congrArg _ (of_decide_eq_true h))
    | undefined | null | number | globalThis => cases h
  | undefined | null | globalThis => cases b <;> first | exact .inl rfl | cases h

/-- Whether a value is the number NaN. -/
def IsNaN (a : Value) : Prop := ∃ x, a = .number x ∧ Number.isNaN x = true

/-- Strict equality is reflexive but for what is no number. -/
theorem strictEquals_self (h : ¬ a.IsNaN) : a.strictEquals a = true := by
  cases a with
  | number x =>
    refine Number.isNaN_eq_false_iff.mp ?_
    exact Bool.eq_false_iff.mpr fun hx => h ⟨x, rfl, hx⟩
  | undefined | null | globalThis => rfl
  | bool | string | object | function | host => exact decide_eq_true rfl

/-- Values that are strictly equal are the same value. -/
theorem sameValue_of_strictEquals (h : a.strictEquals b = true) : a.sameValue b = true := by
  unfold sameValue
  split
  · exact Bool.or_eq_true_iff.mpr (.inr h)
  · exact h

/-- **The same value**: NaN twice, or equal without conversion. -/
theorem sameValue_iff : a.sameValue b = true ↔ (a.IsNaN ∧ b.IsNaN) ∨ a.strictEquals b = true := by
  refine ⟨fun h => ?_, ?_⟩
  · unfold sameValue at h
    split at h
    · rename_i x y
      rcases Bool.or_eq_true_iff.mp h with h | h
      · obtain ⟨hx, hy⟩ := Bool.and_eq_true_iff.mp h
        exact .inl ⟨⟨x, rfl, hx⟩, y, rfl, hy⟩
      · exact .inr h
    · exact .inr h
  · rintro (⟨⟨x, rfl, hx⟩, y, rfl, hy⟩ | h)
    · exact Bool.or_eq_true_iff.mpr (.inl (Bool.and_eq_true_iff.mpr ⟨hx, hy⟩))
    · exact sameValue_of_strictEquals h

/-- What is equal to something without conversion is not NaN. -/
theorem not_isNaN_of_strictEquals (h : a.strictEquals b = true) : ¬ a.IsNaN := by
  rintro ⟨x, rfl, hx⟩
  rcases eq_or_of_strictEquals h with rfl | ⟨x', y, hxx, -, hxy⟩
  · exact Bool.false_ne_true ((Number.isNaN_of_beq h).symm.trans hx)
  · cases hxx
    exact Bool.false_ne_true ((Number.isNaN_of_beq hxy).symm.trans hx)

/-- Strict equality is transitive. -/
theorem strictEquals_trans (hab : a.strictEquals b = true) (hbc : b.strictEquals c = true) :
    a.strictEquals c = true := by
  rcases eq_or_of_strictEquals hab with rfl | ⟨x, y, rfl, rfl, hxy⟩
  · exact hbc
  · rcases eq_or_of_strictEquals hbc with rfl | ⟨y', z, hy, rfl, hyz⟩
    · exact hab
    · cases hy
      exact Number.beq_trans hxy hyz

/-- **Being the same value is an equivalence.** -/
theorem sameValue_equivalence : Equivalence fun a b : Value => a.sameValue b = true where
  refl a := sameValue_iff.mpr <| (em a.IsNaN).imp (fun h => ⟨h, h⟩) strictEquals_self
  symm {a b} h := by
    rw [sameValue_iff, strictEquals_comm] at h
    exact sameValue_iff.mpr (h.imp_left And.symm)
  trans {a b c} hab hbc := by
    rw [sameValue_iff] at hab hbc ⊢
    rcases hab with ⟨ha, hb⟩ | hab
    · rcases hbc with ⟨-, hc⟩ | hbc
      · exact .inl ⟨ha, hc⟩
      · exact absurd hb (not_isNaN_of_strictEquals hbc)
    · rcases hbc with ⟨hb, -⟩ | hbc
      · rw [strictEquals_comm] at hab
        exact absurd hb (not_isNaN_of_strictEquals hab)
      · exact .inr (strictEquals_trans hab hbc)

/-- How many kinds a value may still be changed through. -/
def weight : Value → Nat
  | .object _ => 2
  | .bool _ | .string _ => 1
  | _ => 0

end Value

namespace Heap

variable {h : Heap} {limit : Nat} {a a' b b' : Value} {r : Bool}

/-! ## One conversion at a time -/

/-- **One conversion of one side.**  A boolean on the left goes first, then one on the right. -/
inductive Converts (h : Heap) (limit : Nat) : Value → Value → Value → Value → Prop
  | boolLeft {p : Bool} {b : Value} (hb : b.isNullish = false) :
    Converts h limit (.bool p) b (.number (if p then 1 else 0)) b
  | boolRight {a : Value} {q : Bool} (ha : a.isNullish = false) (hbool : ∀ p, a ≠ .bool p) :
    Converts h limit a (.bool q) a (.number (if q then 1 else 0))
  | textLeft {s : String} {y : Float} :
    Converts h limit (.string s) (.number y) (.number (Number.ofText s)) (.number y)
  | textRight {x : Float} {t : String} :
    Converts h limit (.number x) (.string t) (.number x) (.number (Number.ofText t))
  | objectNumber {i : ObjectId} {y : Float} :
    Converts h limit (.object i) (.number y) (.string (h.text limit (.object i))) (.number y)
  | objectText {i : ObjectId} {t : String} :
    Converts h limit (.object i) (.string t) (.string (h.text limit (.object i))) (.string t)
  | numberObject {x : Float} {j : ObjectId} :
    Converts h limit (.number x) (.object j) (.number x) (.string (h.text limit (.object j)))
  | textObject {s : String} {j : ObjectId} :
    Converts h limit (.string s) (.object j) (.string s) (.string (h.text limit (.object j)))

/-- **Equality with conversion**: nullish values are equal to one another and to nothing else; other
values are converted as long as a conversion applies, and what is left is compared without one. -/
inductive LooselyEquals (h : Heap) (limit : Nat) : Value → Value → Bool → Prop
  | nullish {a b : Value} (hab : (a.isNullish || b.isNullish) = true) :
    LooselyEquals h limit a b (a.isNullish && b.isNullish)
  | convert {a b a' b' : Value} {r : Bool} (hc : Converts h limit a b a' b')
    (hr : LooselyEquals h limit a' b' r) : LooselyEquals h limit a b r
  | same {a b : Value} (hab : (a.isNullish || b.isNullish) = false)
    (hnone : ∀ a' b', ¬ Converts h limit a b a' b') :
    LooselyEquals h limit a b (a.strictEquals b)

/-- **A conversion leaves a simpler pair**, so no row of them goes on without end. -/
theorem Converts.weight_lt (hc : Converts h limit a b a' b') :
    a'.weight + b'.weight < a.weight + b.weight := by
  cases hc with
  | boolLeft | textLeft | objectNumber | objectText =>
    exact Nat.add_lt_add_right (Nat.lt_succ_self _) _
  | boolRight | textRight | numberObject | textObject =>
    exact Nat.add_lt_add_left (Nat.lt_succ_self _) _

/-- Values that are compared to a nullish one are not converted. -/
theorem looseEquals_of_nullish (hab : (a.isNullish || b.isNullish) = true) :
    h.looseEquals limit a b = (a.isNullish && b.isNullish) := by
  rw [looseEquals, if_pos hab]

/-- A conversion does not change the answer. -/
theorem Converts.looseEquals_eq (hc : Converts h limit a b a' b') :
    h.looseEquals limit a b = h.looseEquals limit a' b' := by
  cases hc with
  | @boolLeft p b hb =>
    unfold looseEquals
    rw [hb]
    rfl
  | @boolRight a q ha =>
    unfold looseEquals
    rw [ha]
    cases a <;> rfl
  | textLeft | textRight | objectNumber | objectText | numberObject | textObject => rfl

/-- Without a conversion, values are compared as they are. -/
theorem looseEquals_of_not_converts (hab : (a.isNullish || b.isNullish) = false)
    (hnone : ∀ a' b', ¬ Converts h limit a b a' b') :
    h.looseEquals limit a b = a.strictEquals b := by
  obtain ⟨ha, hb⟩ := Bool.or_eq_false_iff.mp hab
  cases a with
  | undefined | null => cases ha
  | bool p => exact absurd (.boolLeft hb) (hnone _ _)
  | number x =>
    cases b with
    | undefined | null => cases hb
    | bool q => exact absurd (.boolRight ha nofun) (hnone _ _)
    | string t => exact absurd .textRight (hnone _ _)
    | object j => exact absurd .numberObject (hnone _ _)
    | number | function | host | globalThis => rfl
  | string s =>
    cases b with
    | undefined | null => cases hb
    | bool q => exact absurd (.boolRight ha nofun) (hnone _ _)
    | number y => exact absurd .textLeft (hnone _ _)
    | object j => exact absurd .textObject (hnone _ _)
    | string | function | host | globalThis => rfl
  | object i =>
    cases b with
    | undefined | null => cases hb
    | bool q => exact absurd (.boolRight ha nofun) (hnone _ _)
    | number y => exact absurd .objectNumber (hnone _ _)
    | string t => exact absurd .objectText (hnone _ _)
    | object | function | host | globalThis => rfl
  | function | host | globalThis =>
    cases b with
    | undefined | null => cases hb
    | bool q => exact absurd (.boolRight ha nofun) (hnone _ _)
    | number | string | object | function | host | globalThis => rfl

/-- Every two values have an answer. -/
theorem exists_looselyEquals (a b : Value) : ∃ r, LooselyEquals h limit a b r := by
  induction hn : a.weight + b.weight using Nat.strong_induction_on generalizing a b with
  | h n ih =>
    subst hn
    cases hab : a.isNullish || b.isNullish with
    | true => exact ⟨_, .nullish hab⟩
    | false =>
      by_cases hex : ∃ a' b', Converts h limit a b a' b'
      · obtain ⟨a', b', hc⟩ := hex
        obtain ⟨r, hr⟩ := ih _ hc.weight_lt a' b' rfl
        exact ⟨r, .convert hc hr⟩
      · exact ⟨_, .same hab fun a' b' hc => hex ⟨a', b', hc⟩⟩

/-- The rules of loose equality determine its answer. -/
theorem LooselyEquals.eq (hr : LooselyEquals h limit a b r) : r = h.looseEquals limit a b := by
  induction hr with
  | nullish hab => exact (looseEquals_of_nullish hab).symm
  | convert hc _ ih => exact ih.trans hc.looseEquals_eq.symm
  | same hab hnone => exact (looseEquals_of_not_converts hab hnone).symm

/-- **Conversions come to an end with one answer.** -/
theorem looselyEquals_iff : LooselyEquals h limit a b r ↔ r = h.looseEquals limit a b := by
  refine ⟨LooselyEquals.eq, ?_⟩
  rintro rfl
  obtain ⟨r, hr⟩ := @exists_looselyEquals h limit a b
  exact hr.eq ▸ hr

/-! ## Laws of equality with conversion -/

/-- The rules for the two sides are the same ones. -/
theorem looseEquals_comm (a b : Value) : h.looseEquals limit a b = h.looseEquals limit b a := by
  unfold looseEquals
  rw [Bool.or_comm, Bool.and_comm]
  generalize unboxBool a = x
  generalize unboxBool b = y
  split
  · rfl
  · cases x with
    | number x =>
      cases y with
      | number y => exact Number.beq_comm x y
      | string t => exact Number.beq_comm x _
      | object j => exact Number.beq_comm x _
      | undefined | null | bool | function | host | globalThis => rfl
    | string s =>
      cases y with
      | number y => exact Number.beq_comm _ y
      | string | object => exact decide_eq_decide.mpr eq_comm
      | undefined | null | bool | function | host | globalThis => rfl
    | object i =>
      cases y with
      | number y => exact Number.beq_comm _ y
      | string | object => exact decide_eq_decide.mpr eq_comm
      | undefined | null | bool | function | host | globalThis => rfl
    | undefined | null | bool | function | host | globalThis =>
      cases y <;> exact Value.strictEquals_comm _ _

/-- Values that are equal without conversion are equal with it. -/
theorem looseEquals_of_strictEquals (hab : a.strictEquals b = true) :
    h.looseEquals limit a b = true := by
  rcases Value.eq_or_of_strictEquals hab with rfl | ⟨x, y, rfl, rfl, hxy⟩
  · cases a with
    | bool p =>
      cases p with
      | false => exact (rfl : ((0 : Float) == 0) = true)
      | true => exact (rfl : ((1 : Float) == 1) = true)
    | undefined | null | globalThis => rfl
    | number | string | object | function | host => exact hab
  · exact hxy

/-- **Every value but NaN is equal to itself.** -/
theorem looseEquals_self_eq_false_iff : h.looseEquals limit a a = false ↔ a.IsNaN := by
  refine ⟨fun hfalse => ?_, ?_⟩
  · by_contra hnan
    rw [looseEquals_of_strictEquals (Value.strictEquals_self hnan)] at hfalse
    cases hfalse
  · rintro ⟨x, rfl, hx⟩
    rw [Number.isNaN, bne, Bool.not_eq_true'] at hx
    exact hx

/-- **Nullish values are equal to nullish values only.** -/
theorem looseEquals_nullish (ha : a.isNullish = true) (b : Value) :
    h.looseEquals limit a b = b.isNullish := by
  rw [looseEquals_of_nullish (by rw [ha, Bool.true_or]), ha, Bool.true_and]

/-! ## Laws of order -/

/-- Two texts that trade places are ordered the other way round. -/
theorem textOrder_swap (s t : String) :
    (if s < t then .lt else if s = t then .eq else .gt : Ordering) =
      (if t < s then .lt else if t = s then .eq else .gt : Ordering).swap := by
  rcases lt_trichotomy s t with hlt | rfl | hgt
  · rw [if_pos hlt, if_neg (lt_asymm hlt), if_neg hlt.ne']
    rfl
  · rw [if_neg (lt_irrefl s), if_pos rfl]
    rfl
  · rw [if_neg (lt_asymm hgt), if_neg hgt.ne', if_pos hgt]
    rfl

/-- Two numbers that trade places are ordered the other way round, if they are ordered at all. -/
theorem numberOrder_swap (x y : Float) :
    (if x < y then some .lt else if x == y then some .eq else if y < x then some .gt else none :
      Option Ordering) =
    (if y < x then some .lt else if y == x then some .eq else if x < y then some .gt else none :
      Option Ordering).map Ordering.swap := by
  by_cases hlt : x < y
  · have hbeq : ¬ (y == x) = true := by
      rw [Number.beq_comm, Number.beq_eq_false_of_lt hlt]
      exact Bool.false_ne_true
    rw [if_pos hlt, if_neg (Number.lt_asymm hlt), if_neg hbeq, if_pos hlt]
    rfl
  · rw [if_neg hlt, if_neg hlt, Number.beq_comm]
    by_cases hgt : y < x
    · rw [if_pos hgt, if_pos hgt, Number.beq_eq_false_of_lt hgt]
      rfl
    · rw [if_neg hgt, if_neg hgt]
      split <;> rfl

/-- Values of which one is no text are compared as numbers. -/
theorem compare_of_not_texts (hne : ∀ s t, a = .string s → b ≠ .string t) :
    h.compare limit a b =
      (if h.number limit a < h.number limit b then some .lt
       else if h.number limit a == h.number limit b then some .eq
       else if h.number limit b < h.number limit a then some .gt else none) := by
  cases a with
  | string s =>
    cases b with
    | string t => exact absurd rfl (hne s t rfl)
    | undefined | null | bool | number | object | function | host | globalThis => rfl
  | undefined | null | bool | number | object | function | host | globalThis => rfl

/-- **Turned around, two values compare the other way**: texts by their characters, all others as
numbers. -/
theorem compare_swap (a b : Value) :
    h.compare limit a b = (h.compare limit b a).map Ordering.swap := by
  by_cases htexts : ∃ s t, a = .string s ∧ b = .string t
  · obtain ⟨s, t, rfl, rfl⟩ := htexts
    exact congrArg some (textOrder_swap s t)
  · rw [compare_of_not_texts fun s t ha hb => htexts ⟨s, t, ha, hb⟩,
      compare_of_not_texts fun s t hb ha => htexts ⟨t, s, ha, hb⟩]
    exact numberOrder_swap _ _

end Heap

namespace Exec

variable {m m₁ m₂ : Machine} {a b : Value} {line : Nat}

/-- What an operator of order answers. -/
theorem ordered_eq (a b : Value) (holds : Ordering → Bool) (m : Machine) :
    ordered a b holds m =
      .ok (.bool ((m.heap.compare m.limits.maxLength a b).any holds)) m := rfl

/-- An operator of order and the opposite one with its sides exchanged are the same. -/
theorem ordered_swap (a b : Value) (holds : Ordering → Bool) :
    ordered a b holds = ordered b a fun o => holds o.swap := by
  funext m
  rw [ordered_eq, ordered_eq, Heap.compare_swap]
  cases m.heap.compare m.limits.maxLength b a <;> rfl

/-- Less is greater the other way round. -/
theorem less_eq_greater (a b : Value) (line : Nat) :
    binary .less a b line = binary .greater b a line := by
  have hswap : (fun o : Ordering => o.swap.isLT) = Ordering.isGT := by
    funext o
    cases o <;> rfl
  exact (ordered_swap a b Ordering.isLT).trans (congrArg (ordered b a) hswap)

/-- At most is at least the other way round. -/
theorem atMost_eq_atLeast (a b : Value) (line : Nat) :
    binary .atMost a b line = binary .atLeast b a line := by
  have hswap : (fun o : Ordering => o.swap.isLE) = Ordering.isGE := by
    funext o
    cases o <;> rfl
  exact (ordered_swap a b Ordering.isLE).trans (congrArg (ordered b a) hswap)

/-- **Of two values one at most is less than the other.** -/
theorem less_asymm (hab : binary .less a b line m = .ok (.bool true) m₁) :
    binary .less b a line m ≠ .ok (.bool true) m₂ := by
  intro hba
  change ordered a b Ordering.isLT m = _ at hab
  change ordered b a Ordering.isLT m = _ at hba
  rw [ordered_eq, Heap.compare_swap] at hab
  rw [ordered_eq] at hba
  cases hcompare : m.heap.compare m.limits.maxLength b a with
  | none =>
    rw [hcompare] at hba
    cases hba
  | some o =>
    rw [hcompare] at hab hba
    cases o with
    | lt => cases hab
    | eq | gt => cases hba

end Exec

/-- **The laws of equality and order**, on every heap.  Conversions come to an end, with one answer
that does not depend on the side; equality without conversion implies equality with it and being the
same value, which is an equivalence; every value but NaN is equal to itself, and a nullish value to
nullish ones only.  `a < b` is `b > a` and `a <= b` is `b >= a`, and not both `a < b` and
`b < a`. -/
theorem equality_laws (h : Heap) (limit : Nat) :
    (∀ a b, (∃! r, h.LooselyEquals limit a b r) ∧
      h.LooselyEquals limit a b (h.looseEquals limit a b)) ∧
    (∀ a b, h.looseEquals limit a b = h.looseEquals limit b a) ∧
    (∀ a b : Value, a.strictEquals b = true →
      h.looseEquals limit a b = true ∧ a.sameValue b = true) ∧
    (Equivalence fun a b : Value => a.sameValue b = true) ∧
    (∀ a, h.looseEquals limit a a = false ↔ ∃ x, a = .number x ∧ Number.isNaN x = true) ∧
    (∀ b, h.looseEquals limit .null b = b.isNullish ∧
      h.looseEquals limit .undefined b = b.isNullish) ∧
    ∀ (a b : Value) (line : Nat),
      Exec.binary .less a b line = Exec.binary .greater b a line ∧
      Exec.binary .atMost a b line = Exec.binary .atLeast b a line ∧
      ∀ m m₁ m₂, Exec.binary .less a b line m = .ok (.bool true) m₁ →
        Exec.binary .less b a line m ≠ .ok (.bool true) m₂ := by
  refine ⟨fun a b => ⟨⟨_, Heap.looselyEquals_iff.mpr rfl, fun _ => Heap.LooselyEquals.eq⟩,
      Heap.looselyEquals_iff.mpr rfl⟩,
    Heap.looseEquals_comm,
    fun a b hab => ⟨Heap.looseEquals_of_strictEquals hab, Value.sameValue_of_strictEquals hab⟩,
    Value.sameValue_equivalence, fun a => Heap.looseEquals_self_eq_false_iff,
    fun b => ⟨Heap.looseEquals_nullish rfl b, Heap.looseEquals_nullish rfl b⟩,
    fun a b line => ⟨Exec.less_eq_greater a b line, Exec.atMost_eq_atLeast a b line,
      fun m m₁ m₂ => Exec.less_asymm⟩⟩

/-- The array `[[1]]`. -/
def Heap.nestedOne : Heap :=
  ⟨#[⟨.array #[.object 1], none, none, false⟩, ⟨.array #[.number 1], none, none, false⟩]⟩

/-- `[[1]]` is equal to `true` from either side, by way of `1` and `"1"`, and to itself; `1` is less
than the text `"2"`, which is not less than `1`. -/
theorem equality_laws_nestedOne :
    Heap.nestedOne.LooselyEquals 100 (.object 0) (.bool true) true ∧
    Heap.nestedOne.looseEquals 100 (.bool true) (.object 0) = true ∧
    (Value.strictEquals (.object 0) (.object 0) = true ∧
      Heap.nestedOne.looseEquals 100 (.object 0) (.object 0) = true) ∧
    Exec.binary .less (.number 1) (.string "2") 1 (.initial .default) =
      .ok (.bool true) (.initial .default) ∧
    Exec.binary .less (.string "2") (.number 1) 1 (.initial .default) ≠
      .ok (.bool true) (.initial .default) := by
  obtain ⟨hrelation, hcomm, hstrict, -, -, -, horder⟩ := equality_laws Heap.nestedOne 100
  have heq : Heap.nestedOne.looseEquals 100 (.object 0) (.bool true) = true := by decide +kernel
  have hsame : Value.strictEquals (.object 0) (.object 0) = true := rfl
  have hcompare : (Machine.initial .default).heap.compare
      (Machine.initial .default).limits.maxLength (.number 1) (.string "2") = some .lt := by
    decide +kernel
  have hless : Exec.binary .less (.number 1) (.string "2") 1 (.initial .default) =
      .ok (.bool true) (.initial .default) := by
    refine (Exec.ordered_eq _ _ _ _).trans ?_
    rw [hcompare]
    rfl
  exact ⟨heq ▸ (hrelation (.object 0) (.bool true)).2, (hcomm _ _).trans heq,
    ⟨hsame, (hstrict _ _ hsame).1⟩, hless, (horder (.number 1) (.string "2") 1).2.2 _ _ _ hless⟩

end ScriptTrace
