import ScriptTrace.Proofs.Closed
import ScriptTrace.Proofs.Number.Quotient

/-!
# Proofs/Random — the stream of random numbers

    seed ──▸ s₁ ──▸ s₂ ──▸ ⋯        one state for each number drawn
             │      │
             ▾      ▾
          k₁/2⁵³  k₂/2⁵³

A state is followed by its sum, without carry, with a shifted copy, three times over.  A shift
respects such sums and leaves no word but `0` as it is, so each of the three sums tells the word
(`xor_map_injective`), and so does the next state: no state but `0` leads to `0`, and the stream
stays away from it.  The number of a state is its upper 53 bits, multiplied, over `2 ^ 53`, which a
number holds without rounding.
-/

namespace ScriptTrace

/-! ## Words and shifted copies -/

section

variable {x k : UInt64}

/-- A word that is moved to the right stays as it is only if it has no bit. -/
theorem eq_zero_of_shiftRight (hk : 0 < k.toNat % 64) (h : x >>> k = x) : x = 0 := by
  have hquotient : x.toNat / 2 ^ (k.toNat % 64) = x.toNat := by
    rw [← Nat.shiftRight_eq_div_pow, ← UInt64.toNat_shiftRight, h]
  refine UInt64.toNat_inj.mp ((Nat.div_eq_self.mp hquotient).resolve_right ?_)
  exact (Nat.one_lt_two_pow hk.ne').ne'

/-- A word that is moved to the left stays as it is only if it has no bit: the factor less one is
odd, so that the word is a multiple of `2 ^ 64`. -/
theorem eq_zero_of_shiftLeft (hk : 0 < k.toNat % 64) (h : x <<< k = x) : x = 0 := by
  have hmoved : x.toNat * 2 ^ (k.toNat % 64) % 2 ^ 64 = x.toNat := by
    rw [← Nat.shiftLeft_eq, ← UInt64.toNat_shiftLeft, h]
  generalize k.toNat % 64 = places at hk hmoved
  have hmultiple : 2 ^ 64 ∣ x.toNat * (2 ^ places - 1) := by
    have hsame : x.toNat ≡ x.toNat * 2 ^ places [MOD 2 ^ 64] :=
      (Nat.mod_eq_of_lt x.toNat_lt).trans hmoved.symm
    rw [Nat.mul_sub_one]
    exact (Nat.modEq_iff_dvd' (Nat.le_mul_of_pos_right _ (Nat.two_pow_pos places))).mp hsame
  have hodd : Odd (2 ^ places - 1) :=
    Nat.Even.sub_odd Nat.one_le_two_pow (Nat.even_pow.mpr ⟨even_two, hk.ne'⟩) odd_one
  have hcoprime : Nat.Coprime (2 ^ 64) (2 ^ places - 1) :=
    .pow_left 64 (Nat.coprime_two_left.mpr hodd)
  have hnone : x.toNat = 0 :=
    Nat.eq_zero_of_dvd_of_lt (hcoprime.dvd_of_dvd_mul_right hmultiple) x.toNat_lt
  exact UInt64.toNat_inj.mp hnone

/-- **A word is told by its sum with an image of it**, if the map respects sums without carry and
leaves no word but `0` as it is. -/
theorem xor_map_injective {g : UInt64 → UInt64} (hxor : ∀ x y, g (x ^^^ y) = g x ^^^ g y)
    (hfixed : ∀ x, g x = x → x = 0) : Function.Injective fun x => x ^^^ g x := by
  intro x y h
  have hsum : x ^^^ g x = y ^^^ g y := h
  -- The difference of the two words is one that the map leaves as it is.
  refine UInt64.xor_eq_zero_iff.mp (hfixed _ ?_)
  calc g (x ^^^ y) = x ^^^ (x ^^^ g x) ^^^ g y := by
        rw [hxor, ← UInt64.xor_assoc x x, UInt64.xor_self, UInt64.zero_xor]
    _ = x ^^^ (y ^^^ g y) ^^^ g y := by rw [hsum]
    _ = x ^^^ y := by rw [UInt64.xor_assoc, UInt64.xor_assoc, UInt64.xor_self, UInt64.xor_zero]

theorem xor_shiftRight_injective (hk : 0 < k.toNat % 64) :
    Function.Injective fun x : UInt64 => x ^^^ (x >>> k) :=
  xor_map_injective (fun _ _ => UInt64.shiftRight_xor) fun _ => eq_zero_of_shiftRight hk

theorem xor_shiftLeft_injective (hk : 0 < k.toNat % 64) :
    Function.Injective fun x : UInt64 => x ^^^ (x <<< k) :=
  xor_map_injective (fun _ _ => UInt64.shiftLeft_xor) fun _ => eq_zero_of_shiftLeft hk

end

/-! ## States -/

/-- **A state is told by the next one.** -/
theorem nextRandom_injective : Function.Injective nextRandom :=
  (xor_shiftRight_injective (k := 27) (by decide)).comp
    ((xor_shiftLeft_injective (k := 25) (by decide)).comp
      (xor_shiftRight_injective (k := 12) (by decide)))

theorem nextRandom_eq_zero {state : UInt64} : nextRandom state = 0 ↔ state = 0 :=
  nextRandom_injective.eq_iff' rfl

/-- The state of the stream once some numbers are drawn. -/
def randomState (n : Nat) : UInt64 := nextRandom^[n] Machine.randomSeed

theorem nextRandom_randomState (n : Nat) : nextRandom (randomState n) = randomState (n + 1) :=
  (Function.iterate_succ_apply' ..).symm

/-- **The state is never zero.** -/
theorem randomState_ne_zero (n : Nat) : randomState n ≠ 0 := by
  induction n with
  | zero => decide
  | succ n ih =>
    rw [← nextRandom_randomState]
    exact mt nextRandom_eq_zero.mp ih

/-! ## Numbers -/

/-- **A number is `k / 2 ^ 53`**, without rounding, and lies in `[0, 1)`. -/
structure IsProperFraction (x : Float) (k : Nat) : Prop where
  lt : k < 2 ^ 53
  value : (Number.binary x).value? = some (k / 2 ^ 53 : ℚ)
  nonneg : 0 ≤ x
  lt_one : x < 1

open Number in
/-- A quotient by 2⁵³ is exact and below one. -/
theorem isProperFraction_div {k : Nat} (hk : k < 2 ^ 53) :
    IsProperFraction (Float.ofNat k / Float.ofNat (2 ^ 53)) k := by
  rcases Nat.eq_zero_or_pos k with rfl | hpos
  · rw [(isCount_ofNat (Nat.two_pow_pos 53).ne' le_rfl).zero_div]
    have hzero : binary (Float.ofNat 0) = .finite false 0 leastExponent := rfl
    refine ⟨hk, ?_, by decide, by decide⟩
    rw [hzero, Binary.value?, Nat.cast_zero, mul_zero, zero_mul, zero_div]
  · have hcount := isCount_ofNat hpos.ne' hk.le
    obtain ⟨m, e, hm, hunpack, hvalue⟩ := hcount.unpack_div_two_pow hk (by decide) le_rfl
    have hless : (m * 2 ^ e : ℚ) < 1 := by
      rw [hvalue, div_lt_one (by positivity)]
      exact mod_cast hk
    exact ⟨hk, (value_of_unpack hunpack).trans (congrArg some hvalue), zero_le_of_unpack hunpack,
      lt_one_of_unpack hm hunpack hless⟩

/-- **The number of a state** is a count of 53 bits over `2 ^ 53`. -/
theorem isProperFraction_randomValue (state : UInt64) :
    IsProperFraction (randomValue state) ((state * Machine.randomSeed) >>> 11).toNat := by
  refine isProperFraction_div ?_
  rw [UInt64.toNat_shiftRight, Nat.shiftRight_eq_div_pow]
  exact Nat.div_lt_of_lt_mul (state * Machine.randomSeed).toNat_lt

/-! ## Drawing -/

namespace Exec

/-- Draws some numbers, one after another. -/
def draw : Nat → Exec (List Float)
  | 0 => return []
  | n + 1 => do
    let x ← random
    return x :: (← draw n)

/-- What is drawn from a machine depends on the state of its stream alone, which is all that
changes. -/
theorem draw_eq (n : Nat) (m : Machine) :
    draw n m = .ok ((List.range n).map fun i => randomValue (nextRandom^[i + 1] m.random))
      { m with random := nextRandom^[n] m.random } := by
  induction n generalizing m with
  | zero => rfl
  | succ n ih =>
    have hfirst : random m = .ok (randomValue (nextRandom m.random))
        { m with random := nextRandom m.random } := rfl
    refine (bind_of_ok hfirst).trans ((bind_of_ok (ih _)).trans ?_)
    rw [List.range_succ_eq_map, List.map_cons, List.map_map]
    rfl

/-- To convert arguments to numbers always succeeds. -/
theorem numbers_ok (vs : List Value) (m : Machine) : ∃ xs, numbers vs m = .ok xs m := by
  induction vs with
  | nil => exact ⟨[], rfl⟩
  | cons v vs ih =>
    obtain ⟨xs, hxs⟩ := ih
    have hfirst : number v m = .ok (m.heap.number m.limits.maxLength v) m := rfl
    exact ⟨_, (bind_of_ok hfirst).trans (bind_of_ok hxs)⟩

/-- A call of `Math.random` draws one number, whatever its arguments are. -/
theorem callMath_random (args : List Value) (m : Machine) :
    callMath .random args m = .ok (.number (randomValue (nextRandom m.random)))
      { m with random := nextRandom m.random } := by
  obtain ⟨xs, hxs⟩ := numbers_ok args m
  exact bind_of_ok hxs

end Exec

/-! ## The stream of a run -/

section

variable {limits : Limits} {l : Layer} {W : World} {m m' : Machine} {f : Option Fault}

/-- A single change draws one number or none. -/
theorem Effect.random_cases (h : Effect l W m f m') :
    m'.random = m.random ∨ m'.random = nextRandom m.random := by
  cases h with
  | random => exact .inr rfl
  | _ => exact .inl rfl

theorem CallEffect.random_eq (h : CallEffect W m f m') : m'.random = m.random := by
  cases h
  all_goals rfl

/-- Every machine of a run has a state of the stream. -/
theorem Reachable.exists_random_eq (h : Reachable limits m) : ∃ n, m.random = randomState n := by
  induction h with
  | initial => exact ⟨0, rfl⟩
  | effect _ h ih =>
    obtain ⟨n, hn⟩ := ih
    rcases h.random_cases with hstill | hdrawn
    · exact ⟨n, hstill.trans hn⟩
    · exact ⟨n + 1, by rw [hdrawn, hn, nextRandom_randomState]⟩
  | call _ h ih =>
    obtain ⟨n, hn⟩ := ih
    exact ⟨n, h.random_eq.trans hn⟩
  | stopped _ _ ih => exact ih

end

/-- **The stream of random numbers never degenerates.**  The next state is a bijection of the words
of 64 bits that takes `0` alone to `0`.  However many numbers are drawn from a machine at its start,
the state is not `0`; the numbers depend on nothing else, and each is `k / 2 ^ 53` for a
`k < 2 ^ 53`.  A machine that a run can lead to has a state of this stream, and `Math.random` draws
the next number. -/
theorem random_never_degenerates (limits : Limits) :
    (Function.Bijective nextRandom ∧ ∀ state, nextRandom state = 0 ↔ state = 0) ∧
    (∀ n, randomState n ≠ 0 ∧ ∃ xs,
      Exec.draw n (.initial limits) =
        .ok xs { Machine.initial limits with random := randomState n } ∧
      xs = (List.range n).map (fun i => randomValue (randomState (i + 1))) ∧
      ∀ x ∈ xs, ∃ k, IsProperFraction x k) ∧
    ∀ {m : Machine}, Reachable limits m → ∃ n, m.random = randomState n ∧
      ∀ (ev : Evaluator) (args : List Value) (line : Nat), ∃ x k,
        ev.callHost (.math .random) args line m =
          .ok (.number x) { m with random := randomState (n + 1) } ∧
        x = randomValue (randomState (n + 1)) ∧ IsProperFraction x k := by
  refine ⟨⟨Finite.injective_iff_bijective.mp nextRandom_injective, fun _ => nextRandom_eq_zero⟩,
    fun n => ⟨randomState_ne_zero n, _, Exec.draw_eq n _, rfl, ?_⟩, ?_⟩
  · intro x hx
    obtain ⟨i, -, rfl⟩ := List.mem_map.mp hx
    exact ⟨_, isProperFraction_randomValue _⟩
  · intro m hm
    obtain ⟨n, hn⟩ := hm.exists_random_eq
    refine ⟨n, hn, fun ev args line => ⟨_, _, ?_, rfl, isProperFraction_randomValue _⟩⟩
    rw [← nextRandom_randomState, ← hn]
    exact Exec.callMath_random args m

/-- The program `Math.random()`. -/
def drawingUse : Syntax.Program :=
  [.mk (.expr (.mk (.call (.mk (.member (.mk (.name "Math") ⟨1, 1⟩) (.static "random") false)
    ⟨1, 5⟩) [] false) ⟨1, 12⟩)) ⟨1, 1⟩ "Math.random()"]

/-- Behind a program that has drawn a number another one is drawn. -/
theorem drawingUse_draws_again :
    let m := finalMachine .default 9 drawingUse
    Reachable .default m ∧ m.random = randomState 1 ∧ ∃ x k m',
      (Evaluator.bounded 9).callHost (.math .random) [] 1 m = .ok (.number x) m' ∧
      m'.random ≠ 0 ∧ IsProperFraction x k := by
  have hm := reachable_finalMachine .default drawingUse 9
  obtain ⟨-, hdraw, hrun⟩ := random_never_degenerates .default
  obtain ⟨n, -, hcall⟩ := hrun hm
  obtain ⟨x, k, hx, -, hk⟩ := hcall (.bounded 9) [] 1
  exact ⟨hm, by decide +kernel, x, k, _, hx, (hdraw (n + 1)).1, hk⟩

end ScriptTrace
