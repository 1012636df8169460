import Mathlib.Tactic.IntervalCases
import ScriptTrace.Proofs.Grammar.First
import ScriptTrace.Syntax.Reader

/-!
# Proofs/Syntax/First — how the phrases of the language start

Every rule takes a character, and none starts with a blank.  The rules have ranks, so that none is
followed deeper than there is text ahead (`follow_ne_exhausted`).
-/

namespace ScriptTrace.Syntax

open Grammar

variable {α : Type} {fuel : Nat} {c n : Cursor} {x : Char} {rest : List Char}

theorem Rule.consumes_phrase (r : Rule α) : r.phrase.consumes = true := by
  cases r <;> decide

/-- The characters with the property White_Space. -/
def blanks : List Char :=
  ['\t', '\n', '\x0b', '\x0c', '\r', ' ', '\x85', '\xa0', '\u1680', '\u2000', '\u2001', '\u2002',
    '\u2003', '\u2004', '\u2005', '\u2006', '\u2007', '\u2008', '\u2009', '\u200a', '\u2028',
    '\u2029', '\u202f', '\u205f', '\u3000']

/-- The characters that are blank, listed. -/
theorem mem_blanks {x : Char} (h : Text.isBlank x = true) : x ∈ blanks := by
  simp only [Text.isBlank, Bool.or_eq_true, Bool.and_eq_true, decide_eq_true_eq] at h
  rw [← Char.ofNat_toNat x]
  generalize x.toNat = n at h
  rcases h with (((((((((h | rfl) | rfl) | rfl) | rfl) | h) | rfl) | rfl) | rfl) | rfl) | rfl
  case inl.inl.inl.inl.inl.inl.inl.inl.inl.inl | inl.inl.inl.inl.inl.inr =>
    obtain ⟨hlow, hhigh⟩ := h
    interval_cases n <;> decide
  all_goals decide

theorem Rule.mayOpen_blank (r : Rule α) {x : Char} (hx : x ∈ blanks) :
    r.phrase.mayOpen (fun _ => false) x = false :=
  Form.mayOpen_eq_false hx (by cases r <;> decide +kernel)

/-! ## Ranks -/

/-- The rules that a rule may call where it starts have a smaller rank. -/
def Rule.rank : {α : Type} → Rule α → Nat
  | _, .statement => 3
  | _, .expression => 2
  | _, .assignment => 1
  | _, _ => 0

theorem Rule.rank_lt (r : Rule α) : r.rank < rulesPerPlace := by cases r <;> decide

theorem Rule.opensBelow_rank (r : Rule α) : r.phrase.opensBelow Rule.rank r.rank = true := by
  cases r <;> decide

/-- The grammar with a bound on how many rules are open. -/
abbrev follow (fuel : Nat) {α : Type} (r : Rule α) (s : Spacing) (c : Cursor) : Attempt α :=
  readRule Rule.phrase fuel r s c

theorem advancing_follow (fuel : Nat) : Advancing (follow fuel) :=
  advancing_readRule Rule.consumes_phrase fuel

theorem result_rule_succ (r : Rule α) (s : Spacing) :
    (Form.rule r).result (follow (fuel + 1)) s c = r.phrase.result (follow fuel) s c := rfl

/-- With enough fuel for the rest of the text no rule gives up. -/
theorem follow_ne_exhausted {r : Rule α} {s : Spacing}
    (h : rulesPerPlace * c.rest.length + r.rank < fuel) :
    (follow fuel r s c).outcome ≠ .exhausted :=
  readRule_ne_exhausted Rule.consumes_phrase Rule.rank_lt Rule.opensBelow_rank h

/-- A phrase is not followed too deep either. -/
theorem result_ne_exhausted {f : Phrase α} {bound : Nat}
    (hbelow : f.opensBelow Rule.rank bound = true) {s : Spacing}
    (h : rulesPerPlace * c.rest.length + bound ≤ fuel) :
    f.result (follow fuel) s c ≠ .exhausted := by
  refine Form.result_ne_exhausted (advancing_follow fuel) (fun r s n hn => ?_) f (le_refl c)
    fun _ => hbelow
  refine follow_ne_exhausted ?_
  rcases hn with hn | ⟨rfl, hr⟩
  · have hlength := Cursor.length_rest_lt hn
    have hr := r.rank_lt
    rw [rulesPerPlace] at h hr ⊢
    omega
  · omega

/-- **A phrase that a character does not open fails in front of it.** -/
theorem result_failed_of_not_mayOpen {rules : {α : Type} → Rule α → Bool}
    (hclosed : ∀ {α : Type} (r : Rule α), rules r = false → r.phrase.mayOpen rules x = false)
    (hrest : c.rest = x :: rest) (hsolid : c.IsSolid) {f : Phrase α}
    (hf : f.mayOpen rules x = false) (hconsumes : f.consumes = true) {bound : Nat}
    (hbelow : f.opensBelow Rule.rank bound = true) {s : Spacing}
    (h : rulesPerPlace * c.rest.length + bound ≤ fuel) : f.result (follow fuel) s c = .failed := by
  cases hc : f.result (follow fuel) s c with
  | matched v n =>
    have hlt := Form.lt_of_matched (advancing_follow fuel) hc hconsumes
    have hn := f.eq_of_not_mayOpen (advancing_follow fuel) hrest hsolid
      (fun r s v n hr => readRule_ne_matched Rule.consumes_phrase hclosed hrest hsolid fuel hr)
      hf hc
    exact absurd (hn ▸ hlt) (lt_irrefl c)
  | failed => rfl
  | exhausted => exact absurd hc (result_ne_exhausted hbelow h)

/-- At the end of a text there is nothing to read. -/
theorem follow_end {r : Rule α} {s : Spacing} (hrest : c.rest = [])
    (h : r.rank < fuel) : (follow fuel r s c).outcome = .failed := by
  cases hc : (follow fuel r s c).outcome with
  | matched v n =>
    have hlength := Cursor.length_rest_lt (advancing_follow fuel r s c v n hc)
    simp [hrest] at hlength
  | failed => rfl
  | exhausted => exact absurd hc (follow_ne_exhausted (by simpa [hrest] using h))

/-- No rule starts with a blank. -/
theorem follow_blank {r : Rule α} {s : Spacing} {v : α} (hrest : c.rest = x :: rest)
    (hsolid : c.IsSolid) (hx : Text.isBlank x = true) :
    (follow fuel r s c).outcome ≠ .matched v n :=
  readRule_ne_matched Rule.consumes_phrase (fun r _ => r.mayOpen_blank (mem_blanks hx)) hrest
    hsolid fuel rfl

end ScriptTrace.Syntax
