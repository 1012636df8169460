import Mathlib.Data.Prod.Lex
import ScriptTrace.Grammar.Form

/-!
# Proofs/Grammar/Cursor — places in a text and the blanks between tokens

Positions are ordered as a text is read, and so are the cursors of one text: `c ≤ n` if `n` is
reached from `c` by going on.  A cursor is *solid* if no blank stands at it; skipping blanks leads
to a solid cursor.
-/

namespace ScriptTrace.Grammar

/-! ## Positions in the order of reading -/

/-- Line by line, each from left to right. -/
instance : LinearOrder Position :=
  LinearOrder.lift' (fun p : Position => toLex (p.line, p.column)) fun p q h => by
    obtain ⟨hline, hcolumn⟩ := Prod.mk.inj (toLex_inj.mp h)
    cases p
    cases q
    simp_all

theorem Position.lt_iff {p q : Position} :
    p < q ↔ p.line < q.line ∨ p.line = q.line ∧ p.column < q.column :=
  Prod.Lex.toLex_lt_toLex

theorem Position.lt_step (p : Position) (x : Char) : p < p.step x := by
  rw [Position.lt_iff, Position.step]
  split <;> simp

namespace Cursor

variable {c m n : Cursor}

/-! ## Going on -/

theorem step_of_nil (h : c.rest = []) : c.step = c := by simp [step, h]

theorem step_of_cons {x : Char} {rest : List Char} (h : c.rest = x :: rest) :
    c.step = ⟨rest, c.offset + 1, c.position.step x⟩ := by simp [step, h]

@[simp] theorem rest_step (c : Cursor) : c.step.rest = c.rest.tail := by
  cases h : c.rest with
  | nil => simp [step_of_nil h, h]
  | cons x rest => simp [step_of_cons h]

@[simp] theorem advance_zero (c : Cursor) : c.advance 0 = c := rfl

theorem advance_succ (c : Cursor) (k : Nat) : c.advance (k + 1) = c.step.advance k := rfl

theorem advance_add (c : Cursor) (j k : Nat) : c.advance (j + k) = (c.advance j).advance k := by
  induction j generalizing c with
  | zero => simp
  | succ j ih => rw [Nat.succ_add, advance_succ, advance_succ, ih]

@[simp] theorem rest_advance (c : Cursor) (k : Nat) : (c.advance k).rest = c.rest.drop k := by
  induction k generalizing c with
  | zero => rfl
  | succ k ih => simp [advance_succ, ih]

/-- Behind some characters the offset has grown by as many. -/
theorem offset_advance {k : Nat} (h : k ≤ c.rest.length) :
    (c.advance k).offset = c.offset + k := by
  induction k generalizing c with
  | zero => rfl
  | succ k ih =>
    obtain ⟨x, rest, hrest⟩ := List.exists_cons_of_length_pos (Nat.zero_lt_of_lt h)
    rw [advance_succ, ih (by simp_all), step_of_cons hrest]
    exact Nat.succ_add_eq_add_succ ..

/-- A place does not come before where it went on from. -/
theorem position_le_advance (c : Cursor) (k : Nat) : c.position ≤ (c.advance k).position := by
  induction k generalizing c with
  | zero => exact le_rfl
  | succ k ih =>
    refine le_trans ?_ (ih c.step)
    cases h : c.rest with
    | nil => rw [step_of_nil h]
    | cons x rest => rw [step_of_cons h]; exact (Position.lt_step _ x).le

/-- **A cursor further on in the same text.** -/
instance : PartialOrder Cursor where
  le c n := ∃ k ≤ c.rest.length, c.advance k = n
  le_refl c := ⟨0, Nat.zero_le _, rfl⟩
  le_trans := by
    rintro c _ _ ⟨j, hj, rfl⟩ ⟨k, hk, rfl⟩
    refine ⟨j + k, ?_, advance_add c j k⟩
    rw [rest_advance, List.length_drop] at hk
    omega
  le_antisymm := by
    rintro c _ ⟨j, hj, rfl⟩ ⟨k, hk, h⟩
    have hlength := congrArg (List.length ∘ rest) h
    simp only [Function.comp_apply, rest_advance, List.length_drop] at hlength hk
    obtain rfl : j = 0 := by omega
    rfl

theorem le_advance {k : Nat} (h : k ≤ c.rest.length) : c ≤ c.advance k := ⟨k, h, rfl⟩

theorem length_rest_le (h : c ≤ n) : n.rest.length ≤ c.rest.length := by
  obtain ⟨k, -, rfl⟩ := h
  simp

theorem length_rest_lt (h : c < n) : n.rest.length < c.rest.length := by
  obtain ⟨⟨k, hk, rfl⟩, hne⟩ := h
  have hpos : 0 < k := Nat.pos_of_ne_zero fun h0 => hne (by rw [h0]; exact le_refl c)
  rw [rest_advance, List.length_drop]
  omega

theorem position_le (h : c ≤ n) : c.position ≤ n.position := by
  obtain ⟨k, -, rfl⟩ := h
  exact position_le_advance c k

theorem le_step (c : Cursor) : c ≤ c.step := by
  cases h : c.rest with
  | nil => rw [step_of_nil h]
  | cons x rest => exact ⟨1, by simp [h], rfl⟩

theorem lt_step {x : Char} {rest : List Char} (h : c.rest = x :: rest) : c < c.step := by
  refine lt_of_le_of_ne (le_step c) fun heq => ?_
  have hlength := congrArg (List.length ∘ Cursor.rest) heq
  simp [h] at hlength

theorem lt_advance {k : Nat} (hpos : 0 < k) (h : k ≤ c.rest.length) : c < c.advance k := by
  refine lt_of_le_of_ne (le_advance h) fun heq => ?_
  have hlength := congrArg (List.length ∘ Cursor.rest) heq
  simp only [Function.comp_apply, rest_advance, List.length_drop] at hlength
  omega

/-- A later place has a later position. -/
theorem position_lt (h : c < n) : c.position < n.position := by
  obtain ⟨k, hk, rfl⟩ := h.le
  cases k with
  | zero => exact absurd h (lt_irrefl _)
  | succ k =>
    obtain ⟨x, rest, hrest⟩ := List.exists_cons_of_length_pos (Nat.zero_lt_of_lt hk)
    refine lt_of_lt_of_le ?_ (position_le_advance c.step k)
    rw [step_of_cons hrest]
    exact Position.lt_step _ x

/-- A place behind another one is known from the text that is left. -/
theorem eq_of_rest_eq {n' : Cursor} (h : c ≤ n) (h' : c ≤ n') (hrest : n.rest = n'.rest) :
    n = n' := by
  obtain ⟨j, hj, rfl⟩ := h
  obtain ⟨k, hk, rfl⟩ := h'
  have hlength := congrArg List.length hrest
  simp only [rest_advance, List.length_drop] at hlength
  rw [show j = k by omega]

/-- The text between two cursors, with what stands behind it. -/
theorem textTo_append (h : c ≤ n) : c.textTo n ++ n.rest = c.rest := by
  obtain ⟨k, hk, rfl⟩ := h
  rw [textTo, offset_advance hk, Nat.add_sub_cancel_left, rest_advance, List.take_append_drop]

theorem textTo_advance {w rest : List Char} (h : c.rest = w ++ rest) :
    c.textTo (c.advance w.length) = w := by
  rw [textTo, offset_advance (by simp [h]), Nat.add_sub_cancel_left, h, List.take_left]

/-- **The text from one place to another.** -/
structure Over (c : Cursor) (w : List Char) (n : Cursor) : Prop where
  rest_eq : c.rest = w ++ n.rest
  eq_advance : n = c.advance w.length

namespace Over

variable {w v : List Char} {x : Char}

theorem of_append {X : List Char} (h : c.rest = w ++ X) : c.Over w (c.advance w.length) :=
  ⟨by rw [rest_advance, h, List.drop_left], rfl⟩

theorem of_le (h : c ≤ n) : c.Over (c.textTo n) n := by
  have hrest := (textTo_append h).symm
  refine ⟨hrest, eq_of_rest_eq h (le_advance ?_) ?_⟩
  · rw [hrest, List.length_append]
    exact Nat.le_add_right ..
  · rw [rest_advance, hrest, List.drop_left]

/-- A text is two texts one behind the other. -/
theorem append_iff : c.Over (w ++ v) n ↔ ∃ m, c.Over w m ∧ m.Over v n := by
  constructor
  · rintro ⟨hrest, rfl⟩
    rw [List.append_assoc] at hrest
    refine ⟨_, of_append hrest, by rw [rest_advance, hrest, List.drop_left], ?_⟩
    rw [List.length_append, advance_add]
  · rintro ⟨m, ⟨hw, rfl⟩, hv, rfl⟩
    exact ⟨by rw [hw, hv, List.append_assoc], by rw [List.length_append, advance_add]⟩

/-- A text is its first character with the rest behind it. -/
theorem cons_iff : c.Over (x :: w) n ↔ c.rest = x :: c.step.rest ∧ c.step.Over w n := by
  constructor
  · rintro ⟨hrest, rfl⟩
    have hstep : c.step.rest = w ++ (c.advance (x :: w).length).rest := by
      rw [rest_step, hrest, List.cons_append, List.tail_cons]
    exact ⟨by rw [hrest, hstep, List.cons_append], hstep, rfl⟩
  · rintro ⟨hrest, hw, rfl⟩
    exact ⟨by rw [hrest, hw, List.cons_append], rfl⟩

theorem le (h : c.Over w n) : c ≤ n := by
  obtain ⟨hrest, rfl⟩ := h
  exact le_advance (by rw [hrest, List.length_append]; exact Nat.le_add_right ..)

theorem lt (h : c.Over (x :: w) n) : c < n :=
  (lt_step (cons_iff.mp h).1).trans_le (cons_iff.mp h).2.le

theorem textTo (h : c.Over w n) : c.textTo n = w := by
  rw [h.eq_advance, textTo_advance h.rest_eq]

end Over

/-- A word that stands at a place is passed over. -/
theorem after?_eq_some {w : List Char} (h : c.after? w = some n) :
    w <+: c.rest ∧ n = c.advance w.length := by
  unfold after? at h
  split at h
  · exact ⟨List.isPrefixOf_iff_prefix.mp ‹_›, (Option.some.inj h).symm⟩
  · cases h

theorem after?_of_append {w rest : List Char} (h : c.rest = w ++ rest) :
    c.after? w = some (c.advance w.length) :=
  if_pos (List.isPrefixOf_iff_prefix.mpr ⟨rest, h.symm⟩)

theorem after?_eq_none {w : List Char} : c.after? w = none ↔ ¬ w <+: c.rest := by
  simp [after?, List.isPrefixOf_iff_prefix]

end Cursor

/-! ## Blanks -/

/-- A block comment has its marks and ends within the text. -/
theorem blockCommentLength?_bounds {cs : List Char} {n : Nat}
    (h : blockCommentLength? cs = some n) : 2 ≤ n ∧ n ≤ cs.length := by
  fun_induction blockCommentLength? cs generalizing n with
  | case1 rest =>
    cases h
    simp
  | case2 x rest hx ih =>
    obtain ⟨k, hk, rfl⟩ := Option.map_eq_some_iff.mp h
    obtain ⟨h2, hle⟩ := ih hk
    simp only [List.length_cons]
    omega
  | case3 => cases h

/-- A comment has its mark and ends within the text. -/
theorem commentLength?_bounds {cs : List Char} {n : Nat} (h : commentLength? cs = some n) :
    2 ≤ n ∧ n ≤ cs.length := by
  unfold commentLength? at h
  split at h
  · rename_i rest
    obtain rfl := Option.some.inj h
    have hle := (List.takeWhile_prefix (· ≠ '\n') (l := rest)).length_le
    simp only [List.length_cons]
    omega
  · obtain ⟨k, hk, rfl⟩ := Option.map_eq_some_iff.mp h
    obtain ⟨h2, hle⟩ := blockCommentLength?_bounds hk
    simp only [List.length_cons]
    omega
  · cases h

/-- More fuel than there is text makes no difference. -/
theorem blankLengthWithin_eq {fuel : Nat} {cs : List Char} (h : cs.length ≤ fuel) :
    blankLengthWithin fuel cs = blankLength cs := by
  suffices hall : ∀ n, ∀ cs : List Char, cs.length ≤ n → ∀ fuel, cs.length ≤ fuel →
      blankLengthWithin fuel cs = blankLengthWithin cs.length cs from
    hall _ cs le_rfl fuel h
  intro n
  induction n with
  | zero =>
    intro cs hn fuel _
    obtain rfl := List.eq_nil_of_length_eq_zero (Nat.le_zero.mp hn)
    cases fuel <;> rfl
  | succ n ih =>
    intro cs hn fuel hfuel
    cases cs with
    | nil => cases fuel <;> rfl
    | cons x rest =>
      obtain ⟨fuel, rfl⟩ := Nat.exists_eq_add_of_le' (Nat.zero_lt_of_lt hfuel)
      simp only [List.length_cons, Nat.add_le_add_iff_right] at hn hfuel
      simp only [List.length_cons, blankLengthWithin]
      rw [ih rest hn fuel hfuel]
      split
      · rfl
      · split
        · rename_i k hk
          have hbounds := commentLength?_bounds hk
          have hlength : ((x :: rest).drop k).length ≤ rest.length := by
            rw [List.length_drop, List.length_cons]
            omega
          rw [ih _ (hlength.trans hn) fuel (hlength.trans hfuel),
            ih _ (hlength.trans hn) rest.length hlength]
        · rfl

theorem blankLength_nil : blankLength [] = 0 := rfl

/-- **Space is read character by character and comment by comment.** -/
theorem blankLength_cons (x : Char) (rest : List Char) :
    blankLength (x :: rest) =
      if isSpace x then 1 + blankLength rest
      else match commentLength? (x :: rest) with
      | some n => n + blankLength ((x :: rest).drop n)
      | none => 0 := by
  rw [blankLength, List.length_cons, blankLengthWithin]
  split
  · rfl
  · cases hc : commentLength? (x :: rest) with
    | none => rfl
    | some k =>
      have hbounds := commentLength?_bounds hc
      have hlength : ((x :: rest).drop k).length ≤ rest.length := by
        rw [List.length_drop, List.length_cons]
        omega
      simp only [blankLengthWithin_eq hlength]

theorem blankLength_of_space {x : Char} {rest : List Char} (h : isSpace x = true) :
    blankLength (x :: rest) = 1 + blankLength rest := by rw [blankLength_cons, if_pos h]

/-- A comment begins with a slash. -/
theorem commentLength?_of_ne {x : Char} {rest : List Char} (hx : x ≠ '/') :
    commentLength? (x :: rest) = none := by
  unfold commentLength?
  split <;> simp_all

/-- A comment is skipped with the space behind it. -/
theorem blankLength_of_comment {x : Char} {rest : List Char} {n : Nat} (hx : isSpace x = false)
    (h : commentLength? (x :: rest) = some n) :
    blankLength (x :: rest) = n + blankLength ((x :: rest).drop n) := by
  rw [blankLength_cons, if_neg (by simp [hx]), h]

theorem blankLength_of_solid {x : Char} {rest : List Char} (hx : isSpace x = false)
    (h : commentLength? (x :: rest) = none) : blankLength (x :: rest) = 0 := by
  rw [blankLength_cons, if_neg (by simp [hx]), h]

/-- **Blanks come one after the other**: a space, a comment, or no more. -/
theorem blankLength_induction {P : List Char → Prop} (nil : P [])
    (space : ∀ x rest, isSpace x = true → P rest → P (x :: rest))
    (comment : ∀ x rest n, isSpace x = false → commentLength? (x :: rest) = some n →
      P ((x :: rest).drop n) → P (x :: rest))
    (solid : ∀ x rest, isSpace x = false → commentLength? (x :: rest) = none → P (x :: rest))
    (cs : List Char) : P cs := by
  induction h : cs.length using Nat.strong_induction_on generalizing cs with
  | _ n ih =>
    subst h
    cases cs with
    | nil => exact nil
    | cons x rest =>
      cases hx : isSpace x with
      | true => exact space x rest hx (ih rest.length (by simp) rest rfl)
      | false =>
        cases hc : commentLength? (x :: rest) with
        | none => exact solid x rest hx hc
        | some k =>
          refine comment x rest k hx hc (ih _ ?_ _ rfl)
          have hbounds := commentLength?_bounds hc
          rw [List.length_drop]
          omega

/-- Characters of space before a text are all skipped. -/
theorem blankLength_spaces {cs : List Char} (h : cs.all isSpace = true) (rest : List Char) :
    blankLength (cs ++ rest) = cs.length + blankLength rest := by
  induction cs with
  | nil => simp
  | cons x cs ih =>
    simp only [List.all_cons, Bool.and_eq_true] at h
    rw [List.cons_append, blankLength_of_space h.1, ih h.2, List.length_cons]
    omega

/-- No more is skipped than there is. -/
theorem blankLength_le (cs : List Char) : blankLength cs ≤ cs.length := by
  induction cs using blankLength_induction with
  | nil => exact le_rfl
  | space x rest hx ih =>
    rw [blankLength_of_space hx, List.length_cons]
    omega
  | comment x rest n hx hc ih =>
    have hbounds := commentLength?_bounds hc
    rw [blankLength_of_comment hx hc]
    rw [List.length_drop] at ih
    omega
  | solid x rest hx hc => simp [blankLength_of_solid hx hc]

/-- Behind blanks there are no more. -/
theorem blankLength_drop (cs : List Char) : blankLength (cs.drop (blankLength cs)) = 0 := by
  induction cs using blankLength_induction with
  | nil => rfl
  | space x rest hx ih => rw [blankLength_of_space hx, Nat.add_comm, List.drop_succ_cons, ih]
  | comment x rest n hx hc ih => rw [blankLength_of_comment hx hc, ← List.drop_drop, ih]
  | solid x rest hx hc => simp [blankLength_of_solid hx hc]

/-- **No blank stands at the cursor.** -/
def Cursor.IsSolid (c : Cursor) : Prop := blankLength c.rest = 0

namespace Cursor

variable {c n : Cursor}

theorem le_skipBlanks (c : Cursor) : c ≤ c.skipBlanks := le_advance (blankLength_le _)

theorem isSolid_skipBlanks (c : Cursor) : c.skipBlanks.IsSolid := by
  rw [IsSolid, skipBlanks, rest_advance, blankLength_drop]

theorem IsSolid.skipBlanks_eq (h : c.IsSolid) : c.skipBlanks = c := by
  rw [skipBlanks, h, advance_zero]

theorem isSolid_of_cons {x : Char} {rest : List Char} (h : c.rest = x :: rest)
    (hx : isSpace x = false) (hslash : x ≠ '/') : c.IsSolid := by
  rw [IsSolid, h, blankLength_of_solid hx (commentLength?_of_ne hslash)]

/-- One space is skipped in front of what is solid. -/
theorem skipBlanks_of_space {rest : List Char} (h : c.rest = ' ' :: rest) :
    c.skipBlanks = c.step.skipBlanks := by
  rw [skipBlanks, skipBlanks, rest_step, h, blankLength_of_space rfl, Nat.add_comm, advance_succ,
    List.tail_cons]

theorem Over.skipBlanks_eq (h : c.Over [' '] n) (hn : n.IsSolid) : c.skipBlanks = n := by
  rw [skipBlanks_of_space h.rest_eq, ← hn.skipBlanks_eq, h.eq_advance]
  rfl

theorem isSolid_of_nil (h : c.rest = []) : c.IsSolid := by rw [IsSolid, h, blankLength_nil]

/-- What is not blank at a solid cursor. -/
theorem IsSolid.head {x : Char} {rest : List Char} (h : c.IsSolid) (hrest : c.rest = x :: rest) :
    isSpace x = false ∧ commentLength? (x :: rest) = none := by
  rw [IsSolid, hrest] at h
  cases hx : isSpace x with
  | true => rw [blankLength_of_space hx] at h; omega
  | false =>
    cases hc : commentLength? (x :: rest) with
    | none => exact ⟨rfl, rfl⟩
    | some k =>
      have hbounds := commentLength?_bounds hc
      rw [blankLength_of_comment hx hc] at h
      omega

end Cursor

theorem Spacing.le_skip (s : Spacing) (c : Cursor) : c ≤ s.skip c := by
  cases s with
  | free => exact c.le_skipBlanks
  | tight | quiet => exact le_refl c

end ScriptTrace.Grammar
