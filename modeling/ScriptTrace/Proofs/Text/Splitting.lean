import Mathlib.Data.List.Infix
import ScriptTrace.Text.Search

/-!
# Proofs/Text/Splitting — a text in pieces

A text is cut where a pattern stands first, then what is left behind it, and so on: an occurrence
that overlaps one that was cut does not count.  `Pieces` says so without a scan, and the scan finds
these pieces (`pieces_splitAt`).  With the pattern between them they are the text again, and none of
them holds the pattern.
-/

namespace ScriptTrace.Text

variable {pattern text piece rest cs : List Char} {pieces : List (List Char)}

/-- **The first occurrence of a pattern** in a text stands behind `piece` and in front of `rest`. -/
structure FirstOccurrence (pattern text piece rest : List Char) : Prop where
  text_eq : text = piece ++ pattern ++ rest
  le_of_occurrence : ∀ front back, text = front ++ pattern ++ back → piece.length ≤ front.length

/-- **The pieces of a text** between the occurrences of a pattern, from left to right. -/
inductive Pieces (pattern : List Char) : List Char → List (List Char) → Prop
  | whole {text : List Char} (h : ¬ pattern <:+: text) : Pieces pattern text [text]
  | cut {text piece rest : List Char} {pieces : List (List Char)}
      (h : FirstOccurrence pattern text piece rest) (hrest : Pieces pattern rest pieces) :
      Pieces pattern text (piece :: pieces)

/-- In front of the first occurrence there is none. -/
theorem FirstOccurrence.not_isInfix (h : FirstOccurrence pattern text piece rest)
    (hp : pattern ≠ []) : ¬ pattern <:+: piece := by
  rintro ⟨front, back, rfl⟩
  have hle := h.le_of_occurrence front (back ++ pattern ++ rest) (by simp [h.text_eq])
  have hpos := List.length_pos_iff.mpr hp
  simp only [List.length_append] at hle
  omega

namespace Pieces

theorem ne_nil (h : Pieces pattern text pieces) : pieces ≠ [] := by
  cases h <;> exact List.cons_ne_nil _ _

/-- **With the pattern between them the pieces are the text.** -/
theorem intercalate_eq (h : Pieces pattern text pieces) : pattern.intercalate pieces = text := by
  induction h with
  | whole => exact List.intercalate_singleton
  | @cut text piece rest pieces h hrest ih =>
    obtain ⟨next, more, rfl⟩ := List.exists_cons_of_ne_nil hrest.ne_nil
    rw [List.intercalate_cons_cons, ih, h.text_eq, List.append_assoc]

/-- **No piece holds the pattern.** -/
theorem not_isInfix (h : Pieces pattern text pieces) (hp : pattern ≠ []) :
    ∀ piece ∈ pieces, ¬ pattern <:+: piece := by
  induction h with
  | whole h => exact List.forall_mem_singleton.mpr h
  | cut h _ ih => exact List.forall_mem_cons.mpr ⟨h.not_isInfix hp, ih⟩

/-- More than one piece are there if the pattern occurs. -/
theorem eq_nil_iff {others : List (List Char)} (h : Pieces pattern text (piece :: others)) :
    others = [] ↔ ¬ pattern <:+: text := by
  cases h with
  | whole h => exact iff_of_true rfl h
  | cut h hrest => exact iff_of_false hrest.ne_nil (not_not_intro ⟨piece, _, h.text_eq.symm⟩)

/-- Behind the first occurrence stand the other pieces with the pattern between them. -/
theorem drop_eq {others : List (List Char)} (h : Pieces pattern text (piece :: others))
    (hothers : others ≠ []) :
    text.drop (piece.length + pattern.length) = pattern.intercalate others := by
  cases h with
  | whole => exact absurd rfl hothers
  | cut h hrest =>
    rw [hrest.intercalate_eq, h.text_eq, ← List.length_append, List.drop_left]

end Pieces

/-! ## The scan -/

/-- Characters of an occurrence are passed over. -/
theorem piecesFrom_eq_drop (skip : Nat) :
    piecesFrom pattern skip piece cs = piecesFrom pattern 0 piece (cs.drop skip) := by
  induction skip generalizing cs with
  | zero => rfl
  | succ skip ih =>
    cases cs with
    | nil => rfl
    | cons c cs => exact ih

/-- Where the pattern stands, the text in front of it is a piece. -/
theorem piecesFrom_of_found {c : Char} (h : pattern ++ rest = c :: cs) (hp : pattern ≠ []) :
    piecesFrom pattern 0 piece (c :: cs) = piece.reverse :: piecesFrom pattern 0 [] rest := by
  obtain ⟨y, tail, rfl⟩ := List.exists_cons_of_ne_nil hp
  obtain ⟨rfl, rfl⟩ := List.cons.inj h
  have hprefix : (y :: tail).isPrefixOf (y :: (tail ++ rest)) = true :=
    List.isPrefixOf_iff_prefix.mpr ⟨rest, rfl⟩
  change (if (y :: tail).isPrefixOf (y :: (tail ++ rest)) then
    piece.reverse :: piecesFrom (y :: tail) tail.length [] (tail ++ rest) else _) = _
  rw [if_pos hprefix, piecesFrom_eq_drop, List.drop_left]

/-- A character at which the pattern does not stand goes to the piece. -/
theorem piecesFrom_of_absent {c : Char} (h : ¬ pattern <+: c :: cs) :
    piecesFrom pattern 0 piece (c :: cs) = piecesFrom pattern 0 (c :: piece) cs := by
  change (if pattern.isPrefixOf (c :: cs) then _ else _) = _
  rw [if_neg (mt List.isPrefixOf_iff_prefix.mp h)]

/-- **The scan finds the pieces**, as long as no occurrence begins in what it has passed. -/
theorem pieces_piecesFrom (hp : pattern ≠ [])
    (hfirst : ∀ front back, piece.reverse ++ cs = front ++ pattern ++ back →
      piece.length ≤ front.length) :
    Pieces pattern (piece.reverse ++ cs) (piecesFrom pattern 0 piece cs) := by
  have hpos := List.length_pos_iff.mpr hp
  induction hlength : cs.length using Nat.strong_induction_on generalizing piece cs with
  | _ n ih =>
    subst hlength
    cases cs with
    | nil =>
      rw [List.append_nil] at hfirst ⊢
      refine .whole ?_
      rintro ⟨front, back, h⟩
      have hle := hfirst front back h.symm
      have hlength := congrArg List.length h
      simp only [List.length_append, List.length_reverse] at hlength
      omega
    | cons c cs =>
      by_cases hprefix : pattern <+: c :: cs
      · obtain ⟨rest, hrest⟩ := hprefix
        have hshort : rest.length < (c :: cs).length := by
          rw [← hrest, List.length_append]
          omega
        have hmore : Pieces pattern rest (piecesFrom pattern 0 [] rest) :=
          @ih rest.length hshort [] rest (fun _ _ _ => Nat.zero_le _) rfl
        rw [piecesFrom_of_found hrest hp]
        refine .cut ⟨by rw [List.append_assoc, hrest], fun front back h => ?_⟩ hmore
        rw [List.length_reverse]
        exact hfirst front back h
      · rw [piecesFrom_of_absent hprefix]
        have hmoved : (c :: piece).reverse ++ cs = piece.reverse ++ c :: cs := by simp
        rw [← hmoved] at hfirst ⊢
        refine ih cs.length (Nat.lt_succ_self _) (fun front back h => ?_) rfl
        refine Nat.lt_of_le_of_ne (hfirst front back h) fun hsame => hprefix ⟨back, ?_⟩
        -- An occurrence right here would be one in front of the text that is left.
        rw [hmoved, List.append_assoc] at h
        exact (List.append_inj h (by rw [List.length_reverse, hsame])).2.symm

/-- **A text is split into its pieces.** -/
theorem pieces_splitAt (hp : pattern ≠ []) (text : List Char) :
    Pieces pattern text (splitAt pattern text) := by
  change Pieces pattern ([].reverse ++ text) (piecesFrom pattern 0 [] text)
  exact pieces_piecesFrom hp fun _ _ _ => Nat.zero_le _

end ScriptTrace.Text
