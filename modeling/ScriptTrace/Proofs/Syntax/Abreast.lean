import ScriptTrace.Proofs.Syntax.Ahead

/-!
# Proofs/Syntax/Abreast — what stands behind a closing bracket

Two texts that are the same up to a bracket which closes none of them are read in the same way up to
there, whatever stands behind it (`keepsPace_follow`).  The values are the same as well, because no
phrase has the text behind it in its value (`Rule.blind_phrase`).
-/

namespace ScriptTrace.Syntax

open Grammar
open Grammar.Form
open Phrase

variable {call call' : {α : Type} → Rule α → Spacing → Cursor → Attempt α} {b x : Char}
  {u w X Y R R' : List Char} {opened outer : List Bracket} {c c' n n' : Cursor} {d d' : Nat}
  {s : Spacing} {solid : Bool}

/-! ## Blanks in front of a seam -/

/-- **The same blanks stand in front of both texts**, as far as they stand in front of the seam. -/
theorem blankLength_front (hY : StandsFor Y X)
    (h : Scans (.code opened (u ++ X)) (.code outer X)) :
    blankLength (u ++ X) ≤ u.length ∧ blankLength (u ++ Y) = blankLength (u ++ X) ∨
    blankLength (u ++ X) = u.length + blankLength X ∧
      blankLength (u ++ Y) = u.length + blankLength Y := by
  induction hk : u.length using Nat.strong_induction_on generalizing u opened with
  | _ k ih =>
    subst hk
    cases u with
    | nil => exact .inr ⟨(Nat.zero_add _).symm, (Nat.zero_add _).symm⟩
    | cons x u =>
      obtain heq | ⟨a, hnext, hmore⟩ := Relation.ReflTransGen.cases_head h
      · have hlength := congrArg (fun a : Spot => a.rest.length) heq
        simp at hlength
        omega
      simp only [List.cons_append, List.length_cons] at hnext ⊢
      cases hx : isSpace x with
      | true =>
        have hplain : Scans (.code opened (x :: (u ++ X))) (.code opened (u ++ X)) :=
          .plain (isMark_of_isSpace hx)
        rw [blankLength_of_space hx, blankLength_of_space hx]
        have hrest := ih u.length (Nat.lt_succ_self _) (hplain.of_length_le h (by simp)) rfl
        omega
      | false =>
        cases hc : commentLength? (x :: (u ++ X)) with
        | some n =>
          have hbounds := commentLength?_bounds hc
          rw [Spot.next?_comment hc, Option.some.injEq] at hnext
          subst hnext
          have hlength := (Scans.suffix hmore).length_le
          simp only [List.length_drop, List.length_cons, List.length_append] at hlength hbounds
          have hn : n ≤ (x :: u).length := by
            rw [List.length_cons]
            omega
          have hdrop (Z : List Char) : (x :: (u ++ Z)).drop n = (x :: u).drop n ++ Z :=
            (List.drop_append_of_le_length hn : (x :: u ++ Z).drop n = _)
          have hc' : commentLength? (x :: (u ++ Y)) = some n :=
            commentLength?_front (u := x :: u) hY.line hc hn
          rw [blankLength_of_comment hx hc, blankLength_of_comment hx hc', hdrop, hdrop]
          rw [hdrop] at hmore
          have hlt : ((x :: u).drop n).length < u.length + 1 := by
            simp only [List.length_drop, List.length_cons]
            omega
          have hrest := ih _ hlt hmore rfl
          simp only [List.length_drop, List.length_cons] at hn hrest
          omega
        | none =>
          have hc' : commentLength? (x :: (u ++ Y)) = none := by
            refine hY.commentLength?_eq_none hc ?_
            rintro rfl hstar
            rw [Spot.next?_slash hc, if_pos hstar] at hnext
            cases hnext
          rw [blankLength_of_solid hx hc, blankLength_of_solid hx hc']
          exact .inl ⟨Nat.zero_le _, rfl⟩

/-! ## A bracket as the seam -/

/-- Two texts that part behind a closing bracket. -/
def bracketSeam (u : List Char) (b : Char) (R R' : List Char) : Seam := ⟨u, [], b :: R, b :: R'⟩

/-- **Rules that keep pace** up to a closing bracket that is not theirs. -/
abbrev KeepsPace (u : List Char) (b : Char) (R R' : List Char)
    (call call' : {α : Type} → Rule α → Spacing → Cursor → Attempt α) : Prop :=
  KeepsStep (bracketSeam u b R R') [] (.same Rule) (fun _ _ => False) call call'

/-- What is before a closing bracket ends there, without anything behind it. -/
theorem ends_of_isClosing (hb : isClosing b = true) (X : List Char) :
    Seam.Ends [] [] (b :: X) := by
  have hne (y : Char) (hy : isClosing y = false) : b ≠ y := by
    rintro rfl
    cases hb.symm.trans hy
  refine ⟨⟨b, X, rfl, .inr hb⟩, fun _ _ _ => rfl, ?_, ?_⟩
  · rintro _ ⟨⟩
    simp only [isQuote, Bool.or_eq_false_iff, decide_eq_false_iff_not]
    exact ⟨⟨hne _ rfl, hne _ rfl⟩, hne _ rfl⟩
  · rintro rest heq
    exact absurd (List.cons.inj heq).1 (hne _ rfl)

theorem standsFor_of_isClosing (hb : isClosing b = true) : StandsFor (b :: R') (b :: R) := by
  refine ⟨fun h y hy => ?_, ?_⟩
  · cases hy
    exact h b rfl
  · rintro _ ⟨⟩
    constructor <;> (rintro rfl; cases hb)

/-- Behind the text that differs, space is skipped alike up to the bracket. -/
theorem Seam.Ahead.skip_bracket (hb : isClosing b = true)
    (h : (bracketSeam w b R R').Ahead .code opened c c') :
    (bracketSeam w b R R').Ahead .code opened c.skipBlanks c'.skipBlanks := by
  obtain ⟨u, hu, hu'⟩ := h.abreast.front
  have hsolid (X : List Char) : blankLength (b :: X) = 0 := by
    refine blankLength_of_solid ?_ (commentLength?_of_ne (ne_slash_of_isClosing hb))
    rw [Bool.eq_false_iff]
    intro hspace
    have hmark := isMark_of_isSpace hspace
    simp [isMark, hb] at hmark
  have hblank : blankLength c.rest ≤ u.length ∧ blankLength c'.rest = blankLength c.rest := by
    have hstands : StandsFor (b :: R') (b :: R) := standsFor_of_isClosing hb
    have hfront := blankLength_front hstands (hu ▸ h.left)
    rw [hu, hu']
    simp only [bracketSeam, hsolid, Nat.add_zero] at hfront ⊢
    omega
  refine h.onward ?_ (Scans.skip .free) (Scans.skip .free)
  change Cursor.Abreast _ _ (c.advance _) (c'.advance _)
  rw [hblank.2]
  exact h.abreast.advance hu hblank.1

/-- A word with a closing bracket at its end at most is seen up to the fence. -/
theorem prefix_fence (hb : isClosing b = true)
    (hw : (w.dropLast.all fun x => !isClosing x) = true) :
    w <+: u ++ b :: R ↔ w <+: u ++ b :: R' := by
  suffices h : ∀ {R R' : List Char}, w <+: u ++ b :: R → w <+: u ++ b :: R' from ⟨h, h⟩
  intro R R' h
  rcases List.prefix_or_prefix_of_prefix h (List.prefix_append u (b :: R)) with h' | ⟨t, rfl⟩
  · exact h'.trans (List.prefix_append u _)
  · rw [List.prefix_append_right_inj] at h ⊢
    obtain _ | ⟨x, _ | ⟨y, t⟩⟩ := t
    · exact List.nil_prefix
    · obtain ⟨rfl, -⟩ := List.cons_prefix_cons.mp h
      exact List.cons_prefix_cons.mpr ⟨rfl, List.nil_prefix⟩
    · obtain ⟨rfl, -⟩ := List.cons_prefix_cons.mp h
      have hinside := List.all_eq_true.mp hw x (by simp)
      simp [hb] at hinside

/-- A phrase that only looks ahead sees the same. -/
theorem related_of_glances (hcall : Advancing call) (hcall' : Advancing call')
    (hb : isClosing b = true) {α : Type} (f : Phrase α) (hf : glances f = true)
    (h : Cursor.Front (b :: R) (b :: R') c c') :
    Outcome.Related (fun _ _ => True) (f.result call .quiet c) (f.result call' .quiet c') := by
  have havoids {α : Type} {f : Phrase α}
      (hf : (f.avoids ')' && f.avoids ']' && f.avoids '\x7d') = true) :
      Outcome.Related (fun _ _ => True) (f.result call .quiet c) (f.result call' .quiet c') := by
    simp only [Bool.and_eq_true] at hf
    have hbehind : f.avoids b = true := by
      simp only [isClosing, Bool.or_eq_true, decide_eq_true_eq] at hb
      obtain (rfl | rfl) | rfl := hb
      · exact hf.1.1
      · exact hf.1.2
      · exact hf.2
    exact (f.related_front hcall hcall' hbehind hbehind h).imp fun _ _ _ => trivial
  obtain ⟨u, hu, hu'⟩ := h
  induction f with
  | one p =>
    rw [result_one, result_one, hu, hu']
    cases u with
    | nil =>
      dsimp only [List.nil_append]
      split
      · exact .matched trivial
      · exact .failed
    | cons x u =>
      dsimp only [List.cons_append]
      split
      · exact .matched trivial
      · exact .failed
  | word w =>
    have hfront : w <+: c.rest ↔ w <+: c'.rest := by
      rw [hu, hu']
      exact prefix_fence hb hf
    by_cases hw : w <+: c.rest
    · obtain ⟨X, hX⟩ := hw
      obtain ⟨Y, hY⟩ := hfront.mp ⟨X, hX⟩
      rw [result_word_of_over (.of_append hX.symm), result_word_of_over (.of_append hY.symm)]
      exact .matched trivial
    · rw [result_word_absent hw, result_word_absent fun h => hw (hfront.mpr h)]
      exact .failed
  | either f g ihf ihg =>
    simp only [glances, Bool.and_eq_true] at hf
    rw [result_either, result_either]
    exact (ihf hf.1).orElse (ihg hf.2)
  | map g f ih =>
    rw [result_map, result_map]
    exact (ih hf).map
  | named f ih =>
    rw [result_named, result_named]
    exact ih hf
  | _ => exact havoids hf

/-- The rules keep pace if they are read in the same way. -/
theorem keepsPace_of_rules (hb : isClosing b = true) (hcall : Advancing call)
    (hcall' : Advancing call')
    (hrules : ∀ {α : Type} (r : Rule α) {opened : List Bracket} {c c' : Cursor},
      (bracketSeam w b R R').Ahead .code opened c c' →
        Outcome.Alike (· = ·) ((bracketSeam w b R R').Meets (fun _ _ => False) .free .code opened)
          (call r .free c).outcome (call' r .free c').outcome) : KeepsPace w b R R' call call' where
  left := ends_of_isClosing hb R
  right := ends_of_isClosing hb R'
  advancing := hcall
  advancing' := hcall'
  position _ := rfl
  text _ := rfl
  text_after _ _ h := h.elim
  skip h := .inl (h.skip_bracket hb)
  after_skip := id
  after _ _ _ _ h := h.elim
  look f _ _ _ hf _ h := related_of_glances hcall hcall' hb f hf h.abreast.front
  rules := hrules

variable (hpace : KeepsPace w b R R' call call')
include hpace

/-- **A phrase is read in the same way** whatever stands behind the bracket, with the same value. -/
theorem KeepsPace.alike {α : Type} (f : Phrase α) (hf : nesting s solid f d = some d')
    (hapart : apart [] s f = true) (hshelter : f.isSheltered = true) (hblind : f.Blind)
    (hsolid : solid = true → c.IsSolid ∧ c'.IsSolid)
    (h : (bracketSeam w b R R').Ahead .code (openedIn d opened) c c') :
    Outcome.Alike f.Like
      ((bracketSeam w b R R').Meets (fun _ _ => False) s .code (openedIn d' opened))
      (f.result call s c) (f.result call' s c') :=
  (alike_ahead hpace f hf hapart hsolid h).imp fun _ _ => like_of_corresponds hshelter hblind

omit hpace

/-! ## The rules -/

theorem Rule.isSheltered_phrase {α : Type} (r : Rule α) :
    r.phrase.isSheltered = true ∧ r.phrase.isSpanned = false := by
  cases r <;> decide

/-- **No value of a rule tells what stands behind its text.** -/
theorem Rule.blind_phrase {α : Type} (r : Rule α) : r.phrase.Blind := by
  cases r
  all_goals (repeat' apply And.intro)
  all_goals first
    | exact trivial
    | (intro c c' t v h; rfl)
    | (intro c c' t v h; exact congrArg (·, v) h)
    | (intro c c' t v h; simp [h])

theorem Rule.apart_phrase {α : Type} (r : Rule α) : apart [] .free r.phrase = true := by
  cases r <;> decide

/-- **The rules of the language keep pace**: in front of a bracket that is not theirs they are read
in the same way, with the same value, whatever stands behind it. -/
theorem keepsPace_follow (hb : isClosing b = true) (w R R' : List Char) (fuel fuel' : Nat) :
    KeepsPace w b R R' (follow fuel) (follow fuel') := by
  refine keepsPace_of_rules hb (advancing_follow fuel) (advancing_follow fuel') ?_
  induction fuel generalizing fuel' with
  | zero => exact fun _ _ _ _ _ => .exhausted _
  | succ fuel ih =>
    obtain _ | fuel' := fuel'
    · exact fun _ _ _ _ _ => .exhausted_right _
    intro α r opened c c' h
    have hpace : KeepsPace w b R R' (follow fuel) (follow fuel') :=
      keepsPace_of_rules hb (advancing_follow fuel) (advancing_follow fuel') (ih fuel')
    exact (alike_phrase hpace r (.inr r.apart_phrase) h).imp fun _ _ hv =>
      eq_of_like r.isSheltered_phrase.2
        (like_of_corresponds r.isSheltered_phrase.1 r.blind_phrase hv)

end ScriptTrace.Syntax
