import Mathlib.Data.List.Forall2
import ScriptTrace.Proofs.Grammar.Elsewhere

/-!
# Proofs/Grammar/Abreast — one text in front of two others

Two cursors are *abreast* if the same text stands at them in front of two others, and they have the
same position.  Outcomes that are `Alike` have related values and leave related cursors.  A form is
`Blind` if no value of it tells what stands behind its text, so that the values of two readings
abreast are equal.
-/

namespace ScriptTrace.Grammar

variable {Rule : Type → Type} {α β : Type}

/-! ## Cursors -/

/-- **The same text at the same position**, in front of two texts. -/
structure Cursor.Abreast (A B : List Char) (c c' : Cursor) : Prop where
  front : Front A B c c'
  position_eq : c.position = c'.position

namespace Cursor.Abreast

variable {A B : List Char} {c c' n n' : Cursor} {x : Char} {u : List Char}

theorem step (h : Abreast A B c c') (hc : c.rest = x :: u ++ A) : Abreast A B c.step c'.step := by
  obtain ⟨⟨u', hu, hu'⟩, hposition⟩ := h
  obtain rfl : x :: u = u' := List.append_cancel_right (hc.symm.trans hu)
  refine ⟨.step hu hu', ?_⟩
  rw [step_of_cons hu, step_of_cons hu', hposition]

/-- Two places stay abreast when both go on within the text that they share. -/
theorem advance {k : Nat} (h : Abreast A B c c') (hc : c.rest = u ++ A) (hk : k ≤ u.length) :
    Abreast A B (c.advance k) (c'.advance k) := by
  induction k generalizing c c' u with
  | zero => exact h
  | succ k ih =>
    cases u with
    | nil => exact absurd hk (Nat.not_succ_le_zero k)
    | cons x u => exact ih (h.step hc) (by simp [hc]) (Nat.le_of_succ_le_succ hk)

theorem symm (h : Abreast A B c c') : Abreast B A c' c := by
  obtain ⟨⟨u, hu, hu'⟩, hposition⟩ := h
  exact ⟨⟨u, hu', hu⟩, hposition.symm⟩

/-- Between places that are abreast stands the same text. -/
theorem textTo_eq (h : Abreast A B c c') (hn : Abreast A B n n') (hle : c ≤ n) (hle' : c' ≤ n') :
    c.textTo n = c'.textTo n' := by
  obtain ⟨⟨u, hu, hu'⟩, -⟩ := h
  obtain ⟨⟨w, hw, hw'⟩, -⟩ := hn
  have htext : c.textTo n ++ w = u := by
    refine List.append_cancel_right (?_ : _ ++ A = _ ++ A)
    rw [List.append_assoc, ← hw, textTo_append hle, hu]
  have htext' : c'.textTo n' ++ w = u := by
    refine List.append_cancel_right (?_ : _ ++ B = _ ++ B)
    rw [List.append_assoc, ← hw', textTo_append hle', hu']
  exact List.append_cancel_right (htext.trans htext'.symm)

end Cursor.Abreast

/-! ## Outcomes -/

namespace Outcome

/-- **Two outcomes with related values and related places**, unless one reading was given up. -/
inductive Alike (E : α → α → Prop) (R : Cursor → Cursor → Prop) : Outcome α → Outcome α → Prop
  | matched {v v' : α} {n n' : Cursor} (hv : E v v') (hn : R n n') :
    Alike E R (.matched v n) (.matched v' n')
  | failed : Alike E R .failed .failed
  | exhausted (o : Outcome α) : Alike E R .exhausted o
  | exhausted_right (o : Outcome α) : Alike E R o .exhausted

namespace Alike

variable {E : α → α → Prop} {E' : β → β → Prop} {R R' : Cursor → Cursor → Prop}
  {o o' : Outcome α} {v v' : α} {n n' : Cursor}

theorem pair (h : Alike E R (.matched v n) (.matched v' n')) : E v v' ∧ R n n' := by
  cases h with
  | matched hv hn => exact ⟨hv, hn⟩

theorem ne_failed (h : Alike E R (.matched v n) o') : o' ≠ .failed := by
  cases h with
  | matched | exhausted_right => exact nofun

theorem ne_matched (h : Alike E R .failed o') : o' ≠ .matched v n := by
  cases h with
  | failed | exhausted_right => exact nofun

theorem symm (h : Alike E R o o') : Alike (fun v v' => E v' v) (fun n n' => R n' n) o' o := by
  cases h with
  | matched hv hn => exact .matched hv hn
  | failed => exact .failed
  | exhausted => exact .exhausted_right _
  | exhausted_right => exact .exhausted _

/-- Readings that are alike go on to be alike. -/
theorem andThen {f f' : α → Cursor → Outcome β} (h : Alike E R o o')
    (hf : ∀ v v' n n', o = .matched v n → o' = .matched v' n' → E v v' → R n n' →
      Alike E' R' (f v n) (f' v' n')) :
    Alike E' R' (o.andThen f) (o'.andThen f') := by
  cases h with
  | matched hv hn => exact hf _ _ _ _ rfl rfl hv hn
  | failed => exact .failed
  | exhausted => exact .exhausted _
  | exhausted_right => exact .exhausted_right _

theorem map {g g' : α → β} (h : Alike E R o o') (hg : ∀ v v', E v v' → E' (g v) (g' v')) :
    Alike E' R (o.map g) (o'.map g') :=
  h.andThen fun _ _ _ _ _ _ hv hn => .matched (hg _ _ hv) hn

/-- Readings that are alike fall back to be alike. -/
theorem orElse {f f' : Unit → Outcome α} (h : Alike E R o o')
    (hf : Alike E R (f ()) (f' ())) : Alike E R (o.orElse f) (o'.orElse f') := by
  cases h with
  | matched hv hn => exact .matched hv hn
  | failed => exact hf
  | exhausted => exact .exhausted _
  | exhausted_right => exact .exhausted_right _

/-- What is known of the places behind both matches. -/
theorem behind (h : Alike E R o o')
    (hR : ∀ v v' n n', o = .matched v n → o' = .matched v' n' → R n n' → R' n n') :
    Alike E R' o o' := by
  cases h with
  | matched hv hn => exact .matched hv (hR _ _ _ _ rfl rfl hn)
  | failed => exact .failed
  | exhausted => exact .exhausted _
  | exhausted_right => exact .exhausted_right _

/-- Values that are alike are alike in a weaker way too. -/
theorem imp {E' : α → α → Prop} (h : Alike E R o o') (hE : ∀ v v', E v v' → E' v v') :
    Alike E' R o o' := by
  cases h with
  | matched hv hn => exact .matched (hE _ _ hv) hn
  | failed => exact .failed
  | exhausted => exact .exhausted _
  | exhausted_right => exact .exhausted_right _

/-- Many of them, one behind the other. -/
theorem manyResult {read read' : Cursor → Outcome α}
    (hread : ∀ c c', R c c' → Alike E R (read c) (read' c'))
    (hlt : ∀ c v n, read c = .matched v n → c < n)
    (hlt' : ∀ c v n, read' c = .matched v n → c < n) {fuel fuel' : Nat} {c c' : Cursor}
    (h : R c c') (hfuel : c.rest.length < fuel) (hfuel' : c'.rest.length < fuel') :
    Alike (List.Forall₂ E) R (Grammar.manyResult read fuel c)
      (Grammar.manyResult read' fuel' c') := by
  induction fuel generalizing fuel' c c' with
  | zero => exact absurd hfuel (Nat.not_lt_zero _)
  | succ fuel ih =>
    obtain ⟨fuel', rfl⟩ := Nat.exists_eq_add_of_le' (Nat.zero_lt_of_lt hfuel')
    have hfirst := hread c c' h
    unfold Grammar.manyResult
    cases ho : read c with
    | exhausted => exact .exhausted _
    | failed =>
      rw [ho] at hfirst
      cases ho' : read' c' with
      | exhausted => exact .exhausted_right _
      | failed => exact .matched .nil h
      | matched v' n' => exact absurd ho' hfirst.ne_matched
    | matched v n =>
      rw [ho] at hfirst
      cases ho' : read' c' with
      | exhausted => exact .exhausted_right _
      | failed => exact absurd ho' hfirst.ne_failed
      | matched v' n' =>
        rw [ho'] at hfirst
        obtain ⟨hv, hn⟩ := hfirst.pair
        have hlength := Cursor.length_rest_lt (hlt c v n ho)
        have hlength' := Cursor.length_rest_lt (hlt' c' v' n' ho')
        have hmore := @ih fuel' n n' hn (by omega) (by omega)
        dsimp only
        generalize Grammar.manyResult read fuel n = m at hmore
        generalize Grammar.manyResult read' fuel' n' = m' at hmore
        cases hmore with
        | matched hvs hn => exact .matched (.cons hv hvs) hn
        | failed | exhausted => exact .exhausted _
        | exhausted_right => exact .exhausted_right _

end Alike

/-- **The same outcome**, unless one reading was given up. -/
abbrev Agree : Outcome α → Outcome α → Prop := Alike (· = ·) (· = ·)

section

variable {o o' : Outcome α}

/-- Readings that agree and do not give up are the same. -/
theorem Agree.eq (h : Agree o o') (ho : o ≠ .exhausted) (ho' : o' ≠ .exhausted) : o = o' := by
  cases h with
  | matched hv hn => rw [hv, hn]
  | failed => rfl
  | exhausted => exact absurd rfl ho
  | exhausted_right => exact absurd rfl ho'

/-- If single readings agree, so do their repetitions. -/
theorem Agree.manyResult {read read' : Cursor → Outcome α} (h : ∀ c, Agree (read c) (read' c))
    (fuel : Nat) (c : Cursor) :
    Agree (Grammar.manyResult read fuel c) (Grammar.manyResult read' fuel c) := by
  induction fuel generalizing c with
  | zero => exact .matched rfl rfl
  | succ fuel ih =>
    have hfirst := h c
    unfold Grammar.manyResult
    generalize read c = o at hfirst
    generalize read' c = o' at hfirst
    cases hfirst with
    | @matched v v' n n' hv hn =>
      subst hv hn
      have hmore := ih n
      dsimp only
      generalize Grammar.manyResult read fuel n = m at hmore
      generalize Grammar.manyResult read' fuel n = m' at hmore
      cases hmore with
      | matched hvs hn =>
        subst hvs hn
        exact .matched rfl rfl
      | failed | exhausted => exact .exhausted _
      | exhausted_right => exact .exhausted_right _
    | failed => exact .matched rfl rfl
    | exhausted => exact .exhausted _
    | exhausted_right => exact .exhausted_right _

end

end Outcome

/-! ## Forms -/

namespace Form

/-- Whether a form hands on where it began and what it matched. -/
def isSpanned : {α : Type} → Form Rule α → Bool
  | _, .spanned _ => true
  | _, _ => false

/-- Whether all spanned forms inside stand right under another value. -/
def isSheltered : {α : Type} → Form Rule α → Bool
  | _, .both a b | _, .either a b =>
    a.isSheltered && b.isSheltered && !a.isSpanned && !b.isSpanned
  | _, .many a | _, .perhaps a | _, .spanned a | _, .named a | _, .spaced _ a =>
    a.isSheltered && !a.isSpanned
  | _, .map _ a => a.isSheltered
  | _, _ => true

/-- **No value of the form tells what stands behind its text**: what is made of a spanned form has
only the position of its place. -/
def Blind : {α : Type} → Form Rule α → Prop
  | _, .both a b | _, .either a b => a.Blind ∧ b.Blind
  | _, .many a | _, .perhaps a | _, .spanned a | _, .named a | _, .spaced _ a => a.Blind
  | _, .map g (.spanned a) =>
    a.Blind ∧ ∀ c c' t v, c.position = c'.position → g (c, t, v) = g (c', t, v)
  | _, .map _ a => a.Blind
  | _, _ => True

/-- **The same value**, but for the text that stands behind a spanned form. -/
def Like : {α : Type} → Form Rule α → α → α → Prop
  | _, .spanned _ => fun v v' => v.1.position = v'.1.position ∧ v.2 = v'.2
  | _, _ => (· = ·)

/-- Values that are alike are the same where they do not tell places. -/
theorem eq_of_like {a : Form Rule α} (ha : a.isSpanned = false) {v v' : α} (h : a.Like v v') :
    v = v' := by
  cases a with
  | spanned => cases ha
  | _ => exact h

/-- A form is blind if what is made of its value is. -/
theorem Blind.inside {g : α → β} {a : Form Rule α} (h : (map g a).Blind) : a.Blind := by
  cases a with
  | spanned => exact h.1
  | _ => exact h

/-- A form that does not look at its value reads alike at both places. -/
theorem Blind.map_eq {g : α → β} {a : Form Rule α} (h : (map g a).Blind) {v v' : α}
    (hv : a.Like v v') : g v = g v' := by
  cases a with
  | spanned =>
    obtain ⟨c, t, w⟩ := v
    obtain ⟨c', t', w'⟩ := v'
    obtain ⟨hposition, hrest⟩ := hv
    cases hrest
    exact h.2 c c' t w hposition
  | _ => exact congrArg g hv

end Form

/-! ## One place -/

/-- A form is read in the same way by rules that are. -/
theorem Form.agree {call call' : {α : Type} → Rule α → Spacing → Cursor → Attempt α}
    (hcall : ∀ {α : Type} (r : Rule α) (s : Spacing) (c : Cursor),
      Outcome.Agree (call r s c).outcome (call' r s c).outcome)
    {α : Type} (f : Form Rule α) (s : Spacing) (c : Cursor) :
    Outcome.Agree (f.result call s c) (f.result call' s c) := by
  induction f generalizing s c with
  | one p =>
    rw [result_one, result_one]
    split
    · exact .failed
    · split
      · exact .matched rfl rfl
      · exact .failed
  | word w =>
    rw [result_word, result_word]
    split
    · exact .matched rfl rfl
    · exact .failed
  | finish =>
    rw [result_finish, result_finish]
    split
    · exact .matched rfl rfl
    · exact .failed
  | rule r => exact hcall r s c
  | both a b iha ihb =>
    rw [result_both, result_both]
    refine (iha s c).andThen fun v v' n n' _ _ hv hn => ?_
    subst hv hn
    exact (ihb s (s.skip n)).map fun _ _ => congrArg _
  | either a b iha ihb =>
    rw [result_either, result_either]
    exact (iha s c).orElse (ihb s c)
  | many a ih =>
    rw [result_many, result_many]
    refine .orElse ((ih s c).andThen fun v v' n n' _ _ hv hn => ?_) (.matched rfl rfl)
    subst hv hn
    exact (Outcome.Agree.manyResult (fun m => ih s (s.skip m)) _ n).map fun _ _ => congrArg _
  | perhaps a ih =>
    rw [result_perhaps, result_perhaps]
    exact ((ih s c).map fun _ _ => congrArg _).orElse (.matched rfl rfl)
  | «unless» a ih =>
    have hinside := ih .quiet c
    rw [result_unless, result_unless]
    generalize a.result call .quiet c = o at hinside
    generalize a.result call' .quiet c = o' at hinside
    cases hinside with
    | matched => exact .failed
    | failed => exact .matched rfl rfl
    | exhausted => exact .exhausted _
    | exhausted_right => exact .exhausted_right _
  | map g a ih =>
    rw [result_map, result_map]
    exact (ih s c).map fun _ _ => congrArg _
  | spanned a ih =>
    rw [result_spanned, result_spanned]
    refine (ih s c).andThen fun v v' n n' _ _ hv hn => ?_
    subst hv hn
    exact .matched rfl rfl
  | named a ih =>
    rw [result_named, result_named]
    exact ih s c
  | spaced s' a ih => exact ih s' c

/-- **How deep the rules may be followed makes no difference**, if it is deep enough. -/
theorem readRule_agree (form : {α : Type} → Rule α → Form Rule α) (fuel fuel' : Nat) {α : Type}
    (r : Rule α) (s : Spacing) (c : Cursor) :
    Outcome.Agree (readRule form fuel r s c).outcome (readRule form fuel' r s c).outcome := by
  induction fuel generalizing fuel' α s c with
  | zero => exact .exhausted _
  | succ fuel ih =>
    cases fuel' with
    | zero => exact .exhausted_right _
    | succ fuel' => exact (form r).agree (fun r s c => ih fuel' r s c) s c

end ScriptTrace.Grammar
