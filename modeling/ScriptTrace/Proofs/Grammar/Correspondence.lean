import ScriptTrace.Proofs.Grammar.Abreast

/-!
# Proofs/Grammar/Correspondence — values of two readings

Two values of a form *correspond* if they are made in the same way of parts that do: of the same
characters, of values of rules that correspond, and of places and texts that do.  Where the same
text stands at corresponding places, corresponding values are read (`Form.alike_elsewhere`).
-/

namespace ScriptTrace.Grammar

variable {Rule : Type → Type} {α β : Type}

/-- **What corresponds**: places, the texts of spanned forms, and the values of rules. -/
structure Correspondence (Rule : Type → Type) where
  position : Position → Position → Prop
  text : List Char → List Char → Prop
  value : {α : Type} → Rule α → α → α → Prop

/-- **Values of a form that correspond.**  Inside a quiet form, texts are the same. -/
def Form.Corresponds (K : Correspondence Rule) :
    {α : Type} → Form Rule α → Spacing → α → α → Prop
  | _, .one _, _ => (· = ·)
  | _, .word _, _ | _, .finish, _ | _, .unless _, _ => fun _ _ => True
  | _, .rule r, _ => K.value r
  | _, .both a b, s => fun v v' => a.Corresponds K s v.1 v'.1 ∧ b.Corresponds K s v.2 v'.2
  | _, .either a b, s => fun v v' => a.Corresponds K s v v' ∨ b.Corresponds K s v v'
  | _, .many a, s => List.Forall₂ (a.Corresponds K s)
  | _, .perhaps a, s => Option.Rel (a.Corresponds K s)
  | _, .map g a, s => fun w w' => ∃ v v', a.Corresponds K s v v' ∧ g v = w ∧ g v' = w'
  | _, .spanned a, s => fun v v' => K.position v.1.position v'.1.position ∧
    (if s = .quiet then v.2.1 = v'.2.1 else K.text v.2.1 v'.2.1) ∧ a.Corresponds K s v.2.2 v'.2.2
  | _, .named a, s => a.Corresponds K s
  | _, .spaced s a, _ => a.Corresponds K s

namespace Correspondence

/-- Places correspond behind the same character, and every text corresponds to itself. -/
structure Steady (K : Correspondence Rule) : Prop where
  step : ∀ {p p' : Position} (x : Char), K.position p p' → K.position (p.step x) (p'.step x)
  text : ∀ t, K.text t t

/-- **The same text at corresponding places.** -/
structure Elsewhere (K : Correspondence Rule) (c c' : Cursor) : Prop where
  rest_eq : c.rest = c'.rest
  position : K.position c.position c'.position

variable {K : Correspondence Rule} (hK : K.Steady) {c c' : Cursor}
include hK

/-- Places that correspond do so one character on. -/
theorem Elsewhere.step (h : K.Elsewhere c c') : K.Elsewhere c.step c'.step := by
  obtain ⟨hrest, hposition⟩ := h
  cases hc : c.rest with
  | nil =>
    rw [Cursor.step_of_nil hc, Cursor.step_of_nil (hrest.symm.trans hc)]
    exact ⟨hrest, hposition⟩
  | cons x rest =>
    rw [Cursor.step_of_cons hc, Cursor.step_of_cons (hrest.symm.trans hc)]
    exact ⟨rfl, hK.step x hposition⟩

theorem Elsewhere.advance (h : K.Elsewhere c c') (k : Nat) :
    K.Elsewhere (c.advance k) (c'.advance k) := by
  induction k generalizing c c' with
  | zero => exact h
  | succ k ih => exact ih (h.step hK)

/-- Places that correspond do so behind their space. -/
theorem Elsewhere.skip (h : K.Elsewhere c c') (s : Spacing) :
    K.Elsewhere (s.skip c) (s.skip c') := by
  cases s with
  | free =>
    simp only [Spacing.skip, Cursor.skipBlanks, ← h.rest_eq]
    exact h.advance hK _
  | tight | quiet => exact h

end Correspondence

/-! ## Equal values -/

/-- Values that correspond if they are equal. -/
def Correspondence.same (Rule : Type → Type) : Correspondence Rule :=
  ⟨(· = ·), (· = ·), fun _ => (· = ·)⟩

/-- **Values of a blind form that correspond to themselves** are the same. -/
theorem Form.like_of_corresponds {α : Type} {f : Form Rule α} (hshelter : f.isSheltered = true)
    (hblind : f.Blind) {s : Spacing} {v v' : α} (h : f.Corresponds (.same Rule) s v v') :
    f.Like v v' := by
  induction f generalizing s with
  | one p => exact h
  | word w => rfl
  | finish => rfl
  | rule r => exact h
  | both a b iha ihb =>
    simp only [isSheltered, Bool.and_eq_true, Bool.not_eq_true'] at hshelter
    obtain ⟨⟨⟨hsa, hsb⟩, hplain⟩, hplain'⟩ := hshelter
    exact Prod.ext (eq_of_like hplain (iha hsa hblind.1 h.1))
      (eq_of_like hplain' (ihb hsb hblind.2 h.2))
  | either a b iha ihb =>
    simp only [isSheltered, Bool.and_eq_true, Bool.not_eq_true'] at hshelter
    obtain ⟨⟨⟨hsa, hsb⟩, hplain⟩, hplain'⟩ := hshelter
    exact h.elim (fun h => eq_of_like hplain (iha hsa hblind.1 h))
      fun h => eq_of_like hplain' (ihb hsb hblind.2 h)
  | many a ih =>
    simp only [isSheltered, Bool.and_eq_true, Bool.not_eq_true'] at hshelter
    have hsame := List.Forall₂.imp (fun _ _ h => eq_of_like hshelter.2 (ih hshelter.1 hblind h)) h
    rwa [List.forall₂_eq_eq_eq] at hsame
  | perhaps a ih =>
    simp only [isSheltered, Bool.and_eq_true, Bool.not_eq_true'] at hshelter
    cases h with
    | some h => exact congrArg _ (eq_of_like hshelter.2 (ih hshelter.1 hblind h))
    | none => rfl
  | «unless» a ih => rfl
  | map g a ih =>
    obtain ⟨w, w', hw, rfl, rfl⟩ := h
    exact hblind.map_eq (ih hshelter hblind.inside hw)
  | spanned a ih =>
    simp only [isSheltered, Bool.and_eq_true, Bool.not_eq_true'] at hshelter
    obtain ⟨hposition, htext, hv⟩ := h
    exact ⟨hposition, Prod.ext (by simpa [Correspondence.same] using htext)
      (eq_of_like hshelter.2 (ih hshelter.1 hblind hv))⟩
  | named a ih =>
    simp only [isSheltered, Bool.and_eq_true, Bool.not_eq_true'] at hshelter
    exact eq_of_like hshelter.2 (ih hshelter.1 hblind h)
  | spaced s' a ih =>
    simp only [isSheltered, Bool.and_eq_true, Bool.not_eq_true'] at hshelter
    exact eq_of_like hshelter.2 (ih hshelter.1 hblind h)

/-! ## The same text -/

/-- Many of them where the same fuel is left. -/
theorem Outcome.Alike.manyResult_same {E : α → α → Prop} {R : Cursor → Cursor → Prop}
    {read read' : Cursor → Outcome α}
    (hread : ∀ c c', R c c' → Alike E R (read c) (read' c')) (fuel : Nat) {c c' : Cursor}
    (h : R c c') :
    Alike (List.Forall₂ E) R (Grammar.manyResult read fuel c)
      (Grammar.manyResult read' fuel c') := by
  induction fuel generalizing c c' with
  | zero => exact .matched .nil h
  | succ fuel ih =>
    have hfirst := hread c c' h
    unfold Grammar.manyResult
    generalize read c = o at hfirst
    generalize read' c' = o' at hfirst
    cases hfirst with
    | @matched v v' n n' hv hn =>
      have hmore := ih hn
      dsimp only
      generalize Grammar.manyResult read fuel n = m at hmore
      generalize Grammar.manyResult read' fuel n' = m' at hmore
      cases hmore with
      | matched hvs hn => exact .matched (.cons hv hvs) hn
      | failed | exhausted => exact .exhausted _
      | exhausted_right => exact .exhausted_right _
    | failed => exact .matched .nil h
    | exhausted => exact .exhausted _
    | exhausted_right => exact .exhausted_right _

/-- **The same text is read in the same way at corresponding places**, with corresponding values. -/
theorem Form.alike_elsewhere {call call' : {α : Type} → Rule α → Spacing → Cursor → Attempt α}
    {K : Correspondence Rule} (hK : K.Steady) (hcall : Advancing call) (hcall' : Advancing call')
    (hrules : ∀ {α : Type} (r : Rule α) (s : Spacing) ⦃c c' : Cursor⦄, K.Elsewhere c c' →
      Outcome.Alike (K.value r) K.Elsewhere (call r s c).outcome (call' r s c').outcome)
    {α : Type} (f : Form Rule α) (s : Spacing) {c c' : Cursor} (h : K.Elsewhere c c') :
    Outcome.Alike (f.Corresponds K s) K.Elsewhere (f.result call s c) (f.result call' s c') := by
  induction f generalizing s c c' with
  | one p =>
    rw [result_one, result_one, ← h.rest_eq]
    split
    · exact .failed
    · split
      · exact .matched rfl (h.step hK)
      · exact .failed
  | word w =>
    rw [result_word, result_word, Cursor.after?, Cursor.after?, ← h.rest_eq]
    cases w.isPrefixOf c.rest with
    | true => exact .matched trivial (h.advance hK _)
    | false => exact .failed
  | finish =>
    rw [result_finish, result_finish, ← h.rest_eq]
    split
    · exact .matched trivial h
    · exact .failed
  | rule r => exact hrules r s h
  | both a b iha ihb =>
    rw [result_both, result_both]
    exact (iha s h).andThen fun _ _ _ _ _ _ hv hn =>
      (ihb s (hn.skip hK s)).map fun _ _ hw => ⟨hv, hw⟩
  | either a b iha ihb =>
    rw [result_either, result_either]
    exact ((iha s h).imp fun _ _ => .inl).orElse ((ihb s h).imp fun _ _ => .inr)
  | many a ih =>
    rw [result_many, result_many]
    refine .orElse ((ih s h).andThen fun _ _ m m' _ _ hv hm => ?_) (.matched .nil h)
    rw [hm.rest_eq]
    exact (Outcome.Alike.manyResult_same (fun _ _ h => ih s (h.skip hK s)) _ hm).map
      fun _ _ hvs => .cons hv hvs
  | perhaps a ih =>
    rw [result_perhaps, result_perhaps]
    exact ((ih s h).map fun _ _ => .some).orElse (.matched .none h)
  | «unless» a ih =>
    have hinside := ih .quiet h
    rw [result_unless, result_unless]
    generalize a.result call .quiet c = o at hinside
    generalize a.result call' .quiet c' = o' at hinside
    cases hinside with
    | matched => exact .failed
    | failed => exact .matched trivial h
    | exhausted => exact .exhausted _
    | exhausted_right => exact .exhausted_right _
  | map g a ih =>
    rw [result_map, result_map]
    exact (ih s h).map fun v v' hv => ⟨v, v', hv, rfl, rfl⟩
  | spanned a ih =>
    rw [result_spanned, result_spanned]
    refine (ih s h).andThen fun v v' n n' hm hm' hv hn => .matched ⟨h.position, ?_, hv⟩ hn
    have htext := Cursor.textTo_congr (le_of_matched hcall hm) (le_of_matched hcall' hm')
      h.rest_eq hn.rest_eq
    split
    · exact htext
    · rw [htext]
      exact hK.text _
  | named a ih =>
    rw [result_named, result_named]
    exact ih s h
  | spaced s' a ih => exact ih s' h

end ScriptTrace.Grammar
