import ScriptTrace.Proofs.Grammar.Reading

/-!
# Proofs/Grammar/Elsewhere — the same text at another place

What a form takes depends on the text that is left and on nothing else: where the same text stands
at another place, the same of it is left behind the form, also if the rules are followed deeper
there (`readRule_sameEnd`).  A form that never takes a character `a` does not look behind the first
`a`, so in a text up to there it takes the same whatever character of this kind stands behind the
text (`Form.related_front`).
-/

namespace ScriptTrace.Grammar

variable {Rule : Type → Type} {α β : Type}

namespace Cursor

variable {c c' n n' : Cursor}

theorem rest_skip (s : Spacing) (h : c.rest = c'.rest) : (s.skip c).rest = (s.skip c').rest := by
  cases s with
  | free => simp [Spacing.skip, skipBlanks, h]
  | tight | quiet => exact h

/-- The text up to a place is what stands in front of the text behind it. -/
theorem textTo_congr (hc : c ≤ n) (hc' : c' ≤ n') (h : c.rest = c'.rest) (hn : n.rest = n'.rest) :
    c.textTo n = c'.textTo n' := by
  have htext : c.textTo n ++ n.rest = c'.textTo n' ++ n.rest := by
    rw [textTo_append hc, hn, textTo_append hc', h]
  exact List.append_cancel_right htext

end Cursor

/-! ## Outcomes -/

namespace Outcome

/-- **Two outcomes with related places** behind their matches, unless the first reading was given
up. -/
inductive Related (R : Cursor → Cursor → Prop) : Outcome α → Outcome α → Prop
  | matched {v v' : α} {n n' : Cursor} (h : R n n') : Related R (.matched v n) (.matched v' n')
  | failed : Related R .failed .failed
  | exhausted (o : Outcome α) : Related R .exhausted o

namespace Related

variable {R : Cursor → Cursor → Prop} {o o' : Outcome α} {v v' : α} {n n' : Cursor}

theorem behind (h : Related R (.matched v n) (.matched v' n')) : R n n' := by
  cases h with
  | matched h => exact h

theorem exists_matched (h : Related R (.matched v n) o') :
    ∃ v' n', o' = .matched v' n' ∧ R n n' := by
  cases h with
  | matched h => exact ⟨_, _, rfl, h⟩

theorem eq_failed (h : Related R .failed o') : o' = .failed := by
  cases h with
  | failed => rfl

/-- Readings that are related go on to be related. -/
theorem andThen {f f' : α → Cursor → Outcome β} (h : Related R o o')
    (hf : ∀ ⦃v v' n n'⦄, R n n' → Related R (f v n) (f' v' n')) :
    Related R (o.andThen f) (o'.andThen f') := by
  cases h with
  | matched h => exact hf h
  | failed => exact .failed
  | exhausted => exact .exhausted _

theorem imp {R' : Cursor → Cursor → Prop} (h : Related R o o') (hR : ∀ n n', R n n' → R' n n') :
    Related R' o o' := by
  cases h with
  | matched h => exact .matched (hR _ _ h)
  | failed => exact .failed
  | exhausted => exact .exhausted _

theorem map {f f' : α → β} (h : Related R o o') : Related R (o.map f) (o'.map f') :=
  h.andThen fun _ _ _ _ h => .matched h

theorem orElse {f f' : Unit → Outcome α} (h : Related R o o') (hf : Related R (f ()) (f' ())) :
    Related R (o.orElse f) (o'.orElse f') := by
  cases h with
  | matched h => exact .matched h
  | failed => exact hf
  | exhausted => exact .exhausted _

/-- One more match in front of many. -/
theorem manyResult_succ {read read' : Cursor → Outcome α} {fuel fuel' : Nat} {c c' : Cursor}
    (hc : R c c') (h : Related R (read c) (read' c'))
    (hmore : ∀ ⦃v v' n n'⦄, read c = .matched v n → read' c' = .matched v' n' → R n n' →
      Related R (manyResult read fuel n) (manyResult read' fuel' n')) :
    Related R (manyResult read (fuel + 1) c) (manyResult read' (fuel' + 1) c') := by
  unfold manyResult
  cases hread : read c with
  | failed =>
    rw [hread] at h
    rw [h.eq_failed]
    exact .matched hc
  | exhausted => exact .exhausted _
  | matched v n =>
    rw [hread] at h
    obtain ⟨v', n', hread', hn⟩ := h.exists_matched
    have hmore := hmore hread hread' hn
    rw [hread']
    dsimp only
    generalize manyResult read fuel n = m at hmore
    generalize manyResult read' fuel' n' = m' at hmore
    cases hmore with
    | matched hn => exact .matched hn
    | failed | exhausted => exact .exhausted _

end Related

/-- **Two outcomes that leave the same text.** -/
abbrev SameEnd : Outcome α → Outcome α → Prop := Related fun n n' => n.rest = n'.rest

/-- Repetitions end where single readings do. -/
theorem SameEnd.manyResult {read read' : Cursor → Outcome α}
    (hread : ∀ c c', c.rest = c'.rest → SameEnd (read c) (read' c')) (fuel : Nat) {c c' : Cursor}
    (h : c.rest = c'.rest) :
    SameEnd (Grammar.manyResult read fuel c) (Grammar.manyResult read' fuel c') := by
  induction fuel generalizing c c' with
  | zero => exact .matched h
  | succ fuel ih => exact .manyResult_succ h (hread c c' h) fun _ _ _ _ _ _ hn => ih hn

end Outcome

/-! ## Forms and rules -/

/-- Rules that leave the same text wherever they are read. -/
def Elsewhere (call call' : {α : Type} → Rule α → Spacing → Cursor → Attempt α) : Prop :=
  ∀ {α : Type} (r : Rule α) (s : Spacing) ⦃c c' : Cursor⦄, c.rest = c'.rest →
    Outcome.SameEnd (call r s c).outcome (call' r s c').outcome

/-- **A form leaves the same text behind wherever it is read.** -/
theorem Form.sameEnd {call call' : {α : Type} → Rule α → Spacing → Cursor → Attempt α}
    (hcall : Elsewhere call call') {α : Type} (f : Form Rule α) (s : Spacing) {c c' : Cursor}
    (h : c.rest = c'.rest) : Outcome.SameEnd (f.result call s c) (f.result call' s c') := by
  induction f generalizing s c c' with
  | one p =>
    rw [result_one, result_one, ← h]
    split
    · exact .failed
    · split
      · exact .matched (by simp [h])
      · exact .failed
  | word w =>
    rw [result_word, result_word, Cursor.after?, Cursor.after?, ← h]
    cases w.isPrefixOf c.rest with
    | true => exact .matched (by simp [h])
    | false => exact .failed
  | finish =>
    rw [result_finish, result_finish, ← h]
    split
    · exact .matched h
    · exact .failed
  | rule r => exact hcall r s h
  | both a b iha ihb =>
    rw [result_both, result_both]
    exact (iha s h).andThen fun _ _ _ _ hn => (ihb s (Cursor.rest_skip s hn)).map
  | either a b iha ihb =>
    rw [result_either, result_either]
    exact (iha s h).orElse (ihb s h)
  | many a ih =>
    rw [result_many, result_many]
    refine .orElse ((ih s h).andThen fun _ _ m m' hm => ?_) (.matched h)
    rw [hm]
    exact (Outcome.SameEnd.manyResult (fun _ _ h => ih s (Cursor.rest_skip s h)) _ hm).map
  | perhaps a ih =>
    rw [result_perhaps, result_perhaps]
    exact (ih s h).map.orElse (.matched h)
  | «unless» a ih =>
    have hinside := ih .quiet h
    rw [result_unless, result_unless]
    generalize a.result call .quiet c = o at hinside
    generalize a.result call' .quiet c' = o' at hinside
    cases hinside with
    | matched => exact .failed
    | failed => exact .matched h
    | exhausted => exact .exhausted _
  | map g a ih =>
    rw [result_map, result_map]
    exact (ih s h).map
  | spanned a ih =>
    rw [result_spanned, result_spanned]
    exact (ih s h).andThen fun _ _ _ _ hn => .matched hn
  | named a ih =>
    rw [result_named, result_named]
    exact ih s h
  | spaced s' a ih => exact ih s' h

/-- **The same text is read in the same way** at another place and with more fuel. -/
theorem readRule_sameEnd (form : {α : Type} → Rule α → Form Rule α) {fuel fuel' : Nat}
    (hfuel : fuel ≤ fuel') :
    Elsewhere (fun r s c => readRule form fuel r s c) (fun r s c => readRule form fuel' r s c) := by
  induction fuel generalizing fuel' with
  | zero => exact fun _ _ _ _ _ => .exhausted _
  | succ fuel ih =>
    obtain ⟨fuel', rfl⟩ := Nat.exists_eq_add_of_le' (Nat.zero_lt_of_lt hfuel)
    exact fun r s _ _ h => (form r).sameEnd (ih (Nat.le_of_succ_le_succ hfuel)) s h

/-! ## Up to a boundary -/

section

/-- Whether a form refuses a character wherever it looks for one.  Its repetitions take characters,
and it calls no rules. -/
def Form.avoids (x : Char) : {α : Type} → Form Rule α → Bool
  | _, .one p => !p x
  | _, .word w => !w.contains x
  | _, .both a b => a.avoids x && b.avoids x
  | _, .either a b => a.avoids x && b.avoids x
  | _, .many a => a.avoids x && a.consumes
  | _, .perhaps a | _, .unless a | _, .map _ a | _, .spanned a | _, .named a => a.avoids x
  | _, .finish | _, .rule _ | _, .spaced _ _ => false

/-- **The same text in front** of two texts. -/
def Cursor.Front (A B : List Char) (c c' : Cursor) : Prop :=
  ∃ u, c.rest = u ++ A ∧ c'.rest = u ++ B

theorem Cursor.Front.step {x : Char} {u A B : List Char} {c c' : Cursor} (h : c.rest = x :: u ++ A)
    (h' : c'.rest = x :: u ++ B) : Front A B c.step c'.step := ⟨u, by simp [h], by simp [h']⟩

/-- A word without the character behind a text stands within the text. -/
theorem prefix_front {a : Char} {w u A : List Char} (ha : a ∉ w) :
    w <+: u ++ a :: A ↔ w <+: u := by
  refine ⟨fun h => ?_, fun h => h.trans (List.prefix_append u _)⟩
  rcases List.prefix_or_prefix_of_prefix h (List.prefix_append u (a :: A)) with h' | ⟨t, rfl⟩
  · exact h'
  · rw [List.prefix_append_right_inj] at h
    cases t with
    | nil => simp
    | cons y t =>
      obtain ⟨rfl, -⟩ := List.cons_prefix_cons.mp h
      exact absurd (by simp) ha

variable {call call' : {α : Type} → Rule α → Spacing → Cursor → Attempt α} {a b : Char}
  {A B : List Char}

/-- Repetitions stay in front of the boundary. -/
theorem Outcome.Related.manyResult_front {α : Type} {read read' : Cursor → Outcome α}
    (hread : ∀ c c', Cursor.Front A B c c' → Related (Cursor.Front A B) (read c) (read' c'))
    (hlt : ∀ c v n, read c = .matched v n → c < n)
    (hlt' : ∀ c v n, read' c = .matched v n → c < n) {fuel fuel' : Nat} {c c' : Cursor}
    (h : Cursor.Front A B c c') (hfuel : c.rest.length < fuel) (hfuel' : c'.rest.length < fuel') :
    Related (Cursor.Front A B) (manyResult read fuel c) (manyResult read' fuel' c') := by
  induction fuel generalizing fuel' c c' with
  | zero => omega
  | succ fuel ih =>
    obtain ⟨fuel', rfl⟩ := Nat.exists_eq_add_of_le' (Nat.zero_lt_of_lt hfuel')
    refine .manyResult_succ h (hread c c' h) fun v v' n n' hv hv' hn => ih hn ?_ ?_
    · have hlength := Cursor.length_rest_lt (hlt c v n hv)
      omega
    · have hlength := Cursor.length_rest_lt (hlt' c' v' n' hv')
      omega

/-- **Up to a boundary a form takes the same**, whatever stands behind it. -/
theorem Form.related_front (hcall : Advancing call) (hcall' : Advancing call') {α : Type}
    (f : Form Rule α) (ha : f.avoids a = true) (hb : f.avoids b = true) {c c' : Cursor}
    (h : Cursor.Front (a :: A) (b :: B) c c') :
    Outcome.Related (Cursor.Front (a :: A) (b :: B)) (f.result call .quiet c)
      (f.result call' .quiet c') := by
  induction f generalizing c c' with
  | one p =>
    obtain ⟨u, hu, hu'⟩ := h
    simp only [avoids, Bool.not_eq_true'] at ha hb
    rw [result_one, result_one, hu, hu']
    cases u with
    | nil => simp [ha, hb, Outcome.Related.failed]
    | cons x u =>
      dsimp only [List.cons_append]
      split
      · exact .matched (.step hu hu')
      · exact .failed
  | word w =>
    obtain ⟨u, hu, hu'⟩ := h
    simp only [avoids, Bool.not_eq_true', List.contains_eq_mem, decide_eq_false_iff_not] at ha hb
    rw [result_word, result_word]
    by_cases hw : w <+: u
    · obtain ⟨t, rfl⟩ := hw
      rw [Cursor.after?_of_append (hu.trans (List.append_assoc ..)),
        Cursor.after?_of_append (hu'.trans (List.append_assoc ..))]
      exact .matched ⟨t, by simp [hu], by simp [hu']⟩
    · rw [Cursor.after?_eq_none.mpr (by rwa [hu, prefix_front ha]),
        Cursor.after?_eq_none.mpr (by rwa [hu', prefix_front hb])]
      exact .failed
  | finish | rule | spaced => cases ha
  | both f g ihf ihg =>
    simp only [avoids, Bool.and_eq_true] at ha hb
    rw [result_both, result_both]
    exact (ihf ha.1 hb.1 h).andThen fun _ _ _ _ hn => (ihg ha.2 hb.2 hn).map
  | either f g ihf ihg =>
    simp only [avoids, Bool.and_eq_true] at ha hb
    rw [result_either, result_either]
    exact (ihf ha.1 hb.1 h).orElse (ihg ha.2 hb.2 h)
  | many f ih =>
    simp only [avoids, Bool.and_eq_true] at ha hb
    rw [result_many_eq hcall ha.2 rfl (Nat.lt_succ_self _),
      result_many_eq hcall' ha.2 rfl (Nat.lt_succ_self _)]
    refine .manyResult_front (fun _ _ h => ih ha.1 hb.1 h) ?_ ?_ h (Nat.lt_succ_self _)
      (Nat.lt_succ_self _)
    · exact fun c v n hv => lt_of_matched hcall hv ha.2
    · exact fun c v n hv => lt_of_matched hcall' hv ha.2
  | perhaps f ih =>
    rw [result_perhaps, result_perhaps]
    exact (ih ha hb h).map.orElse (.matched h)
  | «unless» f ih =>
    have hinside := ih ha hb h
    rw [result_unless, result_unless]
    generalize f.result call .quiet c = o at hinside
    generalize f.result call' .quiet c' = o' at hinside
    cases hinside with
    | matched => exact .failed
    | failed => exact .matched h
    | exhausted => exact .exhausted _
  | map g f ih =>
    rw [result_map, result_map]
    exact (ih ha hb h).map
  | spanned f ih =>
    rw [result_spanned, result_spanned]
    exact (ih ha hb h).andThen fun _ _ _ _ hn => .matched hn
  | named f ih =>
    rw [result_named, result_named]
    exact ih ha hb h

/-- **A character that a form never takes** is not in the text of a match. -/
theorem Form.not_mem_of_avoids (hcall : Advancing call) {α : Type} {f : Form Rule α}
    (ha : f.avoids a = true) {c n : Cursor} {v : α} (h : f.result call .quiet c = .matched v n) :
    a ∉ c.textTo n := by
  intro hmem
  obtain ⟨u, t, htext⟩ := List.append_of_mem hmem
  have hrest : c.rest = u ++ a :: (t ++ n.rest) := by
    rw [← Cursor.textTo_append (f.le_of_matched hcall h), htext, List.append_assoc,
      List.cons_append]
  have hrelated := f.related_front hcall hcall ha ha ⟨u, hrest, hrest⟩
  rw [h] at hrelated
  obtain ⟨u', hn, -⟩ := hrelated.behind
  have hlength := congrArg List.length hn
  simp only [List.length_append, List.length_cons] at hlength
  omega

end

end ScriptTrace.Grammar
