import ScriptTrace.Proofs.Grammar.Cursor

/-!
# Proofs/Grammar/Reading — what comes of reading a form

`Form.result` is the outcome of an attempt without the note of how far it got, with one equation for
each way to build a form.  A match leads on in the text (`Form.le_of_matched`), and further
on if the form takes a character in any case (`Form.lt_of_matched`), which is computed from
the form alone.

In the grammars here the rules that a rule may call where it starts have a smaller rank.  Such rules
are never read deeper than there is text, and enough fuel is never used up
(`readRule_ne_exhausted`).

`Runs read c vs n` says that `read` matches again and again from `c` on, with the values `vs`, up to
`n`.  A run can be put together from either end; where it cannot go on it is what `Form.many` reads
(`Form.many_of_runs`), and all that it reads is such a run (`Form.runs_of_many`).
-/

namespace ScriptTrace.Grammar

variable {Rule : Type → Type} {α β : Type}

/-! ## Outcomes -/

namespace Outcome

/-- Goes on behind a match. -/
def andThen (o : Outcome α) (f : α → Cursor → Outcome β) : Outcome β :=
  match o with
  | .matched v n => f v n
  | .failed => .failed
  | .exhausted => .exhausted

/-- Tries something else after a failure. -/
def orElse (o : Outcome α) (f : Unit → Outcome α) : Outcome α :=
  match o with
  | .failed => f ()
  | _ => o

/-- An outcome whose value is put to use. -/
def map (g : α → β) (o : Outcome α) : Outcome β := o.andThen fun v n => .matched (g v) n

@[simp] theorem andThen_matched (v : α) (n : Cursor) (f : α → Cursor → Outcome β) :
    (matched v n).andThen f = f v n := rfl

@[simp] theorem andThen_failed (f : α → Cursor → Outcome β) : failed.andThen f = .failed := rfl

@[simp] theorem andThen_exhausted (f : α → Cursor → Outcome β) :
    exhausted.andThen f = .exhausted := rfl

@[simp] theorem orElse_matched (v : α) (n : Cursor) (f : Unit → Outcome α) :
    (matched v n).orElse f = .matched v n := rfl

@[simp] theorem orElse_failed (f : Unit → Outcome α) : failed.orElse f = f () := rfl

@[simp] theorem orElse_exhausted (f : Unit → Outcome α) : exhausted.orElse f = .exhausted := rfl

@[simp] theorem map_matched (g : α → β) (v : α) (n : Cursor) :
    (matched v n).map g = .matched (g v) n := rfl

@[simp] theorem map_failed (g : α → β) : failed.map g = .failed := rfl

@[simp] theorem map_exhausted (g : α → β) : exhausted.map g = .exhausted := rfl

/-- Two readings match one behind the other if both do. -/
theorem andThen_eq_matched {o : Outcome α} {f : α → Cursor → Outcome β} {w : β} {n : Cursor} :
    o.andThen f = .matched w n ↔ ∃ v m, o = .matched v m ∧ f v m = .matched w n := by
  cases o with
  | matched v m => exact ⟨fun h => ⟨v, m, rfl, h⟩, fun ⟨_, _, ho, h⟩ => by cases ho; exact h⟩
  | failed | exhausted => simp

/-- A changed value comes of a reading at the same place. -/
theorem map_eq_matched {o : Outcome α} {g : α → β} {w : β} {n : Cursor} :
    o.map g = .matched w n ↔ ∃ v, o = .matched v n ∧ g v = w := by
  cases o with
  | matched v m =>
    simp only [map_matched, matched.injEq]
    exact ⟨fun ⟨h, hm⟩ => ⟨v, ⟨rfl, hm⟩, h⟩, fun ⟨_, ⟨hv, hm⟩, h⟩ => ⟨hv ▸ h, hm⟩⟩
  | failed | exhausted => simp

theorem map_eq_failed {o : Outcome α} {g : α → β} : o.map g = .failed ↔ o = .failed := by
  cases o <;> simp

theorem orElse_eq_matched {o : Outcome α} {f : Unit → Outcome α} {v : α} {n : Cursor} :
    o.orElse f = .matched v n ↔ o = .matched v n ∨ o = .failed ∧ f () = .matched v n := by
  cases o <;> simp

end Outcome

@[simp] theorem Attempt.outcome_success (v : α) (n : Cursor) :
    (Attempt.success v n).outcome = .matched v n := rfl

@[simp] theorem Attempt.outcome_failure : (Attempt.failure : Attempt α).outcome = .failed := rfl

@[simp] theorem Attempt.outcome_andThen (a : Attempt α) (f : α → Cursor → Attempt β) :
    (a.andThen f).outcome = a.outcome.andThen fun v n => (f v n).outcome := by
  unfold Attempt.andThen
  split <;> simp [*]

@[simp] theorem Attempt.outcome_orElse (a : Attempt α) (f : Unit → Attempt α) :
    (a.orElse f).outcome = a.outcome.orElse fun u => (f u).outcome := by
  unfold Attempt.orElse
  split
  · simp [*]
  · rename_i h
    cases ho : a.outcome <;> simp_all

@[simp] theorem Attempt.outcome_map (g : α → β) (a : Attempt α) :
    (a.map g).outcome = a.outcome.map g := Attempt.outcome_andThen ..

@[simp] theorem Attempt.outcome_noteFailure (a : Attempt α) (offset : Nat) :
    (a.noteFailure offset).outcome = a.outcome := by
  unfold Attempt.noteFailure
  split <;> simp [*]

/-- Matches one behind the other, as `readMany` finds them. -/
def manyResult (read : Cursor → Outcome α) : Nat → Cursor → Outcome (List α)
  | 0, c => .matched [] c
  | fuel + 1, c =>
    match read c with
    | .matched v n =>
      match manyResult read fuel n with
      | .matched vs last => .matched (v :: vs) last
      | _ => .exhausted
    | .failed => .matched [] c
    | .exhausted => .exhausted

/-- The outcome of repeated attempts is the repetition of their outcomes. -/
theorem outcome_readMany (read : Cursor → Attempt α) (fuel : Nat) (c : Cursor) :
    (readMany read fuel c).outcome = manyResult (fun c => (read c).outcome) fuel c := by
  induction fuel generalizing c with
  | zero => rfl
  | succ fuel ih =>
    simp only [readMany, manyResult]
    cases (read c).outcome with
    | matched v n =>
      dsimp only
      rw [← ih]
      cases (readMany read fuel n).outcome <;> rfl
    | failed | exhausted => rfl

/-- A repetition does not fail, since it may be empty. -/
theorem manyResult_ne_failed {read : Cursor → Outcome α} {fuel : Nat} {c : Cursor} :
    manyResult read fuel c ≠ .failed := by
  cases fuel with
  | zero => exact nofun
  | succ fuel =>
    simp only [manyResult]
    cases read c with
    | matched v m => cases h : manyResult read fuel m <;> simp [h]
    | failed | exhausted => simp

/-- A repetition goes on while its form matches. -/
theorem manyResult_succ_eq_matched {read : Cursor → Outcome α} {fuel : Nat} {c n : Cursor}
    {vs : List α} :
    manyResult read (fuel + 1) c = .matched vs n ↔
      (∃ v m ws, read c = .matched v m ∧ manyResult read fuel m = .matched ws n ∧ vs = v :: ws) ∨
      read c = .failed ∧ vs = [] ∧ n = c := by
  rw [manyResult]
  cases read c with
  | matched v m =>
    dsimp only
    constructor
    · intro h
      cases hm : manyResult read fuel m with
      | matched ws last =>
        rw [hm] at h
        cases h
        exact .inl ⟨v, m, ws, rfl, hm, rfl⟩
      | failed | exhausted =>
        rw [hm] at h
        cases h
    · rintro (⟨_, _, ws, h, hm, rfl⟩ | ⟨h, -⟩)
      · cases h
        rw [hm]
      · cases h
  | failed => simp [eq_comm]
  | exhausted => simp

namespace Form

section

variable (call : {α : Type} → Rule α → Spacing → Cursor → Attempt α)

/-- **What comes of reading a form.** -/
def result (f : Form Rule α) (s : Spacing) (c : Cursor) : Outcome α := (f.read call s c).outcome

/-- One more of many. -/
def again (a : Form Rule α) (s : Spacing) (c : Cursor) : Outcome α := a.result call s (s.skip c)

variable (s : Spacing) (c : Cursor)

/-- A single character is read if it is there and fits. -/
theorem result_one (p : Char → Bool) :
    (one p : Form Rule Char).result call s c =
      match c.rest with
      | [] => .failed
      | x :: _ => if p x then .matched x c.step else .failed := by
  change (match c.rest with
    | [] => Attempt.failure
    | x :: _ => if p x then .success x c.step else .failure).outcome = _
  cases c.rest with
  | nil => rfl
  | cons x rest =>
    dsimp only
    cases p x <;> rfl

/-- A word is read if it stands there. -/
theorem result_word (w : List Char) :
    (word w : Form Rule Unit).result call s c =
      match c.after? w with
      | some n => .matched () n
      | none => .failed := by
  change (match c.after? w with
    | some next => Attempt.success () next
    | none => .failure).outcome = _
  cases c.after? w <;> rfl

/-- The end of the text is matched only there. -/
theorem result_finish :
    (finish : Form Rule Unit).result call s c =
      if c.rest.isEmpty then .matched () c else .failed := by
  change (if c.rest.isEmpty then Attempt.success () c else .failure).outcome = _
  cases c.rest.isEmpty <;> rfl

@[simp] theorem result_rule (r : Rule α) : (rule r).result call s c = (call r s c).outcome := rfl

@[simp] theorem result_both (a : Form Rule α) (b : Form Rule β) :
    (both a b).result call s c =
      (a.result call s c).andThen fun v m => (b.result call s (s.skip m)).map fun w => (v, w) := by
  change ((a.read call s c).andThen fun v m =>
    (b.read call s (s.skip m)).map fun w => (v, w)).outcome = _
  simp only [Attempt.outcome_andThen, Attempt.outcome_map]
  rfl

@[simp] theorem result_either (a b : Form Rule α) :
    (either a b).result call s c = (a.result call s c).orElse fun _ => b.result call s c :=
  Attempt.outcome_orElse ..

/-- A repetition reads its form, and then again behind the space. -/
theorem result_many (a : Form Rule α) :
    (many a).result call s c =
      ((a.result call s c).andThen fun v m =>
        (manyResult (a.again call s) (m.rest.length + 1) m).map (v :: ·)).orElse
          fun _ => .matched [] c := by
  change (((a.read call s c).andThen fun v m =>
    (readMany (fun here => a.read call s (s.skip here)) (m.rest.length + 1) m).map
      (v :: ·)).orElse fun _ => .success [] c).outcome = _
  simp only [Attempt.outcome_orElse, Attempt.outcome_andThen, Attempt.outcome_map,
    outcome_readMany]
  rfl

@[simp] theorem result_perhaps (a : Form Rule α) :
    (perhaps a).result call s c =
      ((a.result call s c).map some).orElse fun _ => .matched none c := by
  change (((a.read call s c).map some).orElse fun _ => .success none c).outcome = _
  simp only [Attempt.outcome_orElse, Attempt.outcome_map]
  rfl

/-- What a repetition has read: nothing, or one and then the others. -/
theorem many_eq_matched {a : Form Rule α} {vs : List α} {n : Cursor} :
    (many a).result call s c = .matched vs n ↔
      (∃ v m ws, a.result call s c = .matched v m ∧
        manyResult (a.again call s) (m.rest.length + 1) m = .matched ws n ∧ vs = v :: ws) ∨
      a.result call s c = .failed ∧ vs = [] ∧ n = c := by
  rw [result_many]
  cases ha : a.result call s c with
  | matched v m =>
    simp only [Outcome.andThen_matched, Outcome.orElse_eq_matched, Outcome.map_eq_matched]
    constructor
    · rintro (⟨ws, hm, rfl⟩ | ⟨h, -⟩)
      · exact .inl ⟨v, m, ws, rfl, hm, rfl⟩
      · cases hm : manyResult (a.again call s) (m.rest.length + 1) m with
        | failed => exact absurd hm manyResult_ne_failed
        | matched | exhausted => simp [hm] at h
    · rintro (⟨_, _, ws, h, hm, rfl⟩ | ⟨h, -⟩)
      · cases h
        exact .inl ⟨ws, hm, rfl⟩
      · cases h
  | failed => simp [eq_comm]
  | exhausted => simp

/-- A form that must not follow is tried without an effect. -/
theorem result_unless (a : Form Rule α) :
    (Form.unless a).result call s c =
      match a.result call .quiet c with
      | .matched _ _ => .failed
      | .failed => .matched () c
      | .exhausted => .exhausted := by
  change (match (a.read call .quiet c).outcome with
    | .matched _ _ => Attempt.failure
    | .failed => .success () c
    | .exhausted => ⟨.exhausted, 0⟩).outcome = match (a.read call .quiet c).outcome with
      | .matched _ _ => .failed
      | .failed => .matched () c
      | .exhausted => .exhausted
  cases (a.read call .quiet c).outcome <;> rfl

@[simp] theorem result_map (g : α → β) (a : Form Rule α) :
    (map g a).result call s c = (a.result call s c).map g := Attempt.outcome_map ..

@[simp] theorem result_fmap (g : α → β) (a : Form Rule α) :
    (g <$> a).result call s c = (a.result call s c).map g := result_map ..

@[simp] theorem result_spanned (a : Form Rule α) :
    (spanned a).result call s c =
      (a.result call s c).andThen fun v n => .matched (c, c.textTo n, v) n :=
  Attempt.outcome_andThen ..

@[simp] theorem result_named (a : Form Rule α) :
    (named a).result call s c = a.result call s c := by
  cases s with
  | quiet => rfl
  | free | tight => exact Attempt.outcome_noteFailure ..

@[simp] theorem result_spaced (s' : Spacing) (a : Form Rule α) :
    (spaced s' a).result call s c = a.result call s' c := rfl

@[simp] theorem result_orElse (a b : Form Rule α) :
    (a <|> b).result call s c = (a.result call s c).orElse fun _ => b.result call s c :=
  result_either ..

/-- Of two forms the value of the first is kept. -/
theorem result_seqLeft (a : Form Rule α) (b : Form Rule β) :
    (a <* b).result call s c =
      (a.result call s c).andThen fun v m => (b.result call s (s.skip m)).map fun _ => v := by
  change (map Prod.fst (both a b)).result call s c = _
  rw [result_map, result_both]
  cases a.result call s c with
  | matched v m => cases h : b.result call s (s.skip m) <;> simp [h]
  | failed | exhausted => rfl

/-- Of two forms the value of the second is kept. -/
theorem result_seqRight (a : Form Rule α) (b : Form Rule β) :
    (a *> b).result call s c =
      (a.result call s c).andThen fun _ m => b.result call s (s.skip m) := by
  change (map Prod.snd (both a b)).result call s c = _
  rw [result_map, result_both]
  cases a.result call s c with
  | matched v m => cases h : b.result call s (s.skip m) <;> simp [h]
  | failed | exhausted => rfl

@[simp] theorem result_combine {γ : Type} (g : α → β → γ) (a : Form Rule α) (b : Form Rule β) :
    (combine g a b).result call s c =
      (a.result call s c).andThen fun v m => (b.result call s (s.skip m)).map (g v) := by
  rw [combine, result_map, result_both]
  cases a.result call s c with
  | matched v m => cases h : b.result call s (s.skip m) <;> simp [h]
  | failed | exhausted => rfl

@[simp] theorem result_placed (a : Form Rule α) :
    (placed a).result call s c = (a.result call s c).map (c.position, ·) := by
  rw [placed, result_map, result_spanned]
  cases a.result call s c <;> rfl

@[simp] theorem result_text (a : Form Rule α) :
    (text a).result call s c =
      (a.result call s c).andThen fun _ n => .matched (c.textTo n) n := by
  rw [text, result_map, result_spanned]
  cases a.result call s c <;> rfl

end

/-! ## What a form takes -/

/-- Whether every match of a form takes a character, if every match of a rule does. -/
def consumes : {α : Type} → Form Rule α → Bool
  | _, .one _ => true
  | _, .word w => !w.isEmpty
  | _, .rule _ => true
  | _, .both a b => a.consumes || b.consumes
  | _, .either a b => a.consumes && b.consumes
  | _, .map _ a | _, .spanned a | _, .named a | _, .spaced _ a => a.consumes
  | _, .finish | _, .many _ | _, .perhaps _ | _, .unless _ => false

/-- Whether the rules that a form may call where it starts have a rank below the bound. -/
def opensBelow (rank : {α : Type} → Rule α → Nat) (bound : Nat) : {α : Type} → Form Rule α → Bool
  | _, .one _ | _, .word _ | _, .finish => true
  | _, .rule r => rank r < bound
  | _, .both a b => a.opensBelow rank bound && (a.consumes || b.opensBelow rank bound)
  | _, .either a b => a.opensBelow rank bound && b.opensBelow rank bound
  | _, .many a => a.opensBelow rank bound && a.consumes
  | _, .perhaps a | _, .unless a | _, .map _ a | _, .spanned a | _, .named a | _, .spaced _ a =>
    a.opensBelow rank bound

end Form

/-- **Every match of a rule takes a character.** -/
def Advancing (call : {α : Type} → Rule α → Spacing → Cursor → Attempt α) : Prop :=
  ∀ {α : Type} (r : Rule α) (s : Spacing) (c : Cursor) (v : α) (n : Cursor),
    (call r s c).outcome = .matched v n → c < n

/-- What holds of no matches, and of one more in front, holds of all. -/
theorem manyResult_induction {read : Cursor → Outcome α} {P : Cursor → Cursor → List α → Prop}
    (nil : ∀ c, P c c [])
    (cons : ∀ c v m vs n, read c = .matched v m → P m n vs → P c n (v :: vs))
    {fuel : Nat} {c n : Cursor} {vs : List α} (h : manyResult read fuel c = .matched vs n) :
    P c n vs := by
  induction fuel generalizing c vs with
  | zero =>
    cases h
    exact nil _
  | succ fuel ih =>
    rcases manyResult_succ_eq_matched.mp h with ⟨v, m, ws, hc, hm, rfl⟩ | ⟨-, rfl, rfl⟩
    · exact cons _ _ _ _ _ hc (ih hm)
    · exact nil _

/-- A repetition does not go backwards. -/
theorem le_of_manyResult {read : Cursor → Outcome α}
    (hread : ∀ c v n, read c = .matched v n → c ≤ n) {fuel : Nat} {c n : Cursor} {vs : List α}
    (h : manyResult read fuel c = .matched vs n) : c ≤ n :=
  manyResult_induction (P := fun c n _ => c ≤ n) le_refl
    (fun c v m _ _ hm => (hread c v m hm).trans) h

section

variable {call call' : {α : Type} → Rule α → Spacing → Cursor → Attempt α}

/-- **A match leads on in the text**, and further on if the form takes a character in any case. -/
theorem Form.advances (hcall : Advancing call) {α : Type} (f : Form Rule α) {s : Spacing}
    {c n : Cursor} {v : α} (h : f.result call s c = .matched v n) :
    c ≤ n ∧ (f.consumes = true → c < n) := by
  induction f generalizing s c n with
  | one p =>
    rw [result_one] at h
    split at h
    · cases h
    · rename_i hrest
      split at h <;> cases h
      exact ⟨c.le_step, fun _ => Cursor.lt_step hrest⟩
  | word w =>
    rw [result_word] at h
    split at h
    · rename_i hafter
      obtain ⟨hstart, rfl⟩ := Cursor.after?_eq_some hafter
      cases h
      refine ⟨Cursor.le_advance hstart.length_le, fun hw => ?_⟩
      have hpos : 0 < w.length := by
        cases w with
        | nil => cases hw
        | cons x w => simp
      exact Cursor.lt_advance hpos hstart.length_le
    · cases h
  | finish =>
    rw [result_finish] at h
    split at h <;> cases h
    exact ⟨le_refl c, nofun⟩
  | rule r =>
    have hlt := hcall r s c v n h
    exact ⟨hlt.le, fun _ => hlt⟩
  | both a b iha ihb =>
    simp only [result_both, Outcome.andThen_eq_matched, Outcome.map_eq_matched] at h
    obtain ⟨va, m, ha, vb, hb, -⟩ := h
    have hm := iha ha
    have hn := ihb hb
    refine ⟨hm.1.trans ((s.le_skip m).trans hn.1), fun hc => ?_⟩
    rcases Bool.or_eq_true_iff.mp hc with hc | hc
    · exact (hm.2 hc).trans_le ((s.le_skip m).trans hn.1)
    · exact (hm.1.trans (s.le_skip m)).trans_lt (hn.2 hc)
  | either a b iha ihb =>
    rw [result_either, Outcome.orElse_eq_matched] at h
    rcases h with h | ⟨-, h⟩
    · exact ⟨(iha h).1, fun hc => (iha h).2 (Bool.and_eq_true_iff.mp hc).1⟩
    · exact ⟨(ihb h).1, fun hc => (ihb h).2 (Bool.and_eq_true_iff.mp hc).2⟩
  | many a ih =>
    simp only [result_many, Outcome.orElse_eq_matched, Outcome.andThen_eq_matched,
      Outcome.map_eq_matched] at h
    refine ⟨?_, nofun⟩
    rcases h with ⟨_, m, ha, vs, hm, -⟩ | ⟨-, h⟩
    · refine (ih ha).1.trans (le_of_manyResult (fun c' v' n' h' => ?_) hm)
      exact (s.le_skip c').trans (ih h').1
    · cases h
      exact le_refl c
  | perhaps a ih =>
    simp only [result_perhaps, Outcome.orElse_eq_matched, Outcome.map_eq_matched] at h
    refine ⟨?_, nofun⟩
    rcases h with ⟨_, h, -⟩ | ⟨-, h⟩
    · exact (ih h).1
    · cases h
      exact le_refl c
  | «unless» a ih =>
    rw [result_unless] at h
    refine ⟨?_, nofun⟩
    split at h <;> cases h
    exact le_refl c
  | map g a ih =>
    rw [result_map, Outcome.map_eq_matched] at h
    obtain ⟨_, h, -⟩ := h
    exact ih h
  | spanned a ih =>
    rw [result_spanned, Outcome.andThen_eq_matched] at h
    obtain ⟨_, m, h, hn⟩ := h
    cases hn
    exact ih h
  | named a ih =>
    rw [result_named] at h
    exact ih h
  | spaced s' a ih => exact ih h

theorem Form.le_of_matched (hcall : Advancing call) {f : Form Rule α} {s : Spacing} {c n : Cursor}
    {v : α} (h : f.result call s c = .matched v n) : c ≤ n := (f.advances hcall h).1

theorem Form.lt_of_matched (hcall : Advancing call) {f : Form Rule α} {s : Spacing} {c n : Cursor}
    {v : α} (h : f.result call s c = .matched v n) (hf : f.consumes = true) : c < n :=
  (f.advances hcall h).2 hf

/-- More fuel than there is text makes no difference. -/
theorem manyResult_congr {read : Cursor → Outcome α}
    (hlt : ∀ c v n, read c = .matched v n → c < n) {fuel fuel' : Nat} {c : Cursor}
    (hfuel : c.rest.length < fuel) (hfuel' : c.rest.length < fuel') :
    manyResult read fuel c = manyResult read fuel' c := by
  induction fuel generalizing fuel' c with
  | zero => omega
  | succ fuel ih =>
    obtain ⟨fuel', rfl⟩ := Nat.exists_eq_add_of_le' (Nat.zero_lt_of_lt hfuel')
    cases hc : read c with
    | matched v m =>
      have hlength := Cursor.length_rest_lt (hlt c v m hc)
      have hmore : manyResult read fuel m = manyResult read fuel' m := ih (by omega) (by omega)
      simp only [manyResult, hc, hmore]
    | failed | exhausted => simp only [manyResult, hc]

/-- **As many as there are** from a place where nothing is skipped. -/
theorem Form.result_many_eq (hcall : Advancing call) {a : Form Rule α} (ha : a.consumes = true)
    {s : Spacing} {c : Cursor} (hc : s.skip c = c) {fuel : Nat} (hfuel : c.rest.length < fuel) :
    (many a).result call s c = manyResult (a.again call s) fuel c := by
  have hlt (c : Cursor) (v : α) (n : Cursor) (hv : a.again call s c = .matched v n) : c < n :=
    (s.le_skip c).trans_lt (lt_of_matched hcall hv ha)
  obtain ⟨fuel, rfl⟩ := Nat.exists_eq_add_of_le' (Nat.zero_lt_of_lt hfuel)
  have hfirst : a.again call s c = a.result call s c := by rw [again, hc]
  rw [result_many, ← hfirst]
  cases hv : a.again call s c with
  | matched v m =>
    have hlength := Cursor.length_rest_lt (hlt c v m hv)
    have hmore : manyResult (a.again call s) fuel m =
        manyResult (a.again call s) (m.rest.length + 1) m :=
      manyResult_congr hlt (by omega) (by omega)
    rw [Outcome.andThen_matched, ← hmore, manyResult, hv]
    dsimp only
    cases hm : manyResult (a.again call s) fuel m with
    | matched | exhausted => rfl
    | failed => exact absurd hm manyResult_ne_failed
  | failed | exhausted => simp [manyResult, hv]

/-- A repetition ends if each of its readings does. -/
theorem manyResult_ne_exhausted {read : Cursor → Outcome α} {fuel : Nat} {c : Cursor}
    (hread : ∀ c v n, read c = .matched v n → c ≤ n) (h : ∀ n, c ≤ n → read n ≠ .exhausted) :
    manyResult read fuel c ≠ .exhausted := by
  induction fuel generalizing c with
  | zero => exact nofun
  | succ fuel ih =>
    simp only [manyResult]
    cases hc : read c with
    | matched v m =>
      have hm := ih fun n hn => h n ((hread _ _ _ hc).trans hn)
      cases hmore : manyResult read fuel m with
      | matched vs last => simp [hmore]
      | failed => exact absurd hmore manyResult_ne_failed
      | exhausted => exact absurd hmore hm
    | failed => exact nofun
    | exhausted => exact absurd hc (h c (le_refl c))

/-- **Only the calls that a form can make use up fuel**: those of rules of smaller rank where it
starts, and all further on. -/
theorem Form.result_ne_exhausted (hcall : Advancing call) {rank : {α : Type} → Rule α → Nat}
    {bound : Nat} {c : Cursor}
    (h : ∀ {β : Type} (r : Rule β) (s : Spacing) (n : Cursor), c < n ∨ c = n ∧ rank r < bound →
      (call r s n).outcome ≠ .exhausted)
    {α : Type} (f : Form Rule α) {s : Spacing} {n : Cursor} (hn : c ≤ n)
    (hf : c = n → f.opensBelow rank bound = true) : f.result call s n ≠ .exhausted := by
  induction f generalizing s n with
  | one p =>
    rw [result_one]
    split
    · exact nofun
    · split <;> exact nofun
  | word w => rw [result_word]; split <;> exact nofun
  | finish => rw [result_finish]; split <;> exact nofun
  | rule r => exact h r s n (hn.lt_or_eq.imp_right fun he => ⟨he, of_decide_eq_true (hf he)⟩)
  | both a b iha ihb =>
    simp only [opensBelow, Bool.and_eq_true, Bool.or_eq_true] at hf
    rw [result_both]
    cases ha : a.result call s n with
    | matched v m =>
      have hm := a.advances hcall ha
      have hskip := s.le_skip m
      have hb : b.result call s (s.skip m) ≠ .exhausted :=
        ihb (hn.trans (hm.1.trans hskip)) fun he => by
          -- The second part starts at `c` only if the first one took nothing there.
          obtain rfl := le_antisymm hn (hm.1.trans (hskip.trans he.ge))
          exact (hf rfl).2.resolve_left fun hc => absurd (hm.2 hc) (he ▸ hskip).not_gt
      cases hb' : b.result call s (s.skip m) with
      | matched | failed => simp [hb']
      | exhausted => exact absurd hb' hb
    | failed => simp
    | exhausted => exact absurd ha (iha hn fun he => (hf he).1)
  | either a b iha ihb =>
    simp only [opensBelow, Bool.and_eq_true] at hf
    rw [result_either]
    cases ha : a.result call s n with
    | matched v m => exact nofun
    | failed => exact ihb hn fun he => (hf he).2
    | exhausted => exact absurd ha (iha hn fun he => (hf he).1)
  | many a ih =>
    simp only [opensBelow, Bool.and_eq_true] at hf
    rw [result_many]
    cases ha : a.result call s n with
    | matched v m =>
      have hm := a.advances hcall ha
      have hlt : c < m := hn.lt_or_eq.elim (fun hlt => hlt.trans_le hm.1)
        fun he => he.trans_lt (hm.2 (hf he).2)
      have hmany : manyResult (a.again call s) (m.rest.length + 1) m ≠ .exhausted :=
        manyResult_ne_exhausted (fun k _ _ h' => (s.le_skip k).trans (le_of_matched hcall h'))
          fun k hk =>
            have hk := hlt.trans_le (hk.trans (s.le_skip k))
            ih hk.le fun he => absurd hk he.not_lt
      cases hmore : manyResult (a.again call s) (m.rest.length + 1) m with
      | matched vs last => simp [hmore]
      | failed => exact absurd hmore manyResult_ne_failed
      | exhausted => exact absurd hmore hmany
    | failed => exact nofun
    | exhausted => exact absurd ha (ih hn fun he => (hf he).1)
  | perhaps a ih =>
    rw [result_perhaps]
    cases ha : a.result call s n with
    | matched | failed => exact nofun
    | exhausted => exact absurd ha (ih hn hf)
  | «unless» a ih =>
    rw [result_unless]
    cases ha : a.result call .quiet n with
    | matched | failed => exact nofun
    | exhausted => exact absurd ha (ih hn hf)
  | map g a ih =>
    rw [result_map]
    cases ha : a.result call s n with
    | matched | failed => exact nofun
    | exhausted => exact absurd ha (ih hn hf)
  | spanned a ih =>
    rw [result_spanned]
    cases ha : a.result call s n with
    | matched | failed => exact nofun
    | exhausted => exact absurd ha (ih hn hf)
  | named a ih => rw [result_named]; exact ih hn hf
  | spaced s' a ih => exact ih hn hf

end

/-- **The rules of a grammar take a character** if their definitions do. -/
theorem advancing_readRule {form : {α : Type} → Rule α → Form Rule α}
    (hconsumes : ∀ {α : Type} (r : Rule α), (form r).consumes = true) (fuel : Nat) :
    Advancing fun r s c => readRule form fuel r s c := by
  induction fuel with
  | zero => exact fun r s c v n h => nomatch h
  | succ fuel ih => exact fun r s c v n h => Form.lt_of_matched ih h (hconsumes r)

/-- **Enough fuel is never used up**: so many rules for each character ahead as there are ranks. -/
theorem readRule_ne_exhausted {form : {α : Type} → Rule α → Form Rule α}
    (hconsumes : ∀ {α : Type} (r : Rule α), (form r).consumes = true)
    {rank : {α : Type} → Rule α → Nat} {ranks : Nat}
    (hrank : ∀ {α : Type} (r : Rule α), rank r < ranks)
    (hopens : ∀ {α : Type} (r : Rule α), (form r).opensBelow rank (rank r) = true)
    {fuel : Nat} {α : Type} {r : Rule α} {s : Spacing} {c : Cursor}
    (hfuel : ranks * c.rest.length + rank r < fuel) :
    (readRule form fuel r s c).outcome ≠ .exhausted := by
  induction fuel generalizing α r s c with
  | zero => omega
  | succ fuel ih =>
    refine Form.result_ne_exhausted (advancing_readRule hconsumes fuel) (fun r' s n hn => ih ?_)
      (form r) (le_refl c) fun _ => hopens r
    rcases hn with hn | ⟨rfl, hr⟩
    · have hlength := Cursor.length_rest_lt hn
      have hr := hrank r'
      have := Nat.mul_le_mul_left ranks (Nat.succ_le_of_lt hlength)
      rw [Nat.mul_succ] at this
      omega
    · omega

/-! ## Matches one behind the other -/

section

variable {read : Cursor → Outcome α} {c m n : Cursor} {v : α}
  {vs ws : List α}

/-- **Matches one behind the other.** -/
inductive Runs (read : Cursor → Outcome α) : Cursor → List α → Cursor → Prop
  | nil (c : Cursor) : Runs read c [] c
  | cons {c m n : Cursor} {v : α} {vs : List α} (h : read c = .matched v m)
    (hmore : Runs read m vs n) : Runs read c (v :: vs) n

namespace Runs

/-- Two runs one behind the other are one. -/
theorem append (h : Runs read c vs m) (h' : Runs read m ws n) : Runs read c (vs ++ ws) n := by
  induction h with
  | nil => exact h'
  | cons hv _ ih => exact .cons hv (ih h')

theorem snoc (h : Runs read c vs m) (hv : read m = .matched v n) : Runs read c (vs ++ [v]) n :=
  h.append (.cons hv (.nil n))

/-- Every match takes a character. -/
theorem length_le (hread : ∀ c v n, read c = .matched v n → c < n) (h : Runs read c vs n) :
    n.rest.length + vs.length ≤ c.rest.length := by
  induction h with
  | nil => exact le_rfl
  | cons hv _ ih =>
    have hlt := Cursor.length_rest_lt (hread _ _ _ hv)
    rw [List.length_cons]
    omega

/-- A repetition with enough fuel reads all that can be read. -/
theorem manyResult_eq (h : Runs read c vs n) (hend : read n = .failed) {fuel : Nat}
    (hfuel : vs.length < fuel) : manyResult read fuel c = .matched vs n := by
  induction h generalizing fuel with
  | nil c =>
    obtain ⟨fuel, rfl⟩ := Nat.exists_eq_succ_of_ne_zero (Nat.ne_zero_of_lt hfuel)
    simp only [manyResult, hend]
  | cons hv _ ih =>
    rw [List.length_cons] at hfuel
    obtain ⟨fuel, rfl⟩ := Nat.exists_eq_succ_of_ne_zero (Nat.ne_zero_of_lt hfuel)
    simp only [manyResult, hv]
    rw [ih hend (by omega)]

end Runs

variable {call : {α : Type} → Rule α → Spacing → Cursor → Attempt α} {a : Form Rule α}
  {s : Spacing}

/-- **A run that cannot go on is all that is read.** -/
theorem Form.many_of_runs (hcall : Advancing call) (ha : a.consumes = true)
    (h : Runs (a.again call s) c vs n) (hend : a.again call s n = .failed) (hc : s.skip c = c) :
    (many a).result call s c = .matched vs n := by
  have hread : ∀ c v n, a.again call s c = .matched v n → c < n := fun c v n hv =>
    (s.le_skip c).trans_lt (lt_of_matched hcall hv ha)
  rw [many_eq_matched]
  cases h with
  | nil =>
    rw [again, hc] at hend
    exact .inr ⟨hend, rfl, rfl⟩
  | @cons _ m _ v vs hv hmore =>
    have hlength := hmore.length_le hread
    rw [again, hc] at hv
    exact .inl ⟨v, m, vs, hv, hmore.manyResult_eq hend (by omega), rfl⟩

/-- Space is skipped once and for all. -/
theorem skip_skip (s : Spacing) (c : Cursor) : s.skip (s.skip c) = s.skip c := by
  cases s with
  | free => exact c.isSolid_skipBlanks.skipBlanks_eq
  | tight | quiet => rfl

/-- With enough fuel a repetition stops only where its form fails. -/
theorem runs_of_manyResult (hread : ∀ c v n, read c = .matched v n → c < n) {fuel : Nat}
    (hfuel : c.rest.length < fuel) (h : manyResult read fuel c = .matched vs n) :
    Runs read c vs n ∧ read n = .failed := by
  induction fuel generalizing c vs with
  | zero => exact absurd hfuel (Nat.not_lt_zero _)
  | succ fuel ih =>
    obtain ⟨v, m, ws, hv, hmore, rfl⟩ | ⟨hend, rfl, rfl⟩ := manyResult_succ_eq_matched.mp h
    · have hlt := Cursor.length_rest_lt (hread c v m hv)
      obtain ⟨hruns, hend⟩ := ih (by omega) hmore
      exact ⟨.cons hv hruns, hend⟩
    · exact ⟨.nil _, hend⟩

/-- **What is read as many is a run that cannot go on.** -/
theorem Form.runs_of_many (hcall : Advancing call) (ha : a.consumes = true) (hc : s.skip c = c)
    (h : (many a).result call s c = .matched vs n) :
    Runs (a.again call s) c vs n ∧ a.again call s n = .failed := by
  have hread : ∀ c v n, a.again call s c = .matched v n → c < n := fun c v n hv =>
    (s.le_skip c).trans_lt (lt_of_matched hcall hv ha)
  have hagain : a.again call s c = a.result call s c := by rw [again, hc]
  obtain ⟨v, m, ws, hv, hmore, rfl⟩ | ⟨hend, rfl, rfl⟩ := (many_eq_matched ..).mp h
  · rw [← hagain] at hv
    obtain ⟨hruns, hend⟩ := runs_of_manyResult hread (Nat.lt_succ_self _) hmore
    exact ⟨.cons hv hruns, hend⟩
  · exact ⟨.nil _, hagain.trans hend⟩

end

end ScriptTrace.Grammar
