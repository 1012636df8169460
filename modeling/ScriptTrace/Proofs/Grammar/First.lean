import ScriptTrace.Proofs.Grammar.Reading

/-!
# Proofs/Grammar/First — the character a form starts with

`Form.mayOpen` computes from a form whether a match of it can start with a given character.  A
character that opens none of the rules of a grammar opens no match of them.
-/

namespace ScriptTrace.Grammar

variable {Rule : Type → Type} {α : Type}

/-- Whether a match that takes a character may start with this one, if `rules` tells it for the
rules. -/
def Form.mayOpen (rules : {α : Type} → Rule α → Bool) (x : Char) : {α : Type} → Form Rule α → Bool
  | _, .one p => p x
  | _, .word w => w.head? = some x
  | _, .rule r => rules r
  | _, .both a b => a.mayOpen rules x || !a.consumes && b.mayOpen rules x
  | _, .either a b => a.mayOpen rules x || b.mayOpen rules x
  | _, .many a | _, .perhaps a | _, .map _ a | _, .spanned a | _, .named a | _, .spaced _ a =>
    a.mayOpen rules x
  | _, .finish | _, .unless _ => false

/-- Whether a match that takes a character may start with one of these: one pass over the form for
all of them. -/
def Form.mayOpenAny (rules : {α : Type} → Rule α → Bool) (xs : List Char) :
    {α : Type} → Form Rule α → Bool
  | _, .one p => xs.any p
  | _, .word w => w.head?.any (xs.contains ·)
  | _, .rule r => rules r
  | _, .both a b => a.mayOpenAny rules xs || !a.consumes && b.mayOpenAny rules xs
  | _, .either a b => a.mayOpenAny rules xs || b.mayOpenAny rules xs
  | _, .many a | _, .perhaps a | _, .map _ a | _, .spanned a | _, .named a | _, .spaced _ a =>
    a.mayOpenAny rules xs
  | _, .finish | _, .unless _ => false

/-- A form that cannot begin with any of some characters cannot begin with one of them. -/
theorem Form.mayOpen_eq_false {rules : {α : Type} → Rule α → Bool} {xs : List Char} {x : Char}
    (hx : x ∈ xs) {f : Form Rule α} (hf : f.mayOpenAny rules xs = false) :
    f.mayOpen rules x = false := by
  induction f with
  | one p =>
    simp only [mayOpenAny, List.any_eq_false, Bool.not_eq_true] at hf
    exact hf x hx
  | word w =>
    cases w with
    | nil => rfl
    | cons y w =>
      have hy : y ∉ xs := by simpa [mayOpenAny] using hf
      simpa [mayOpen] using fun h : y = x => hy (h ▸ hx)
  | _ => simp_all [mayOpen, mayOpenAny]

section

variable {β : Type} (g : α → β) (a a' : Form Rule α) (b : Form Rule β)

@[simp] theorem Form.consumes_fmap : (g <$> a).consumes = a.consumes := rfl

@[simp] theorem Form.consumes_seqLeft : (a <* b).consumes = (a.consumes || b.consumes) := rfl

@[simp] theorem Form.consumes_seqRight : (a *> b).consumes = (a.consumes || b.consumes) := rfl

@[simp] theorem Form.consumes_orElse : (a <|> a').consumes = (a.consumes && a'.consumes) := rfl

variable (rules : {α : Type} → Rule α → Bool) (x : Char)

@[simp] theorem Form.mayOpen_fmap : (g <$> a).mayOpen rules x = a.mayOpen rules x := rfl

@[simp] theorem Form.mayOpen_seqLeft :
    (a <* b).mayOpen rules x = (a.mayOpen rules x || !a.consumes && b.mayOpen rules x) := rfl

@[simp] theorem Form.mayOpen_seqRight :
    (a *> b).mayOpen rules x = (a.mayOpen rules x || !a.consumes && b.mayOpen rules x) := rfl

@[simp] theorem Form.mayOpen_orElse :
    (a <|> a').mayOpen rules x = (a.mayOpen rules x || a'.mayOpen rules x) := rfl

end

variable {call : {α : Type} → Rule α → Spacing → Cursor → Attempt α} {c n : Cursor} {x : Char}
  {rest : List Char}

/-- **A form that a character does not open takes nothing in front of it.** -/
theorem Form.eq_of_not_mayOpen (hcall : Advancing call) (hrest : c.rest = x :: rest)
    (hsolid : c.IsSolid) {rules : {α : Type} → Rule α → Bool}
    (hrules : ∀ {α : Type} (r : Rule α) (s : Spacing) (v : α) (n : Cursor), rules r = false →
      (call r s c).outcome ≠ .matched v n)
    (f : Form Rule α) (hf : f.mayOpen rules x = false) {s : Spacing} {v : α}
    (h : f.result call s c = .matched v n) : n = c := by
  have hskip (s : Spacing) : s.skip c = c := by
    cases s <;> simp [Spacing.skip, hsolid.skipBlanks_eq]
  induction f generalizing s n with
  | one p =>
    rw [result_one, hrest] at h
    simp only [mayOpen] at hf
    simp [hf] at h
  | word w =>
    rw [result_word] at h
    split at h
    · rename_i m hafter
      obtain ⟨hstart, rfl⟩ := Cursor.after?_eq_some hafter
      cases w with
      | nil => cases h; rfl
      | cons y w =>
        rw [hrest] at hstart
        simp [mayOpen, (List.cons_prefix_cons.mp hstart).1] at hf
    · cases h
  | finish =>
    rw [result_finish] at h
    split at h <;> cases h
    rfl
  | rule r => exact absurd h (hrules r s v n hf)
  | both a b iha ihb =>
    simp only [result_both, Outcome.andThen_eq_matched, Outcome.map_eq_matched] at h
    obtain ⟨va, m, ha, vb, hb, -⟩ := h
    simp only [mayOpen, Bool.or_eq_false_iff, Bool.and_eq_false_iff, Bool.not_eq_false'] at hf
    obtain rfl := iha hf.1 ha
    rw [hskip] at hb
    exact ihb (hf.2.resolve_left fun hc => absurd (lt_of_matched hcall ha hc) (lt_irrefl m)) hb
  | either a b iha ihb =>
    simp only [mayOpen, Bool.or_eq_false_iff] at hf
    rw [result_either, Outcome.orElse_eq_matched] at h
    exact h.elim (iha hf.1 ·) fun h => ihb hf.2 h.2
  | many a ih =>
    rcases (many_eq_matched ..).mp h with ⟨w, m, ws, hw, hws, -⟩ | ⟨-, -, rfl⟩
    · obtain rfl := ih hf hw
      refine manyResult_induction (P := fun k n _ => k = m → n = m) ?_ ?_ hws rfl
      · exact fun k hk => hk
      · rintro k w' m' ws' n' hk hmore rfl
        rw [again, hskip] at hk
        exact hmore (ih hf hk)
    · rfl
  | perhaps a ih =>
    simp only [result_perhaps, Outcome.orElse_eq_matched, Outcome.map_eq_matched] at h
    rcases h with ⟨w, h, -⟩ | ⟨-, h⟩
    · exact ih hf h
    · cases h; rfl
  | «unless» a ih =>
    rw [result_unless] at h
    split at h <;> cases h
    rfl
  | map g a ih =>
    rw [result_map, Outcome.map_eq_matched] at h
    obtain ⟨w, h, -⟩ := h
    exact ih hf h
  | spanned a ih =>
    rw [result_spanned, Outcome.andThen_eq_matched] at h
    obtain ⟨w, m, h, hn⟩ := h
    cases hn
    exact ih hf h
  | named a ih => exact ih hf (result_named .. ▸ h)
  | spaced s' a ih => exact ih hf h

/-- **A character that opens no definition of a rule opens no match of it.** -/
theorem readRule_ne_matched {form : {α : Type} → Rule α → Form Rule α}
    (hconsumes : ∀ {α : Type} (r : Rule α), (form r).consumes = true)
    {rules : {α : Type} → Rule α → Bool}
    (hclosed : ∀ {α : Type} (r : Rule α), rules r = false → (form r).mayOpen rules x = false)
    (hrest : c.rest = x :: rest) (hsolid : c.IsSolid) (fuel : Nat) {α : Type} {r : Rule α}
    (hr : rules r = false) {s : Spacing} {v : α} {n : Cursor} :
    (readRule form fuel r s c).outcome ≠ .matched v n := by
  induction fuel generalizing α r s n with
  | zero => exact nofun
  | succ fuel ih =>
    intro h
    have hn := (form r).eq_of_not_mayOpen (advancing_readRule hconsumes fuel) hrest hsolid
      (fun r s v n hr => ih hr) (hclosed r hr) h
    have hlt := Form.lt_of_matched (advancing_readRule hconsumes fuel) h (hconsumes r)
    exact lt_irrefl c (hn ▸ hlt)

end ScriptTrace.Grammar
