import Mathlib.Data.List.Forall2
import ScriptTrace.Proofs.Grammar.Reading
import ScriptTrace.Proofs.Syntax.Word

/-!
# Proofs/Syntax/Listing — lists with commas

A list in brackets is an item and a run of items with commas in front.  If whatever one phrase reads
as an item another phrase reads as well, then it reads the same lists, and where it gets stuck at an
item it does not read the list at all (`listed_recast`).
-/

namespace ScriptTrace.Syntax

open Grammar
open Grammar.Form
open Phrase

/-- What may stand behind the last item of a list. -/
def closing (close : String) : Phrase Unit := .perhaps (token ",") *> token close

/-- A list up to the bracket behind it. -/
def listed {α : Type} (a : Phrase α) (close : String) : Phrase (List α) :=
  commaList a <* token close

/-! ## One list -/

section

variable {α : Type} {call : {α : Type} → Rule α → Spacing → Cursor → Attempt α} {a : Phrase α}
  {close : String} {c k m n : Cursor} {v : α} {vs : List α} {x y : Char}

/-- A sign is not read where the next character is another one. -/
theorem token_head {w : String} (hw : w.toList = [x]) (h : c.rest.head? ≠ some x) {s : Spacing} :
    (token w : Phrase Unit).result call s c = .failed := by
  refine result_token_absent w fun hstarts => h ?_
  rw [hw] at hstarts
  obtain ⟨X, hX⟩ := hstarts
  rw [← hX]
  rfl

theorem many_ne_failed {s : Spacing} : (Form.many a).result call s c ≠ .failed := by
  rw [result_many]
  cases (a.result call s c).andThen fun v m =>
    (manyResult (a.again call s) (m.rest.length + 1) m).map (v :: ·) <;> exact nofun

/-- A list is its first item with the others behind commas, up to the sign that closes it. -/
theorem listed_of_runs (hcall : Advancing call) (hfirst : a.result call .free c = .matched v m)
    (hruns : Runs ((token "," *> a).again call .free) m.skipBlanks vs k)
    (hend : (token "," *> a).again call .free k = .failed) :
    (listed a close).result call .free c =
      ((closing close).result call .free k.skipBlanks).map fun _ => v :: vs := by
  have hmany := many_of_runs hcall rfl hruns hend m.isSolid_skipBlanks.skipBlanks_eq
  simp only [listed, closing, commaList, commaSeparated, result_seqLeft, result_fmap,
    result_perhaps, result_combine, hfirst, Outcome.andThen_matched, Spacing.skip, hmany,
    Outcome.map_matched, result_seqRight]
  cases (token "," : Phrase Unit).result call .free k.skipBlanks <;> rfl

/-- Without a first item a list is empty. -/
theorem listed_of_failed (hfirst : a.result call .free c = .failed) :
    (listed a close).result call .free c =
      ((token close : Phrase Unit).result call .free c.skipBlanks).map fun _ => [] := by
  simp only [listed, commaList, commaSeparated, result_seqLeft, result_fmap, result_perhaps,
    result_combine, hfirst]
  rfl

/-- **What is read as a list** is empty, or a run of items. -/
theorem exists_of_listed (hcall : Advancing call)
    (h : (listed a close).result call .free c = .matched vs n) :
    (a.result call .free c = .failed ∧ vs = [] ∧
      (token close : Phrase Unit).result call .free c.skipBlanks = .matched () n) ∨
    ∃ v m ws k, vs = v :: ws ∧ a.result call .free c = .matched v m ∧
      Runs ((token "," *> a).again call .free) m.skipBlanks ws k ∧
      (token "," *> a).again call .free k = .failed ∧
      (closing close).result call .free k.skipBlanks = .matched () n := by
  cases hfirst : a.result call .free c with
  | failed =>
    rw [listed_of_failed hfirst, Outcome.map_eq_matched] at h
    obtain ⟨_, h, rfl⟩ := h
    exact .inl ⟨rfl, rfl, h⟩
  | matched v m =>
    cases hmany : (Form.many (token "," *> a)).result call .free m.skipBlanks with
    | matched ws k =>
      obtain ⟨hruns, hend⟩ :=
        runs_of_many (s := .free) hcall rfl m.isSolid_skipBlanks.skipBlanks_eq hmany
      rw [listed_of_runs hcall hfirst hruns hend, Outcome.map_eq_matched] at h
      obtain ⟨_, h, rfl⟩ := h
      exact .inr ⟨v, m, ws, k, rfl, rfl, hruns, hend, h⟩
    | failed => exact absurd hmany many_ne_failed
    | exhausted =>
      simp [listed, commaList, commaSeparated, result_seqLeft, hfirst, Spacing.skip, hmany] at h
  | exhausted =>
    simp [listed, commaList, commaSeparated, result_seqLeft, hfirst] at h

/-- The bracket behind a list, perhaps with a comma in front. -/
theorem over_of_closing (hclose : close.toList = [y])
    (h : (closing close).result call .free k.skipBlanks = .matched () n) :
    k.skipBlanks.Over [y] n ∨ ∃ d, k.skipBlanks.Over [','] d ∧ d.skipBlanks.Over [y] n := by
  simp only [closing, result_seqRight, result_perhaps, Outcome.andThen_eq_matched,
    Outcome.orElse_eq_matched, Outcome.map_eq_matched, Spacing.skip] at h
  obtain ⟨_, d, ⟨_, hcomma, -⟩ | ⟨-, hd⟩, h⟩ := h
  · exact .inr ⟨d, over_of_token hcomma, hclose ▸ over_of_token h⟩
  · cases hd
    rw [k.isSolid_skipBlanks.skipBlanks_eq] at h
    exact .inl (hclose ▸ over_of_token h)

/-- A list is closed by its sign, perhaps behind a comma. -/
theorem head_of_closing (hclose : close.toList = [y])
    (h : (closing close).result call .free k.skipBlanks = .matched () n) :
    k.skipBlanks.rest.head? = some ',' ∨ k.skipBlanks.rest.head? = some y := by
  obtain hend | ⟨d, hcomma, -⟩ := over_of_closing hclose h
  · exact .inr (by rw [hend.rest_eq]; rfl)
  · exact .inl (by rw [hcomma.rest_eq]; rfl)

/-- One more item behind a comma. -/
theorem over_of_again (h : (token "," *> a).again call .free c = .matched v n) :
    ∃ d, c.skipBlanks.Over [','] d ∧ a.result call .free d.skipBlanks = .matched v n := by
  rw [again, result_seqRight, Outcome.andThen_eq_matched] at h
  obtain ⟨_, d, hcomma, h⟩ := h
  exact ⟨d, over_of_token hcomma, h⟩

theorem again_failed (h : c.skipBlanks.rest.head? ≠ some ',') :
    (token "," *> a).again call .free c = .failed := by
  rw [again, result_seqRight, Spacing.skip, token_head rfl h, Outcome.andThen_failed]

/-- Behind an item there is a comma, or the end of the list. -/
theorem head_of_runs (hclose : close.toList = [y])
    (hruns : Runs ((token "," *> a).again call .free) m vs k)
    (h : (closing close).result call .free k.skipBlanks = .matched () n) :
    m.skipBlanks.rest.head? = some ',' ∨ m.skipBlanks.rest.head? = some y := by
  cases hruns with
  | nil => exact head_of_closing hclose h
  | cons hv =>
    obtain ⟨d, hcomma, -⟩ := over_of_again hv
    exact .inl (by rw [hcomma.rest_eq]; rfl)

end

/-! ## Two lists -/

/-- **Whatever one phrase reads as an item, another reads as well**, from `d` on, up to blanks
behind.  It may get stuck at an item with a dead value: it reads nothing there, or stops in front of
a colon. -/
structure Recasts {α β : Type} (call call' : {α : Type} → Rule α → Spacing → Cursor → Attempt α)
    (y : Char) (d : Cursor) (a : Phrase α) (b : Phrase β) (cast : α → β → Prop)
    (dead : α → Prop) : Prop where
  advancing : Advancing call
  advancing' : Advancing call'
  mark : y ≠ ',' ∧ y ≠ ':'
  item : ∀ ⦃c m v⦄, d ≤ c → a.result call .free c = .matched v m →
    m.skipBlanks.rest.head? = some ',' ∨ m.skipBlanks.rest.head? = some y →
      (∃ w m', b.result call' .free c = .matched w m' ∧ m'.skipBlanks = m.skipBlanks ∧
        cast v w) ∨
      dead v ∧ (b.result call' .free c = .failed ∨
        ∃ w k, b.result call' .free c = .matched w k ∧ k.skipBlanks.rest.head? = some ':')
  ends : ∀ ⦃c⦄, d ≤ c → c.rest.head? = some y →
    (∀ v m, a.result call .free c ≠ .matched v m) ∧ b.result call' .free c = .failed

section

variable {α β : Type} {call call' : {α : Type} → Rule α → Spacing → Cursor → Attempt α}
  {a : Phrase α} {b : Phrase β} {cast : α → β → Prop} {dead : α → Prop} {close : String} {y : Char}
  {c d k m m' n : Cursor} {vs : List α}

/-- A list is not closed by any other sign. -/
theorem closing_failed (hclose : close.toList = [y]) (hk : k.IsSolid)
    (h : k.rest.head? ≠ some ',') (h' : k.rest.head? ≠ some y) :
    (closing close).result call .free k = .failed := by
  simp only [closing, result_seqRight, result_perhaps, token_head (w := ",") rfl h,
    Outcome.map_failed, Outcome.orElse_failed, Outcome.andThen_matched, Spacing.skip,
    hk.skipBlanks_eq, token_head hclose h']

/-- **The items of a list are recast one by one**, up to its end or to one that cannot be. -/
theorem run_recast (h : Recasts call call' y d a b cast dead) (hclose : close.toList = [y])
    (hm : d ≤ m) (hskip : m'.skipBlanks = m.skipBlanks)
    (hruns : Runs ((token "," *> a).again call .free) m vs k)
    (hend : (closing close).result call .free k.skipBlanks = .matched () n) :
    (∃ ws k', Runs ((token "," *> b).again call' .free) m' ws k' ∧
      (token "," *> b).again call' .free k' = .failed ∧ k'.skipBlanks = k.skipBlanks ∧
      List.Forall₂ cast vs ws) ∨
    (∃ v ∈ vs, dead v) ∧ ∃ ws k', Runs ((token "," *> b).again call' .free) m' ws k' ∧
      (token "," *> b).again call' .free k' = .failed ∧
      (closing close).result call' .free k'.skipBlanks = .failed := by
  induction hruns generalizing m' with
  | nil k =>
    refine .inl ⟨[], m', .nil m', ?_, hskip, .nil⟩
    obtain hover | ⟨e, hcomma, hover⟩ := over_of_closing hclose hend
    · refine again_failed ?_
      rw [hskip, hover.rest_eq]
      simpa using h.mark.1
    · have hle : d ≤ e.skipBlanks :=
        hm.trans (k.le_skipBlanks.trans (hcomma.le.trans e.le_skipBlanks))
      rw [again, result_seqRight, Spacing.skip, hskip, result_token "," hcomma,
        Outcome.andThen_matched, Spacing.skip, (h.ends hle (by rw [hover.rest_eq]; rfl)).2]
  | @cons m e k v vs hv hmore ih =>
    obtain ⟨f, hcomma, hv⟩ := over_of_again hv
    have hle : d ≤ f.skipBlanks :=
      hm.trans (m.le_skipBlanks.trans (hcomma.le.trans f.le_skipBlanks))
    have hagain : (token "," *> b).again call' .free m' = b.result call' .free f.skipBlanks := by
      rw [again, result_seqRight, Spacing.skip, hskip, result_token "," hcomma,
        Outcome.andThen_matched, Spacing.skip]
    obtain ⟨w, e', hw, hskip', hcast⟩ | ⟨hdead, hstuck⟩ :=
      h.item hle hv (head_of_runs hclose hmore hend)
    · rw [hw] at hagain
      obtain ⟨ws, k', hruns, hfailed, hk', hall⟩ |
        ⟨⟨u, hu, hdead⟩, ws, k', hruns, hfailed, hclosing⟩ :=
        ih (hle.trans (le_of_matched h.advancing hv)) hskip' hend
      · exact .inl ⟨w :: ws, k', .cons hagain hruns, hfailed, hk', .cons hcast hall⟩
      · exact .inr ⟨⟨u, List.mem_cons_of_mem v hu, hdead⟩, w :: ws, k', .cons hagain hruns, hfailed,
          hclosing⟩
    · refine .inr ⟨⟨v, List.mem_cons_self, hdead⟩, ?_⟩
      obtain hfailed | ⟨w, k', hw, hcolon⟩ := hstuck
      · -- The comma is taken, and the item stands where the list should end.
        refine ⟨[], m', .nil m', hagain.trans hfailed, ?_⟩
        have hitem : f.skipBlanks.rest.head? ≠ some y := fun hhead => (h.ends hle hhead).1 _ _ hv
        simp only [closing, result_seqRight, result_perhaps, hskip, result_token "," hcomma,
          Outcome.map_matched, Outcome.orElse_matched, Outcome.andThen_matched, Spacing.skip,
          token_head hclose hitem]
      · refine ⟨[w], k', .cons (hagain.trans hw) (.nil k'), again_failed ?_, ?_⟩
        · rw [hcolon]
          decide
        · refine closing_failed hclose k'.isSolid_skipBlanks ?_ ?_ <;> rw [hcolon]
          · decide
          · simpa using h.mark.2.symm

/-- **The same lists**: what one phrase reads as a list of live items, the other reads as well, and
a list with a dead item it does not read. -/
theorem listed_recast (h : Recasts call call' y d a b cast dead) (hclose : close.toList = [y])
    (hc : d ≤ c) (hsolid : c.IsSolid)
    (hread : (listed a close).result call .free c = .matched vs n) :
    (∃ ws, (listed b close).result call' .free c = .matched ws n ∧ List.Forall₂ cast vs ws) ∨
    (∃ v ∈ vs, dead v) ∧ (listed b close).result call' .free c = .failed := by
  obtain ⟨-, rfl, hend⟩ | ⟨v, m, vs, k, rfl, hv, hruns, -, hend⟩ :=
    exists_of_listed h.advancing hread
  · rw [hsolid.skipBlanks_eq] at hend
    have hover : c.Over [y] n := hclose ▸ over_of_token hend
    refine .inl ⟨[], ?_, .nil⟩
    rw [listed_of_failed (h.ends hc (by rw [hover.rest_eq]; rfl)).2, hsolid.skipBlanks_eq,
      result_token close (hclose ▸ hover), Outcome.map_matched]
  · have hm : d ≤ m.skipBlanks :=
      hc.trans ((le_of_matched h.advancing hv).trans m.le_skipBlanks)
    have hhead := head_of_runs hclose hruns hend
    rw [m.isSolid_skipBlanks.skipBlanks_eq] at hhead
    obtain ⟨w, m', hw, hskip, hcast⟩ | ⟨hdead, hstuck⟩ := h.item hc hv hhead
    · obtain ⟨ws, k', hruns', hfailed, hk', hall⟩ |
        ⟨⟨u, hu, hdead⟩, ws, k', hruns', hfailed, hclosing⟩ :=
        run_recast h hclose hm (congrArg Cursor.skipBlanks hskip) hruns hend
      · refine .inl ⟨w :: ws, ?_, .cons hcast hall⟩
        rw [listed_of_runs h.advancing' hw hruns' hfailed, hk']
        exact congrArg (Outcome.map _) hend
      · refine .inr ⟨⟨u, List.mem_cons_of_mem v hu, hdead⟩, ?_⟩
        rw [listed_of_runs h.advancing' hw hruns' hfailed]
        exact congrArg (Outcome.map _) hclosing
    · refine .inr ⟨⟨v, List.mem_cons_self, hdead⟩, ?_⟩
      obtain hfailed | ⟨w, k', hw, hcolon⟩ := hstuck
      · have hitem : c.rest.head? ≠ some y := fun hhead => (h.ends hc hhead).1 _ _ hv
        rw [listed_of_failed hfailed, hsolid.skipBlanks_eq, token_head hclose hitem,
          Outcome.map_failed]
      · have hmore : (token "," *> b).again call' .free k'.skipBlanks = .failed := by
          refine again_failed ?_
          rw [k'.isSolid_skipBlanks.skipBlanks_eq, hcolon]
          decide
        rw [listed_of_runs h.advancing' hw (.nil _) hmore, k'.isSolid_skipBlanks.skipBlanks_eq,
          closing_failed hclose k'.isSolid_skipBlanks, Outcome.map_failed] <;> rw [hcolon]
        · decide
        · simpa using h.mark.2.symm

end

end ScriptTrace.Syntax
