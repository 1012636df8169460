import ScriptTrace.Proofs.Grammar.First
import ScriptTrace.Proofs.Syntax.Key
import ScriptTrace.Proofs.Syntax.Scan

/-!
# Proofs/Syntax/Nesting — phrases and the brackets they leave open

`nesting` computes from a phrase how many brackets are open behind it.  It fails where a phrase
could take a mark for something else, so a match of a phrase with a nesting goes the way of a scan
(`Keeps.of_matched`).  All rules close what they open (`keeps_follow`).
-/

namespace ScriptTrace.Syntax

open Grammar
open Grammar.Form
open Phrase

/-! ## Nesting -/

/-- The marks in a list. -/
def marks : List Char := ['(', ')', '[', ']', '\x7b', '\x7d', '"', '\'', '`', '/']

/-- The brackets open behind a word. -/
def wordNesting : List Char → Nat → Option Nat
  | [], d => some d
  | x :: w, d =>
    if isOpening x then wordNesting w (d + 1)
    else if isClosing x then if d = 0 then none else wordNesting w (d - 1)
    else if isMark x then none
    else wordNesting w d

/-- Whether a phrase only looks at a text up to the first closing bracket. -/
def glances : {α : Type} → Phrase α → Bool
  | _, .one _ => true
  | _, .word w => w.dropLast.all fun x => !isClosing x
  | _, .either a b => glances a && glances b
  | _, .map _ a | _, .named a => glances a
  | _, a => a.avoids ')' && a.avoids ']' && a.avoids '\x7d'

/-- **The brackets open behind a phrase**, if so many are open in front of it.  A slash alone is
read only where no blank stands, which `solid` tells of the place in front. -/
def nesting : {α : Type} → Spacing → Bool → Phrase α → Nat → Option Nat
  | _, _, _, .one p, d => if marks.any p then none else some d
  | _, _, solid, .word w, d =>
    if w = ['/'] then if solid then some d else none
    else if w = ['/', '='] then some d
    else wordNesting w d
  | _, _, _, .finish, d => some d
  | _, s, _, .rule _, d => if s = .free then some d else none
  | _, s, solid, .both a b, d => (nesting s solid a d).bind (nesting s (s = .free) b)
  | _, s, solid, .either a b, d =>
    if nesting s solid a d = nesting s solid b d then nesting s solid a d else none
  | _, s, solid, .many a, d =>
    if a.consumes = true ∧ nesting s (solid && s = .free) a d = some d then some d else none
  | _, s, solid, .perhaps a, d => if nesting s solid a d = some d then some d else none
  | _, _, _, .unless a, d => if glances a then some d else none
  | _, s, solid, .map _ a, d | _, s, solid, .spanned a, d | _, s, solid, .named a, d =>
    nesting s solid a d
  | _, _, solid, .spaced s a, d => nesting s solid a d

/-- Some brackets of the code in front of those that are open. -/
abbrev openedIn (d : Nat) (opened : List Bracket) : List Bracket :=
  List.replicate d .plain ++ opened

/-- The rules that strings and templates have for themselves. -/
def Rule.isQuoted : {α : Type} → Rule α → Bool
  | _, .string | _, .template => true
  | _, _ => false

/-- The brackets of a rule are balanced. -/
theorem Rule.nesting_phrase {α : Type} (r : Rule α) (h : r.isQuoted = false) :
    nesting .free false r.phrase 0 = some 0 := by
  cases r with
  | string | template => cases h
  | _ => decide

/-! ## Slashes and stars -/

/-- Whether the last that a phrase takes may be a slash by itself. -/
def endsInSlash : {α : Type} → Phrase α → Bool
  | _, .word w => w = ['/']
  | _, .both a b => endsInSlash b || !b.consumes && endsInSlash a
  | _, .either a b => endsInSlash a || endsInSlash b
  | _, .many a | _, .perhaps a | _, .map _ a | _, .spanned a | _, .named a | _, .spaced _ a =>
    endsInSlash a
  | _, _ => false

/-- Whether behind a slash inside a phrase nothing starts with a star. -/
def starsApart : {α : Type} → Phrase α → Bool
  | _, .both a b =>
    starsApart a && starsApart b && (!endsInSlash a || !b.mayOpen (fun _ => false) '*')
  | _, .either a b => starsApart a && starsApart b
  | _, .many a => starsApart a && (!endsInSlash a || !a.mayOpen (fun _ => false) '*')
  | _, .perhaps a | _, .map _ a | _, .spanned a | _, .named a | _, .spaced _ a => starsApart a
  | _, _ => true

theorem Rule.starsApart_phrase {α : Type} (r : Rule α) :
    starsApart r.phrase = true ∧ endsInSlash r.phrase = false := by
  cases r <;> decide

/-- No rule starts with a star. -/
structure Starless (call : {α : Type} → Rule α → Spacing → Cursor → Attempt α) : Prop where
  advancing : Advancing call
  rules : ∀ {α : Type} (r : Rule α) (s : Spacing) {c n : Cursor} {v : α} {X : List Char},
    c.rest = '*' :: X → (call r s c).outcome ≠ .matched v n

/-- No rule ends in front of a star that would open a comment. -/
theorem starless_follow (fuel : Nat) : Starless (follow fuel) :=
  ⟨advancing_follow fuel, fun r _ _ _ _ _ hrest =>
    readRule_ne_matched Rule.consumes_phrase
      (fun r _ => show r.phrase.mayOpen (fun _ => false) '*' = false by cases r <;> decide) hrest
      (Cursor.isSolid_of_cons hrest (by decide) (by decide)) fuel rfl⟩

/-! ## Code -/

section

variable {α : Type} {call : {α : Type} → Rule α → Spacing → Cursor → Attempt α} {c k m n : Cursor}
  {opened : List Bracket} {zone : Zone} {d d' : Nat} {s : Spacing} {solid : Bool}
  {q x : Char} {w X : List Char}

/-- The characters at which a scan changes, listed. -/
theorem mem_marks (h : isMark x = true) : x ∈ marks := by
  simp only [isMark, isOpening, isClosing, isQuote, Bool.or_eq_true, decide_eq_true_eq] at h
  simp only [marks, List.mem_cons, List.not_mem_nil, or_false]
  tauto

theorem isMark_of_not_any {p : Char → Bool} (h : ¬ marks.any p = true) (hx : p x = true) :
    isMark x = false := by
  rw [Bool.eq_false_iff]
  exact fun hmark => h (List.any_eq_true.mpr ⟨x, mem_marks hmark, hx⟩)

theorem isSolid_skip (h : decide (s = .free) = true) : (s.skip c).IsSolid := by
  obtain rfl := of_decide_eq_true h
  exact c.isSolid_skipBlanks

/-- What takes nothing in front of a star has no star in front of it. -/
theorem Starless.head_ne (hcall : Starless call) {f : Phrase α}
    (hf : f.mayOpen (fun _ => false) '*' = false) {v : α}
    (h : f.result call s (s.skip m) = .matched v n)
    (hn : f.consumes = true ∨ n.rest.head? ≠ some '*') : m.rest.head? ≠ some '*' := by
  intro hhead
  obtain ⟨X, hrest⟩ := List.head?_eq_some_iff.mp hhead
  have hsolid : m.IsSolid := Cursor.isSolid_of_cons hrest (by decide) (by decide)
  have hskip : s.skip m = m := by cases s <;> simp [Spacing.skip, hsolid.skipBlanks_eq]
  rw [hskip] at h
  obtain rfl := f.eq_of_not_mayOpen hcall.advancing hrest hsolid
    (fun r s v n _ => hcall.rules r s hrest) hf h
  obtain hconsumes | hne := hn
  · exact lt_irrefl _ (lt_of_matched hcall.advancing h hconsumes)
  · exact hne hhead

/-- **Rules that go the way of a scan** and close what they open. -/
structure Keeps (call : {α : Type} → Rule α → Spacing → Cursor → Attempt α) : Prop
    extends Starless call where
  scans : ∀ {α : Type} (r : Rule α) ⦃c n : Cursor⦄ ⦃v : α⦄ (opened : List Bracket),
    (call r .free c).outcome = .matched v n → Scans (.code opened c.rest) (.code opened n.rest)

/-- A word goes the way of a scan. -/
theorem Scans.of_word (h : wordNesting w d = some d') :
    Scans (.code (openedIn d opened) (w ++ X)) (.code (openedIn d' opened) X) := by
  induction w generalizing d with
  | nil =>
    cases h
    exact .refl
  | cons x w ih =>
    rw [wordNesting] at h
    rw [List.cons_append]
    split at h
    · exact (Scans.opening ‹_›).trans (ih h)
    · split at h
      · split at h
        · cases h
        · obtain ⟨e, rfl⟩ := Nat.exists_eq_succ_of_ne_zero ‹_›
          exact (Scans.closing ‹_›).trans (ih h)
      · split at h
        · cases h
        · exact (Scans.plain (by simpa using ‹¬ isMark x = true›)).trans (ih h)

/-- Space is scanned as what it is. -/
theorem Scans.skip (s : Spacing) : Scans (.code opened c.rest) (.code opened (s.skip c).rest) := by
  cases s with
  | free =>
    rw [Spacing.skip, Cursor.skipBlanks, Cursor.rest_advance]
    exact .blank _
  | tight | quiet => exact .refl

/-- **A match goes the way of a scan** and leaves the brackets of the phrase open, if there is no
star behind the slash that it may end with. -/
theorem Keeps.of_matched (hcall : Keeps call) {α : Type} (f : Phrase α) {v : α}
    (hf : nesting s solid f d = some d') (hapart : starsApart f = true)
    (hsolid : solid = true → c.IsSolid) (hend : endsInSlash f = true → n.rest.head? ≠ some '*')
    (h : f.result call s c = .matched v n) :
    Scans (.code (openedIn d opened) c.rest) (.code (openedIn d' opened) n.rest) := by
  induction f generalizing s solid d d' c n with
  | one p =>
    rw [nesting] at hf
    split at hf
    · cases hf
    cases hf
    rw [result_one] at h
    split at h
    · cases h
    · rename_i hrest
      split at h <;> cases h
      rw [Cursor.rest_step, hrest, List.tail_cons]
      exact .plain (isMark_of_not_any ‹_› ‹p _ = true›)
  | word w =>
    rw [result_word] at h
    split at h
    · rename_i hafter
      obtain ⟨⟨X, hX⟩, rfl⟩ := Cursor.after?_eq_some hafter
      cases h
      rw [Cursor.rest_advance, ← hX, List.drop_left] at hend ⊢
      rw [nesting] at hf
      split at hf
      · subst w
        split at hf
        · cases hf
          exact .slash ((hsolid ‹_›).head hX.symm).2 (hend rfl)
        · cases hf
      · split at hf
        · subst w
          cases hf
          exact (Scans.slash rfl (by simp)).trans (Scans.plain rfl)
        · exact .of_word hf
    · cases h
  | finish =>
    rw [result_finish] at h
    split at h <;> cases h
    cases hf
    exact .refl
  | rule r =>
    rw [nesting] at hf
    split at hf
    · subst s
      cases hf
      exact hcall.scans r _ h
    · cases hf
  | both a b iha ihb =>
    rw [nesting, Option.bind_eq_some_iff] at hf
    obtain ⟨e, hfa, hfb⟩ := hf
    simp only [result_both, Outcome.andThen_eq_matched, Outcome.map_eq_matched] at h
    obtain ⟨_, m, ha, _, hb, -⟩ := h
    simp only [starsApart, endsInSlash, Bool.and_eq_true, Bool.or_eq_true,
      Bool.not_eq_true'] at hapart hend
    obtain ⟨⟨haparta, hapartb⟩, hopen⟩ := hapart
    refine (iha hfa haparta hsolid (fun hslash => ?_) ha).trans ((Scans.skip s).trans
      (ihb hfb hapartb isSolid_skip (fun hslash => hend (.inl hslash)) hb))
    have hopen := hopen.resolve_left (by simp [hslash])
    refine hcall.head_ne hopen hb ?_
    cases hconsumes : b.consumes with
    | true => exact .inl rfl
    | false => exact .inr (hend (.inr ⟨hconsumes, hslash⟩))
  | either a b iha ihb =>
    rw [nesting] at hf
    split at hf
    · rename_i hsame
      rw [result_either, Outcome.orElse_eq_matched] at h
      simp only [starsApart, endsInSlash, Bool.and_eq_true, Bool.or_eq_true] at hapart hend
      obtain h | ⟨-, h⟩ := h
      · exact iha hf hapart.1 hsolid (fun hslash => hend (.inl hslash)) h
      · exact ihb (hsame ▸ hf) hapart.2 hsolid (fun hslash => hend (.inr hslash)) h
    · cases hf
  | many a ih =>
    rw [nesting] at hf
    split at hf
    · obtain ⟨hconsumes, ha⟩ := ‹a.consumes = true ∧ _›
      cases hf
      simp only [starsApart, endsInSlash, Bool.and_eq_true, Bool.or_eq_true,
        Bool.not_eq_true'] at hapart hend
      obtain ⟨hapart, hopen⟩ := hapart
      -- Behind each of them there is no star, as one more or the end shows.
      have hone {m k : Cursor} {v : _} (hsolid : (solid && decide (s = .free)) = true → m.IsSolid)
          (hk : endsInSlash a = true → k.rest.head? ≠ some '*')
          (h : a.result call s m = .matched v k) :
          Scans (.code (openedIn d opened) m.rest) (.code (openedIn d opened) k.rest) :=
        ih ha hapart hsolid hk h
      rcases (many_eq_matched ..).mp h with ⟨_, m, _, hm, hmore, -⟩ | ⟨-, -, rfl⟩
      · have hbehind := manyResult_induction (P := fun m n _ =>
          (endsInSlash a = true → n.rest.head? ≠ some '*') →
            Scans (.code (openedIn d opened) m.rest) (.code (openedIn d opened) n.rest) ∧
            (endsInSlash a = true → m.rest.head? ≠ some '*'))
          (fun m hm => ⟨.refl, hm⟩) ?_ hmore hend
        · exact (hone (fun h => hsolid (Bool.and_eq_true_iff.mp h).1) hbehind.2 hm).trans hbehind.1
        · intro m v k _ n hk hmore hn
          obtain ⟨hn, hstark⟩ := hmore hn
          refine ⟨(Scans.skip s).trans ((hone
            (fun h => isSolid_skip (Bool.and_eq_true_iff.mp h).2) hstark hk).trans hn), ?_⟩
          exact fun hslash => hcall.head_ne (hopen.resolve_left (by simp [hslash])) hk
            (.inl hconsumes)
      · exact .refl
    · cases hf
  | perhaps a ih =>
    rw [nesting] at hf
    split at hf
    · rename_i ha
      cases hf
      simp only [result_perhaps, Outcome.orElse_eq_matched, Outcome.map_eq_matched] at h
      rcases h with ⟨_, h, -⟩ | ⟨-, h⟩
      · exact ih ha hapart hsolid hend h
      · cases h
        exact .refl
    · cases hf
  | «unless» a ih =>
    rw [nesting] at hf
    split at hf <;> cases hf
    rw [result_unless] at h
    split at h <;> cases h
    exact .refl
  | map g a ih =>
    rw [result_map, Outcome.map_eq_matched] at h
    obtain ⟨_, h, -⟩ := h
    exact ih hf hapart hsolid hend h
  | spanned a ih =>
    rw [result_spanned, Outcome.andThen_eq_matched] at h
    obtain ⟨_, _, h, hn⟩ := h
    cases hn
    exact ih hf hapart hsolid hend h
  | named a ih => exact ih hf hapart hsolid hend (result_named .. ▸ h)
  | spaced s' a ih => exact ih hf hapart hsolid hend h

/-- **What stands in front of a closing bracket closes what it opens**, so the scan ends there. -/
theorem Keeps.of_closed (hcall : Keeps call) {close : String} {y : Char}
    (hclose : close.toList = [y]) {f : Phrase α} (hf : nesting .free true f 0 = some 0)
    (hapart : starsApart f = true ∧ endsInSlash f = false) (hc : c.IsSolid) {v : α}
    (h : (f <* token close : Phrase _).result call .free c = .matched v m) :
    Scans (.code opened c.rest) (.code opened (y :: m.rest)) := by
  simp only [result_seqLeft, Outcome.andThen_eq_matched, Outcome.map_eq_matched] at h
  obtain ⟨_, k, hinside, _, hend, -⟩ := h
  have hend : (Spacing.free.skip k).Over [y] m := hclose ▸ over_of_token hend
  have hbehind : Scans (.code opened c.rest) (.code opened k.rest) :=
    hcall.of_matched f hf hapart.1 (fun _ => hc) (by simp [hapart.2]) hinside
  have hskip := hbehind.trans (Scans.skip .free)
  rwa [hend.rest_eq] at hskip

/-- What stands in brackets is scanned from the opening to the closing one. -/
theorem Keeps.of_bracketed (hcall : Keeps call) {opening close : String} {x y : Char}
    (hopening : opening.toList = [x]) (hclose : close.toList = [y])
    {f : Phrase α} (hf : nesting .free true f 0 = some 0)
    (hapart : starsApart f = true ∧ endsInSlash f = false) {v : α}
    (h : (token opening *> f <* token close : Phrase _).result call .free c = .matched v m) :
    Scans (.code opened c.rest.tail) (.code opened (y :: m.rest)) := by
  simp only [result_seqLeft, result_seqRight, Outcome.andThen_eq_matched,
    Outcome.map_eq_matched] at h
  obtain ⟨w, k, ⟨_, d, hopen, hinside⟩, _, hend, rfl⟩ := h
  have hopen : c.Over [x] d := hopening ▸ over_of_token hopen
  rw [hopen.rest_eq, List.singleton_append, List.tail_cons]
  refine (Scans.skip .free).trans
    (hcall.of_closed hclose hf hapart d.isSolid_skipBlanks (v := w) ?_)
  simp only [result_seqLeft, Outcome.andThen_eq_matched, Outcome.map_eq_matched]
  exact ⟨_, k, hinside, _, hend, rfl⟩

/-! ## Strings -/

namespace ScansIn

/-- Characters that are neither quote nor backslash stay in the string. -/
theorem string_chars (hw : q ∉ w) (hslash : '\\' ∉ w) :
    ScansIn (· = .string q) ⟨.string q, opened, w ++ X⟩ ⟨.string q, opened, X⟩ := by
  induction w with
  | nil => exact .refl
  | cons x w ih =>
    simp only [List.mem_cons, not_or] at hw hslash
    exact (string_plain (Ne.symm hslash.1) (Ne.symm hw.1)).trans (ih hw.2 hslash.2)

/-- An escaped character stays in the string. -/
theorem of_escape (hcall : Advancing call) (hq : isQuote q = true) {v : List Char}
    (h : escape.result call .quiet c = .matched v n) :
    ScansIn (· = .string q) ⟨.string q, opened, c.rest⟩ ⟨.string q, opened, n.rest⟩ := by
  rw [escape, result_text, Outcome.andThen_eq_matched] at h
  obtain ⟨_, m, h, he⟩ := h
  cases he
  rw [result_seqRight, Outcome.andThen_eq_matched] at h
  obtain ⟨_, k, hslash, h⟩ := h
  have hslash : c.Over ['\\'] k := over_of_token hslash
  rw [hslash.rest_eq, List.singleton_append]
  refine string_backslash.trans ?_
  -- A long escape takes neither a quote nor another backslash.
  have hlong {f : Phrase (List Char)} {v : List Char}
      (hf : f.avoids '"' = true ∧ f.avoids '\'' = true ∧ f.avoids '\\' = true)
      (hconsumes : f.consumes = true) (h : f.result call .quiet k = .matched v n) :
      ScansIn (· = .string q) ⟨.string q, opened, k.rest.tail⟩
        ⟨.string q, opened, n.rest⟩ := by
    have hquote : q ∉ k.textTo n := by
      simp only [isQuote, Bool.or_eq_true, decide_eq_true_eq] at hq
      obtain rfl | rfl := hq
      · exact not_mem_of_avoids hcall hf.1 h
      · exact not_mem_of_avoids hcall hf.2.1 h
    have hbackslash := not_mem_of_avoids hcall hf.2.2 h
    have hlt := f.lt_of_matched hcall h hconsumes
    rw [← Cursor.textTo_append hlt.le]
    cases hw : k.textTo n with
    | nil =>
      have hrest := Cursor.textTo_append hlt.le
      rw [hw] at hrest
      exact absurd (Cursor.length_rest_lt hlt) (by simp [← hrest])
    | cons x w =>
      rw [hw] at hquote hbackslash
      rw [List.cons_append, List.tail_cons]
      exact string_chars (fun hx => hquote (List.mem_cons_of_mem x hx))
        fun hx => hbackslash (List.mem_cons_of_mem x hx)
  simp only [Spacing.skip, result_orElse, Outcome.orElse_eq_matched] at h
  obtain h | ⟨-, h | ⟨-, h | ⟨-, h⟩⟩⟩ := h
  · exact hlong (by decide) rfl h
  · exact hlong (by decide) rfl h
  · exact hlong (by decide) rfl h
  · rw [result_text, anyChar, result_one] at h
    cases hrest : k.rest with
    | nil => simp [hrest] at h
    | cons x rest =>
      simp only [hrest, if_true, Outcome.andThen_matched, Outcome.matched.injEq] at h
      rw [← h.2, Cursor.rest_step, hrest]

/-- A piece of a string stays in the string. -/
theorem of_stringPiece (hcall : Advancing call) (hq : isQuote q = true) {v : List Char}
    (h : (stringPiece q).result call .quiet c = .matched v n) :
    ScansIn (· = .string q) ⟨.string q, opened, c.rest⟩ ⟨.string q, opened, n.rest⟩ := by
  rw [stringPiece, result_orElse, Outcome.orElse_eq_matched] at h
  obtain h | ⟨-, h⟩ := h
  · exact of_escape hcall hq h
  · rw [result_text, result_seqRight, result_unless, result_one] at h
    cases hrest : c.rest with
    | nil => simp [hrest, anyChar, result_one, Spacing.skip] at h
    | cons x rest =>
      by_cases hx : x = q ∨ x = '\\' ∨ x = '\n'
      · simp [hrest, hx, or_assoc] at h
      · simp only [not_or] at hx
        simp only [hrest, hx, anyChar, result_one, Spacing.skip, decide_false, Bool.or_self,
          Bool.false_eq_true, if_false, if_true, Outcome.andThen_matched,
          Outcome.matched.injEq] at h
        rw [← h.2, Cursor.rest_step, hrest, List.tail_cons]
        exact string_plain hx.2.1 hx.1

/-- The inside of a string, up to its closing quote. -/
theorem of_stringInside (hcall : Advancing call) (hq : isQuote q = true) {v : List Char}
    (h : (stringInside q).result call s c = .matched v n) :
    ScansIn (· = .string q) ⟨.string q, opened, c.rest⟩ ⟨.string q, opened, n.rest⟩ := by
  simp only [stringInside, Form.atom, result_named, result_spaced, result_text,
    Outcome.andThen_eq_matched] at h
  obtain ⟨vs, _, hmany, he⟩ := h
  cases he
  change (Form.many (stringPiece q)).result call .quiet c = .matched vs n at hmany
  rcases (many_eq_matched ..).mp hmany with ⟨_, j, _, hj, hmore, -⟩ | ⟨-, -, rfl⟩
  · refine (of_stringPiece hcall hq hj).trans ?_
    refine manyResult_induction (P := fun j m _ => ScansIn (· = .string q)
      ⟨.string q, opened, j.rest⟩ ⟨.string q, opened, m.rest⟩) (fun _ => .refl) ?_ hmore
    exact fun _ _ _ _ _ hj hm => (of_stringPiece hcall hq hj).trans hm
  · exact .refl

end ScansIn

theorem ne_backslash_of_isQuote (hq : isQuote q = true) : q ≠ '\\' := by
  rintro rfl
  cases hq

/-- A string is its quotes with the inside between. -/
theorem parts_of_quoted {mark : String} (hmark : mark.toList = [q]) {v : List Char}
    (h : (token mark *> stringInside q <* token mark : Phrase _).result call .tight c =
      .matched v n) :
    ∃ k m, c.Over [q] k ∧ (stringInside q).result call .tight k = .matched v m ∧
      m.Over [q] n := by
  simp only [result_seqLeft, result_seqRight, Outcome.andThen_eq_matched,
    Outcome.map_eq_matched] at h
  obtain ⟨_, m, ⟨_, k, hopen, hinside⟩, _, hclose, rfl⟩ := h
  exact ⟨k, m, hmark ▸ over_of_token hopen, hinside, hmark ▸ over_of_token hclose⟩

/-- **A string goes the way of a scan**, from the code back to the code. -/
theorem Scans.of_quoted (hcall : Advancing call) (hq : isQuote q = true) {mark : String}
    (hmark : mark.toList = [q]) {v : List Char}
    (h : (token mark *> stringInside q <* token mark : Phrase _).result call .tight c =
      .matched v n) :
    Scans (.code opened c.rest) (.code opened n.rest) := by
  obtain ⟨k, m, hopen, hinside, hclose⟩ := parts_of_quoted hmark h
  rw [hopen.rest_eq, List.singleton_append]
  refine (Scans.quote hq).trans ((ScansIn.of_stringInside hcall hq hinside).scans.trans ?_)
  rw [hclose.rest_eq, List.singleton_append]
  exact (ScansIn.string_quote (ne_backslash_of_isQuote hq)).scans

/-! ## Templates -/

/-- One piece of the characters of a template. -/
def templatePiece : Phrase (List Char) :=
  text (token "\\" *> anyChar) <|>
    text (.unless (token "`" <|> token "$\x7b" <|> token "\\") *> anyChar)

/-- Characters of a template, or a value. -/
def templatePart : Phrase (Built (List Char ⊕ Expr)) :=
  (fun cs => .ok (.inl cs)) <$> templateChars <|>
    (fun value : Built Expr => value.map Sum.inr) <$> templateValue

/-- A template but for its value. -/
def templateBody : Phrase (List (Built (List Char ⊕ Expr))) :=
  .spaced .tight (.named (token "`" *> .many templatePart <* token "`"))

/-- How many characters a piece of a template takes, if there is one. -/
def pieceLength : List Char → Nat
  | [] => 0
  | '\\' :: rest => if rest.isEmpty then 0 else 2
  | x :: rest => if x = '`' ∨ x = '$' ∧ rest.head? = some '\x7b' then 0 else 1

/-- A piece of a template is as long as the text tells. -/
theorem result_templatePiece
    (call : {α : Type} → Rule α → Spacing → Cursor → Attempt α) (c : Cursor) :
    pieceLength c.rest = 0 ∧ templatePiece.result call .quiet c = .failed ∨
    0 < pieceLength c.rest ∧ ∃ v, templatePiece.result call .quiet c =
      .matched v (c.advance (pieceLength c.rest)) := by
  obtain ⟨rest, o, p⟩ := c
  dsimp only
  unfold pieceLength
  split
  · exact .inl ⟨rfl, rfl⟩
  · rename_i rest
    cases rest with
    | nil => exact .inl ⟨rfl, rfl⟩
    | cons y rest => exact .inr ⟨Nat.two_pos, _, rfl⟩
  · rename_i x rest hslash
    by_cases hx : x = '`' ∨ x = '$' ∧ rest.head? = some '\x7b'
    · rw [if_pos hx]
      refine .inl ⟨rfl, ?_⟩
      obtain rfl | ⟨rfl, hhead⟩ := hx
      · rfl
      · obtain ⟨Y, rfl⟩ := List.head?_eq_some_iff.mp hhead
        rfl
    · rw [if_neg hx]
      simp only [not_or, not_and] at hx
      have hother (k : String) (y : Char) (v : List Char) (hk : k.toList = y :: v)
          (h : y = x → ¬ v <+: rest) :
          (token k : Phrase Unit).result call .quiet ⟨x :: rest, o, p⟩ = .failed := by
        refine result_token_absent k fun hstarts => ?_
        rw [hk] at hstarts
        obtain ⟨hy, hv⟩ := List.cons_prefix_cons.mp hstarts
        exact h hy hv
      have hbackslash := hother "\\" '\\' [] rfl fun h => absurd h.symm hslash
      have hbacktick := hother "`" '`' [] rfl fun h => absurd h.symm hx.1
      have hvalue := hother "$\x7b" '$' ['\x7b'] rfl fun h hv => by
        obtain ⟨Y, rfl⟩ := hv
        exact hx.2 h.symm rfl
      refine .inr ⟨Nat.one_pos, Cursor.textTo ⟨x :: rest, o, p⟩ (.step ⟨x :: rest, o, p⟩), ?_⟩
      simp only [templatePiece, result_orElse, result_text, result_seqRight, hbackslash,
        Outcome.andThen_failed, Outcome.orElse_failed, result_unless, hbacktick, hvalue,
        Outcome.andThen_matched, Spacing.skip, anyChar, result_one, if_true]
      rfl

/-- **A piece of a template goes the way of a scan.** -/
theorem ScansIn.drop_pieceLength (cs : List Char) :
    ScansIn (· = .template) ⟨.template, opened, cs⟩
      ⟨.template, opened, cs.drop (pieceLength cs)⟩ := by
  unfold pieceLength
  split
  · exact .refl
  · rename_i rest
    cases rest with
    | nil => exact .refl
    | cons y rest => exact template_backslash
  · rename_i x rest hslash
    split
    · exact .refl
    · rename_i hx
      simp only [not_or] at hx
      exact template_plain hslash hx.1 hx.2

/-- Literal characters stay in the template. -/
theorem ScansIn.of_templateChars {v : List Char}
    (h : templateChars.result call s c = .matched v n) :
    ScansIn (· = .template) ⟨.template, opened, c.rest⟩ ⟨.template, opened, n.rest⟩ := by
  have hpiece {c n : Cursor} {v : List Char}
      (h : templatePiece.result call .quiet c = .matched v n) :
      ScansIn (· = .template) ⟨.template, opened, c.rest⟩ ⟨.template, opened, n.rest⟩ := by
    obtain ⟨-, hfailed⟩ | ⟨-, w, hmatched⟩ := result_templatePiece call c
    · cases h.symm.trans hfailed
    · cases h.symm.trans hmatched
      rw [Cursor.rest_advance]
      exact drop_pieceLength c.rest
  change (Form.atom (text (atLeastOne templatePiece)) : Phrase _).result call s c = _ at h
  simp only [Form.atom, result_named, result_spaced, result_text, atLeastOne, result_combine,
    Outcome.andThen_eq_matched, Outcome.map_eq_matched, Spacing.skip] at h
  obtain ⟨_, m, ⟨_, k, hfirst, _, hmany, -⟩, he⟩ := h
  cases he
  refine (hpiece hfirst).trans ?_
  rcases (many_eq_matched ..).mp hmany with ⟨_, j, _, hj, hmore, -⟩ | ⟨-, -, rfl⟩
  · refine (hpiece hj).trans ?_
    exact manyResult_induction (P := fun j m _ => ScansIn (· = .template)
      ⟨.template, opened, j.rest⟩ ⟨.template, opened, m.rest⟩) (fun _ => .refl)
      (fun _ _ _ _ _ hj hm => (hpiece hj).trans hm) hmore
  · exact .refl

/-- A value in a template is scanned from the brace that opens it to the one that closes it. -/
theorem Keeps.of_templateValue (hcall : Keeps call) {v : Built Expr}
    (h : templateValue.result call s c = .matched v n) :
    Scans ⟨.template, opened, c.rest⟩ ⟨.template, opened, n.rest⟩ := by
  simp only [templateValue, result_spaced, result_named, result_seqLeft, result_seqRight,
    Outcome.andThen_eq_matched, Outcome.map_eq_matched, result_rule] at h
  obtain ⟨_, m, ⟨_, k, hopen, hvalue⟩, _, hclose, -⟩ := h
  have hopen : c.Over ['$', '\x7b'] k := over_of_token hopen
  have hclose : (Spacing.free.skip m).Over ['\x7d'] n := over_of_token hclose
  rw [hopen.rest_eq]
  refine ScansIn.template_value.scans.trans ((Scans.skip .free).trans
    ((hcall.scans .expression (.value :: opened) hvalue).trans ((Scans.skip .free).trans ?_)))
  rw [hclose.rest_eq]
  exact Scans.closing_value rfl

/-- **A template goes the way of a scan**, from the code back to the code. -/
theorem Keeps.of_templateBody (hcall : Keeps call) {v : List (Built (List Char ⊕ Expr))}
    (h : templateBody.result call s c = .matched v n) :
    Scans (.code opened c.rest) (.code opened n.rest) := by
  have hpart {c n : Cursor} {v : Built (List Char ⊕ Expr)}
      (h : templatePart.result call .tight c = .matched v n) :
      Scans ⟨.template, opened, c.rest⟩ ⟨.template, opened, n.rest⟩ := by
    simp only [templatePart, result_orElse, result_fmap, Outcome.orElse_eq_matched,
      Outcome.map_eq_matched] at h
    obtain ⟨_, h, -⟩ | ⟨-, _, h, -⟩ := h
    · exact (ScansIn.of_templateChars h).scans
    · exact hcall.of_templateValue h
  simp only [templateBody, result_spaced, result_named, result_seqLeft, result_seqRight,
    Outcome.andThen_eq_matched, Outcome.map_eq_matched, Spacing.skip] at h
  obtain ⟨_, m, ⟨_, k, hopen, hmany⟩, _, hclose, -⟩ := h
  have hopen : c.Over ['`'] k := over_of_token hopen
  have hclose : m.Over ['`'] n := over_of_token hclose
  have hinside : Scans ⟨.template, opened, k.rest⟩ ⟨.template, opened, m.rest⟩ := by
    rcases (many_eq_matched ..).mp hmany with ⟨_, j, _, hj, hmore, -⟩ | ⟨-, -, rfl⟩
    · refine (hpart hj).trans ?_
      exact manyResult_induction (P := fun j m _ =>
        Scans ⟨.template, opened, j.rest⟩ ⟨.template, opened, m.rest⟩) (fun _ => .refl)
        (fun _ _ _ _ _ hj hm => (hpart hj).trans hm) hmore
    · exact .refl
  rw [hopen.rest_eq]
  refine Scans.backtick.trans (hinside.trans ?_)
  rw [hclose.rest_eq]
  exact ScansIn.template_backtick.scans

end

/-! ## The rules -/

/-- **The rules of the language go the way of a scan** and close what they open. -/
theorem keeps_follow (fuel : Nat) : Keeps (follow fuel) := by
  refine ⟨starless_follow fuel, ?_⟩
  induction fuel with
  | zero => exact fun _ _ _ _ _ h => nomatch h
  | succ fuel ih =>
    intro α r c n v opened h
    have hcall : Keeps (follow fuel) := ⟨starless_follow fuel, ih⟩
    change r.phrase.result (follow fuel) .free c = .matched v n at h
    cases hr : r.isQuoted with
    | false =>
      exact hcall.of_matched r.phrase (r.nesting_phrase hr) r.starsApart_phrase.1 nofun
        (by simp [r.starsApart_phrase.2]) h
    | true =>
      cases r with
      | string =>
        change (Form.rule .string : Phrase _).result (follow (fuel + 1)) .free c = _ at h
        rw [result_string, Outcome.orElse_eq_matched] at h
        obtain h | ⟨-, h⟩ := h
        · exact .of_quoted (advancing_follow fuel) rfl rfl h
        · exact .of_quoted (advancing_follow fuel) rfl rfl h
      | template =>
        rw [Rule.phrase, Phrase.template, result_fmap, Outcome.map_eq_matched] at h
        obtain ⟨_, h, -⟩ := h
        exact hcall.of_templateBody h
      | _ => cases hr

end ScriptTrace.Syntax
