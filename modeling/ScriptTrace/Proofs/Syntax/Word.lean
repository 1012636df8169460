import ScriptTrace.Proofs.Grammar.Reading
import ScriptTrace.Syntax.Rules

/-!
# Proofs/Syntax/Word — words and names in a text

A word is a longest row of characters of a name.  A keyword is read exactly where its word stands,
a name where a word stands that is not reserved.
-/

namespace ScriptTrace.Syntax

open Grammar
open Grammar.Form

variable {call : {α : Type} → Rule α → Spacing → Cursor → Attempt α} {s : Spacing} {c n : Cursor}
  {w k X : List Char}

/-! ## Fixed texts -/

theorem result_word_of_over (h : c.Over w n) :
    (Form.word w : Phrase Unit).result call s c = .matched () n := by
  rw [result_word, Cursor.after?_of_append h.rest_eq, h.eq_advance]

theorem result_word_absent (h : ¬ w <+: c.rest) :
    (Form.word w : Phrase Unit).result call s c = .failed := by
  rw [result_word, Cursor.after?_eq_none.mpr h]

theorem result_token (w : String) (h : c.Over w.toList n) :
    (token w : Phrase Unit).result call s c = .matched () n := result_word_of_over h

/-- A text that is read stands there. -/
theorem over_of_token {w : String} {v : Unit}
    (h : (token w : Phrase Unit).result call s c = .matched v n) : c.Over w.toList n := by
  rw [token, result_word] at h
  cases hafter : c.after? w.toList with
  | none =>
    rw [hafter] at h
    cases h
  | some m =>
    obtain ⟨⟨X, hX⟩, rfl⟩ := Cursor.after?_eq_some hafter
    rw [hafter] at h
    cases h
    exact .of_append hX.symm

theorem result_token_absent (w : String) (h : ¬ w.toList <+: c.rest) :
    (token w : Phrase Unit).result call s c = .failed := result_word_absent h

/-- A text that starts with another character does not stand here. -/
theorem token_other {k : String} {x y : Char} {v : List Char} (h : c.rest = x :: X)
    (hk : k.toList = y :: v) (hne : y ≠ x) : (token k : Phrase Unit).result call s c = .failed := by
  refine result_token_absent k fun hstarts => hne ?_
  rw [hk, h] at hstarts
  exact (List.cons_prefix_cons.mp hstarts).1

theorem result_oneOf_nil : (oneOf [] : Phrase Unit).result call s c = .failed := by
  rw [oneOf, result_map, result_one]
  cases c.rest <;> rfl

/-- Of several words the first one that stands there is read. -/
theorem result_oneOf_cons (w : String) (ws : List String) :
    (oneOf (w :: ws) : Phrase Unit).result call s c =
      ((token w : Phrase Unit).result call s c).orElse fun _ =>
        (oneOf ws : Phrase Unit).result call s c := by
  cases ws with
  | nil =>
    simp only [result_oneOf_nil]
    change (token w : Phrase Unit).result call s c = _
    cases (token w : Phrase Unit).result call s c <;> rfl
  | cons w' ws => exact result_either ..

/-- The first of several texts that stands here is taken. -/
theorem result_oneOf (call : {α : Type} → Rule α → Spacing → Cursor → Attempt α) (s : Spacing)
    (c : Cursor) (ws : List String) :
    (oneOf ws : Phrase Unit).result call s c = .failed ∨
      ∃ w ∈ ws, w.toList <+: c.rest ∧
        (oneOf ws : Phrase Unit).result call s c = .matched () (c.advance w.toList.length) := by
  induction ws with
  | nil => exact .inl result_oneOf_nil
  | cons w ws ih =>
    rw [result_oneOf_cons]
    by_cases hw : w.toList <+: c.rest
    · obtain ⟨X, hX⟩ := hw
      rw [result_token w (.of_append hX.symm)]
      exact .inr ⟨w, List.mem_cons_self, ⟨X, hX⟩, rfl⟩
    · rw [result_token_absent w hw]
      exact ih.imp_right fun ⟨w', hmem, h⟩ => ⟨w', List.mem_cons_of_mem w hmem, h⟩

/-! ## Words -/

namespace Phrase

/-- **A word**: the text of a name, which may be reserved. -/
def isWord : List Char → Bool
  | [] => false
  | x :: rest => isNameStart x && rest.all isNameChar

/-- **A text that continues no word.** -/
def Bounds (X : List Char) : Prop := ∀ x ∈ X.head?, isNameChar x = false

theorem isNameChar_of_isNameStart {x : Char} (h : isNameStart x = true) : isNameChar x = true := by
  simp only [isNameStart, isNameChar, Char.isAlphanum, Bool.or_eq_true] at h ⊢
  tauto

/-- A word is its first character and the others. -/
theorem exists_of_isWord (h : isWord w = true) : ∃ x v, w = x :: v ∧ isNameStart x = true ∧
    v.all isNameChar = true := by
  cases w with
  | nil => cases h
  | cons x v => exact ⟨x, v, rfl, Bool.and_eq_true_iff.mp h⟩

theorem all_of_isWord (h : isWord w = true) : w.all isNameChar = true := by
  obtain ⟨x, v, rfl, hx, hv⟩ := exists_of_isWord h
  exact Bool.and_eq_true_iff.mpr ⟨isNameChar_of_isNameStart hx, hv⟩

theorem ne_of_isNameStart {x y : Char} (hx : isNameStart x = true) (hy : isNameStart y = false) :
    y ≠ x := by
  rintro rfl
  simp [hx] at hy

/-- Another word that stands at the front of a word is continued. -/
theorem continues (hw : w.all isNameChar = true) (hX : Bounds X) (hk : k.all isNameChar = true)
    (hstarts : k <+: w ++ X) (hne : k ≠ w) :
    ∃ y t, (w ++ X).drop k.length = y :: t ∧ isNameChar y = true := by
  rw [List.all_eq_true] at hw hk
  rcases List.prefix_or_prefix_of_prefix hstarts (List.prefix_append w X) with ⟨t, rfl⟩ | ⟨t, rfl⟩
  · cases t with
    | nil => simp at hne
    | cons y t => exact ⟨y, t ++ X, by simp, hw y (by simp)⟩
  · cases t with
    | nil => simp at hne
    | cons y t =>
      rw [List.prefix_append_right_inj] at hstarts
      obtain ⟨t', rfl⟩ := hstarts
      exact absurd (hk y (by simp)) (by simp [hX y (by simp)])

theorem result_unless_nameChar_of_bounds (hX : Bounds c.rest) :
    (Form.unless nameChar : Phrase Unit).result call s c = .matched () c := by
  rw [result_unless, nameChar, result_one]
  cases h : c.rest with
  | nil => rfl
  | cons x rest => simp [hX x (by simp [h])]

theorem result_unless_nameChar_of_cons {y : Char} {t : List Char} (h : c.rest = y :: t)
    (hy : isNameChar y = true) :
    (Form.unless nameChar : Phrase Unit).result call s c = .failed := by
  rw [result_unless, nameChar, result_one, h]
  simp [hy]

/-- A keyword is its characters with no more of a name behind them. -/
theorem result_keyword (w : String) :
    (keyword w).result call s c =
      ((token w : Phrase Unit).result call .quiet c).andThen fun _ m =>
        ((Form.unless nameChar : Phrase Unit).result call .quiet m).map fun _ => () := by
  rw [keyword, atom, result_named, result_spaced, wholeWord, result_seqLeft]
  rfl

/-- **A keyword is read where its word stands.** -/
theorem keyword_self {w : String} (h : c.Over w.toList n) (hn : Bounds n.rest) :
    (keyword w).result call s c = .matched () n := by
  rw [result_keyword, result_token w h, Outcome.andThen_matched,
    result_unless_nameChar_of_bounds hn]
  rfl

/-- A keyword that is read stands there. -/
theorem over_of_keyword {w : String} {v : Unit}
    (h : (keyword w).result call s c = .matched v n) : c.Over w.toList n := by
  rw [result_keyword, Outcome.andThen_eq_matched] at h
  obtain ⟨_, m, hword, h⟩ := h
  rw [result_unless] at h
  split at h <;> cases h
  exact over_of_token hword

/-- **Another keyword is not.** -/
theorem keyword_other {k : String} (h : c.Over w n) (hw : w.all isNameChar = true)
    (hn : Bounds n.rest) (hk : k.toList.all isNameChar = true) (hne : k.toList ≠ w) :
    (keyword k).result call s c = .failed := by
  rw [result_keyword]
  by_cases hstarts : k.toList <+: c.rest
  · obtain ⟨t, ht⟩ := hstarts
    obtain ⟨y, t', hdrop, hy⟩ :=
      continues hw hn hk ⟨t, ht.trans h.rest_eq⟩ hne
    have hrest : (c.advance k.toList.length).rest = y :: t' := by
      rw [Cursor.rest_advance, h.rest_eq, hdrop]
    rw [result_token k (.of_append ht.symm), Outcome.andThen_matched,
      result_unless_nameChar_of_cons hrest hy]
    rfl
  · rw [result_token_absent k hstarts]
    rfl

/-! ## Names -/

/-- Characters of a kind, one behind the other. -/
theorem runs_one {p : Char → Bool} (hs : s ≠ .free) (hw : w.all p = true) (h : c.Over w n) :
    Runs ((Form.one p : Phrase Char).again call s) c w n := by
  induction w generalizing c with
  | nil =>
    obtain rfl := h.eq_advance
    exact .nil _
  | cons x w ih =>
    obtain ⟨hrest, hstep⟩ := Cursor.Over.cons_iff.mp h
    obtain ⟨hx, hw⟩ := Bool.and_eq_true_iff.mp hw
    have hskip : s.skip c = c := by cases s <;> trivial
    have hread : (Form.one p : Phrase Char).again call s c = .matched x c.step := by
      rw [again, hskip, result_one, hrest]
      simp [hx]
    exact .cons hread (ih hw hstep)

/-- A word is read up to where it ends. -/
theorem result_nameText (hcall : Advancing call) (hw : isWord w = true) (h : c.Over w n)
    (hn : Bounds n.rest) : nameText.result call .quiet c = .matched w n := by
  obtain ⟨x, v, rfl, hx, hv⟩ := exists_of_isWord hw
  obtain ⟨hrest, hstep⟩ := Cursor.Over.cons_iff.mp h
  have hend : nameChar.again call .quiet n = .failed := by
    change nameChar.result call .quiet n = _
    rw [nameChar, result_one]
    cases hX : n.rest with
    | nil => rfl
    | cons y X => simp [hn y (by simp [hX])]
  have hruns : Runs (nameChar.again call .quiet) c.step v n := runs_one nofun hv hstep
  have hmany := many_of_runs hcall rfl hruns hend rfl
  rw [nameText, result_text, result_seqLeft, result_one, hrest]
  simp only [hx, if_true, Outcome.andThen_matched, Spacing.skip, hmany, Outcome.map_matched,
    h.textTo]

/-- No name begins with what begins none. -/
theorem nameText_failed (hc : ∀ x ∈ c.rest.head?, isNameStart x = false) :
    nameText.result call .quiet c = .failed := by
  rw [nameText, result_text, result_seqLeft, result_one]
  cases hrest : c.rest with
  | nil => rfl
  | cons x X => simp [hc x (by simp [hrest])]

/-- A text whose characters are no word starts no name. -/
theorem start_of_not_isWord (hw : w.all isNameChar = true) (hword : isWord w = false)
    (h : c.Over w n) (hn : Bounds n.rest) : ∀ x ∈ c.rest.head?, isNameStart x = false := by
  intro x hx
  rw [Bool.eq_false_iff]
  intro hstart
  rw [h.rest_eq] at hx
  cases w with
  | nil => exact absurd (isNameChar_of_isNameStart hstart) (by simp [hn x hx])
  | cons y v =>
    obtain rfl : y = x := by simpa using hx
    have hword' : isWord (y :: v) = true :=
      Bool.and_eq_true_iff.mpr ⟨hstart, (Bool.and_eq_true_iff.mp hw).2⟩
    simp [hword'] at hword

/-- A word up to its end is a name of a property. -/
theorem result_propertyName (hcall : Advancing call) {x : String} (hx : isWord x.toList = true)
    (h : c.Over x.toList n) (hn : Bounds n.rest) :
    propertyName.result call s c = .matched x n := by
  rw [propertyName, atom, result_fmap, result_named, result_spaced,
    result_nameText hcall hx h hn, Outcome.map_matched, String.ofList_toList]

/-- A reserved word is one of the list with no more of a name behind it. -/
theorem result_reserved :
    reserved.result call .quiet c =
      ((oneOf reservedWords : Phrase Unit).result call .quiet c).andThen fun _ m =>
        ((Form.unless nameChar : Phrase Unit).result call .quiet m).map fun _ => () := by
  rw [reserved, result_seqLeft]
  rfl

theorem isNameChar_reserved : ∀ w ∈ reservedWords, w.toList.all isNameChar = true := by
  decide

/-- Where a word stands that is not reserved, no reserved word does. -/
theorem reserved_other {x : String} (hx : isWord x.toList = true) (hfree : x ∉ reservedWords)
    (h : c.Over x.toList n) (hn : Bounds n.rest) :
    reserved.result call .quiet c = .failed := by
  rw [result_reserved]
  rcases result_oneOf call .quiet c reservedWords with
    hone | ⟨k, hk, hstarts, hone⟩
  · rw [hone]
    rfl
  · have hne : k.toList ≠ x.toList := fun heq => hfree (String.toList_inj.mp heq ▸ hk)
    obtain ⟨y, t, hdrop, hy⟩ :=
      continues (all_of_isWord hx) hn (isNameChar_reserved k hk) (h.rest_eq ▸ hstarts) hne
    have hrest : (c.advance k.toList.length).rest = y :: t := by
      rw [Cursor.rest_advance, h.rest_eq, hdrop]
    rw [hone, Outcome.andThen_matched, result_unless_nameChar_of_cons hrest hy]
    rfl

/-- **A name is read where a word stands that is not reserved.** -/
theorem result_name (hcall : Advancing call) {x : String} (hx : isWord x.toList = true)
    (hfree : x ∉ reservedWords) (h : c.Over x.toList n) (hn : Bounds n.rest) :
    name.result call s c = .matched x n := by
  rw [name, atom, result_fmap, result_named, result_spaced, result_seqRight, result_unless,
    reserved_other hx hfree h hn]
  change ((nameText.result call .quiet c).map String.ofList) = _
  rw [result_nameText hcall hx h hn, Outcome.map_matched, String.ofList_toList]

/-- A name takes the whole word where it is read. -/
theorem name_takes_word (hcall : Advancing call) (hw : w.all isNameChar = true)
    (h : c.Over w n) (hn : Bounds n.rest) : name.result call s c = .failed ∨
      name.result call s c = .matched (String.ofList w) n := by
  have hreserved : reserved.result call .quiet c ≠ .exhausted := by
    rw [result_reserved]
    rcases result_oneOf call .quiet c reservedWords with
      hone | ⟨k, -, -, hone⟩
    · simp [hone]
    · rw [hone, Outcome.andThen_matched, result_unless, nameChar, result_one]
      cases (c.advance k.toList.length).rest with
      | nil => simp
      | cons y t => cases hy : isNameChar y <;> simp [hy]
  have hname : name.result call s c = (match reserved.result call .quiet c with
      | .matched _ _ => .failed
      | .failed => (nameText.result call .quiet c).map String.ofList
      | .exhausted => .exhausted) := by
    rw [name, atom, result_fmap, result_named, result_spaced, result_seqRight, result_unless]
    cases reserved.result call .quiet c <;> rfl
  rw [hname]
  cases hr : reserved.result call .quiet c with
  | matched v m => exact .inl rfl
  | failed =>
    cases hword : isWord w with
    | true => exact .inr (by simp only [result_nameText hcall hword h hn, Outcome.map_matched])
    | false =>
      refine .inl ?_
      dsimp only
      rw [nameText_failed (start_of_not_isWord hw hword h hn), Outcome.map_failed]
  | exhausted => exact absurd hr hreserved

/-! ## Names that were read -/

/-- One character of a kind. -/
theorem over_of_one {p : Char → Bool} {x : Char}
    (h : (Form.one p : Phrase Char).result call s c = .matched x n) :
    p x = true ∧ c.Over [x] n := by
  rw [result_one] at h
  split at h
  · cases h
  · rename_i y Y hrest
    split at h
    · cases h
      exact ⟨‹_›, .of_append (w := [x]) hrest⟩
    · cases h

/-- Characters of one sort have been read one by one. -/
theorem over_of_runs_one {p : Char → Bool}
    (h : Runs ((Form.one p : Phrase Char).again call .quiet) c w n) :
    w.all p = true ∧ c.Over w n := by
  induction h with
  | nil c => exact ⟨rfl, rfl, rfl⟩
  | cons hx _ ih =>
    obtain ⟨hx, hover⟩ := over_of_one hx
    exact ⟨Bool.and_eq_true_iff.mpr ⟨hx, ih.1⟩, Cursor.Over.append_iff.mpr ⟨_, hover, ih.2⟩⟩

/-- Where no character of a name follows, a word ends. -/
theorem bounds_of_nameChar_failed (h : nameChar.result call .quiet c = .failed) :
    Bounds c.rest := by
  intro x hx
  obtain ⟨rest, hrest⟩ := List.head?_eq_some_iff.mp hx
  rw [nameChar, result_one, hrest] at h
  by_contra hname
  simp [hname] at h

/-- What is read as a name is a word up to where it ends. -/
theorem over_of_nameText (hcall : Advancing call)
    (h : nameText.result call .quiet c = .matched w n) :
    isWord w = true ∧ c.Over w n ∧ Bounds n.rest := by
  rw [nameText, result_text, result_seqLeft, Outcome.andThen_eq_matched] at h
  obtain ⟨_, _, h, he⟩ := h
  cases he
  rw [Outcome.andThen_eq_matched] at h
  obtain ⟨x, m, hx, h⟩ := h
  rw [Outcome.map_eq_matched] at h
  obtain ⟨v, hmany, -⟩ := h
  obtain ⟨hx, hover⟩ := over_of_one hx
  obtain ⟨hruns, hend⟩ := runs_of_many (s := .quiet) hcall rfl rfl hmany
  obtain ⟨hv, hover'⟩ := over_of_runs_one hruns
  have hword : c.Over (x :: v) n := Cursor.Over.append_iff.mpr ⟨_, hover, hover'⟩
  rw [hword.textTo]
  exact ⟨Bool.and_eq_true_iff.mpr ⟨hx, hv⟩, hword, bounds_of_nameChar_failed hend⟩

/-- Where a reserved word stands, it is the first of all that is found. -/
theorem result_oneOf_reserved {w : String} (hw : w ∈ reservedWords) (h : c.Over w.toList n)
    (hn : Bounds n.rest) :
    (oneOf reservedWords : Phrase Unit).result call .quiet c = .matched () n := by
  obtain ⟨rest, o, p⟩ := c
  obtain ⟨hrest, rfl⟩ := h
  generalize Cursor.rest (Cursor.advance _ _) = X at hrest hn
  obtain rfl : rest = _ := hrest
  by_cases hin : w = "in"
  · -- The longer word that begins like this one would go on with a letter.
    subst hin
    have hlong : (token "instanceof" : Phrase Unit).result call .quiet
        ⟨"in".toList ++ X, o, p⟩ = .failed := by
      refine result_token_absent _ ?_
      rintro ⟨Y, hY⟩
      change "in".toList ++ ('s' :: ("tanceof".toList ++ Y)) = "in".toList ++ X at hY
      obtain rfl := List.append_cancel_left hY
      exact absurd (hn 's' rfl) (by decide)
    rw [reservedWords, result_oneOf_cons, hlong]
    rfl
  · simp only [reservedWords, List.mem_cons, List.not_mem_nil, or_false] at hw
    rcases hw with rfl | rfl | rfl | rfl | rfl | rfl | rfl | rfl | rfl | rfl | rfl | rfl | rfl |
      rfl | rfl | rfl | rfl | rfl | rfl | rfl | rfl | rfl | rfl | rfl | rfl | rfl | rfl | rfl |
      rfl | rfl
    case inr.inl => exact absurd rfl hin
    all_goals rfl

/-- **What is read as a name** is a whole word that is not reserved. -/
theorem over_of_name (hcall : Advancing call) {x : String}
    (h : name.result call s c = .matched x n) :
    isWord x.toList = true ∧ x ∉ reservedWords ∧ c.Over x.toList n ∧ Bounds n.rest := by
  rw [name, atom, result_fmap, result_named, result_spaced, result_seqRight,
    Outcome.map_eq_matched] at h
  obtain ⟨w, h, rfl⟩ := h
  rw [Outcome.andThen_eq_matched] at h
  obtain ⟨_, m, hfree, h⟩ := h
  rw [result_unless] at hfree
  split at hfree <;> cases hfree
  rename_i hreserved
  obtain ⟨hword, hover, hn⟩ := over_of_nameText hcall h
  rw [String.toList_ofList]
  refine ⟨hword, fun hmem => ?_, hover, hn⟩
  have hone : (oneOf reservedWords : Phrase Unit).result call .quiet c = .matched () n :=
    result_oneOf_reserved hmem (by rwa [String.toList_ofList]) hn
  rw [result_reserved, hone, Outcome.andThen_matched, result_unless_nameChar_of_bounds hn]
    at hreserved
  cases hreserved

end Phrase

end ScriptTrace.Syntax
