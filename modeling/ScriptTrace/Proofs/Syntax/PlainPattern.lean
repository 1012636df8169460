import ScriptTrace.Proofs.Syntax.Abreast
import ScriptTrace.Proofs.Syntax.Listing
import ScriptTrace.Proofs.Syntax.Method

/-!
# Proofs/Syntax/PlainPattern — patterns without holes

A *plain* pattern has no holes in its arrays and no defaults in its shorthand properties.  Plain
patterns have a grammar of their own (`readPlain`), which is the one of the language without these
two things; values and computed keys are any expressions.  What it reads is read by the rule of the
language as well, with the same value (`pattern_of_plain`).
-/

namespace ScriptTrace.Syntax

open Grammar
open Grammar.Form
open Phrase

/-! ## The grammar -/

/-- The rules of `call`, but patterns are read by `target`. -/
def withPattern (target : Spacing → Cursor → Attempt (Built Pattern))
    (call : {α : Type} → Rule α → Spacing → Cursor → Attempt α) :
    {α : Type} → Rule α → Spacing → Cursor → Attempt α
  | _, .pattern, s, c => target s c
  | _, r, s, c => call r s c

/-- A place of an array pattern that is no hole. -/
def plainSlot : Phrase (Position × SlotPart) :=
  placed (.named (SlotPart.rest <$> restTarget <|> SlotPart.element <$> element))

/-- An array pattern whose parts are plain. -/
def plainArray : Phrase (Built Pattern) :=
  Syntax.arrayPattern <$> .named (token "[" *> commaList plainSlot <* token "]")

/-- A target without a default. -/
def bareElement : Phrase (Built PatternElement) :=
  .named ((fun target : Built Pattern => target.map (PatternElement.mk · none)) <$> .rule .pattern)

/-- A property of an object pattern; its name alone has no default. -/
def plainProperty : Phrase (Position × PropertyPart) :=
  placed (.named
    (PropertyPart.rest <$> restTarget <|>
      .named (combine PropertyPart.keyed (key <* token ":") element) <|>
      PropertyPart.shorthand <$> bareElement))

/-- An object pattern whose parts are plain. -/
def plainObject : Phrase (Built Pattern) :=
  Syntax.objectPattern <$> .named (token "\x7b" *> commaList plainProperty <* token "\x7d")

/-- A pattern that could as well be read as an expression. -/
def plainPattern : Phrase (Built Pattern) :=
  .named ((fun x => .ok (.name x)) <$> name <|> plainArray <|> plainObject)

/-- **Reads a plain pattern**, at most `fuel` patterns inside one another. -/
def readPlain : Nat → Spacing → Cursor → Attempt (Built Pattern)
  | 0, _, _ => ⟨.exhausted, 0⟩
  | fuel + 1, s, c => plainPattern.read (withPattern (readPlain fuel) (follow fuel)) s c

/-- The rules of the language with plain patterns for its patterns. -/
abbrev followPlain (fuel : Nat) {α : Type} (r : Rule α) (s : Spacing) (c : Cursor) : Attempt α :=
  withPattern (readPlain fuel) (follow fuel) r s c

/-- **A text that is a plain pattern** as a whole. -/
def IsPlainPattern (text : List Char) : Prop :=
  ∃ fuel target n, (readPlain fuel .free (.ofText text)).outcome = .matched target n ∧ n.rest = []

/-! ## Room -/

section

variable {α : Type} {fuel k : Nat} {c d m n : Cursor} {s : Spacing} {x : Char} {Y : List Char}

/-- **A place where rules may be read**: enough of them may be opened. -/
def Roomy (fuel : Nat) (c : Cursor) : Prop := rulesPerPlace * (c.rest.length + 1) ≤ fuel

theorem Roomy.mono (h : Roomy fuel c) (hn : c ≤ n) : Roomy fuel n :=
  (Nat.mul_le_mul_left _ (Nat.succ_le_succ (Cursor.length_rest_le hn))).trans h

/-- There is room enough for what lies further on. -/
theorem Roomy.inside (h : Roomy fuel c) (hn : c < n) : ∃ k, fuel = k + 1 ∧ Roomy k n := by
  have hlength := Cursor.length_rest_lt hn
  unfold Roomy rulesPerPlace at h ⊢
  exact ⟨fuel - 1, by omega, by omega⟩

/-- With room enough a form is read or fails. -/
theorem Roomy.result_ne_exhausted (h : Roomy fuel c) {f : Phrase α}
    (hf : f.opensBelow Rule.rank rulesPerPlace = true) :
    f.result (follow fuel) s c ≠ .exhausted :=
  Syntax.result_ne_exhausted hf h

/-- **Where there is room, more of it makes no difference.** -/
theorem Roomy.result_eq (h : Roomy fuel c) {f : Phrase α}
    (hf : f.opensBelow Rule.rank rulesPerPlace = true) {o : Outcome α}
    (ho : f.result (follow k) s c = o) (hne : o ≠ .exhausted) :
    f.result (follow fuel) s c = o := by
  subst ho
  exact ((f.agree (fun r s c => readRule_agree Rule.phrase k fuel r s c) s c).eq hne
    (h.result_ne_exhausted hf)).symm

end

/-! ## What the rules with plain patterns keep -/

theorem result_readPlain (fuel : Nat) (s : Spacing) (c : Cursor) :
    (readPlain (fuel + 1) s c).outcome = plainPattern.result (followPlain fuel) s c := rfl

/-- A rule for plain patterns goes forward. -/
theorem advancing_followPlain (fuel : Nat) : Advancing (followPlain fuel) := by
  induction fuel with
  | zero =>
    intro α r s c v n h
    cases r <;> cases h
  | succ fuel ih =>
    intro α r s c v n h
    cases r with
    | pattern => exact lt_of_matched (f := plainPattern) ih h (by decide)
    | _ => exact advancing_follow (fuel + 1) _ s c v n h

theorem nesting_plainPattern : nesting .free false plainPattern 0 = some 0 := by decide

/-- A plain pattern ends in front of no comment that was not there. -/
theorem starless_followPlain (fuel : Nat) : Starless (followPlain fuel) := by
  refine ⟨advancing_followPlain fuel, ?_⟩
  induction fuel with
  | zero =>
    intro α r s c n v X _ h
    cases r <;> cases h
  | succ fuel ih =>
    intro α r s c n v X hrest h
    cases r with
    | pattern =>
      have hread : plainPattern.result (followPlain fuel) s c = .matched v n := h
      have hsolid : c.IsSolid := Cursor.isSolid_of_cons hrest (by decide) (by decide)
      have hopen : plainPattern.mayOpen (fun _ => false) '*' = false := by decide
      have hstay := plainPattern.eq_of_not_mayOpen (advancing_followPlain fuel) hrest hsolid
        (fun r s _ _ _ => ih r s hrest) hopen hread
      have hlt := lt_of_matched (advancing_followPlain fuel) hread (by decide)
      exact absurd (hstay ▸ hlt) (lt_irrefl c)
    | _ => exact (starless_follow (fuel + 1)).rules _ s hrest h

/-- A plain pattern is scanned from its beginning to its end. -/
theorem keeps_followPlain (fuel : Nat) : Keeps (followPlain fuel) := by
  refine ⟨starless_followPlain fuel, ?_⟩
  induction fuel with
  | zero =>
    intro α r c n v opened h
    cases r <;> cases h
  | succ fuel ih =>
    intro α r c n v opened h
    have hcall : Keeps (followPlain fuel) := ⟨starless_followPlain fuel, ih⟩
    cases r with
    | pattern =>
      have hend : endsInSlash plainPattern = false := by decide
      exact hcall.of_matched plainPattern nesting_plainPattern (by decide) nofun
        (by simp [hend]) h
    | _ => exact (keeps_follow (fuel + 1)).scans _ opened h

theorem blind_plainPattern : plainPattern.Blind := by
  repeat' apply And.intro
  all_goals first
    | exact trivial
    | (intro c c' t v h; rfl)
    | (intro c c' t v h; exact congrArg (·, v) h)

/-- A plain pattern is read alike in front of a seam. -/
theorem keepsPace_followPlain {b : Char} (hb : isClosing b = true)
    (w R R' : List Char) (fuel fuel' : Nat) :
    KeepsPace w b R R' (followPlain fuel) (followPlain fuel') := by
  refine keepsPace_of_rules hb (advancing_followPlain fuel) (advancing_followPlain fuel') ?_
  induction fuel generalizing fuel' with
  | zero =>
    intro α r opened c c' h
    cases r <;> exact .exhausted _
  | succ fuel ih =>
    intro α r opened c c' h
    cases r with
    | pattern =>
      obtain _ | fuel' := fuel'
      · exact .exhausted_right _
      have hpace : KeepsPace w b R R' (followPlain fuel) (followPlain fuel') :=
        keepsPace_of_rules hb (advancing_followPlain fuel) (advancing_followPlain fuel') (ih fuel')
      exact hpace.alike plainPattern nesting_plainPattern (by decide) (by decide)
        blind_plainPattern nofun h
    | _ => exact (keepsPace_follow hb w R R' (fuel + 1) fuel').rules _ h

/-- A plain pattern is read alike at other places. -/
theorem elsewhere_followPlain (fuel : Nat) : Elsewhere (followPlain fuel) (followPlain fuel) := by
  induction fuel with
  | zero =>
    intro α r s c c' h
    cases r <;> exact .exhausted _
  | succ fuel ih =>
    intro α r s c c' h
    cases r with
    | pattern => exact plainPattern.sameEnd ih s h
    | _ => exact readRule_sameEnd Rule.phrase (le_refl (fuel + 1)) _ s h

/-- With enough fuel a plain pattern is read or refused. -/
theorem readPlain_ne_exhausted {fuel : Nat} {s : Spacing} {c : Cursor} (h : Roomy fuel c) :
    (readPlain fuel s c).outcome ≠ .exhausted := by
  induction fuel generalizing s c with
  | zero =>
    unfold Roomy rulesPerPlace at h
    omega
  | succ fuel ih =>
    have hbelow : plainPattern.opensBelow Rule.rank 0 = true := by decide
    refine Form.result_ne_exhausted (advancing_followPlain fuel) (fun r s n hn => ?_) plainPattern
      (le_refl c) fun _ => hbelow
    have hlt : c < n := hn.resolve_right fun hr => absurd hr.2 (Nat.not_lt_zero _)
    obtain ⟨k, hk, hroom⟩ := h.inside hlt
    obtain rfl := Nat.succ.inj hk
    cases r with
    | pattern => exact ih hroom
    | _ =>
      refine follow_ne_exhausted ?_
      unfold Roomy at hroom
      exact (Nat.add_lt_add_left (Rule.rank_lt _) _).trans_le hroom

/-! ## Parts of patterns -/

section

variable {α : Type} {target : Spacing → Cursor → Attempt (Built Pattern)}
  {call : {α : Type} → Rule α → Spacing → Cursor → Attempt α} {c d m n : Cursor}

/-- A target behind dots is a target. -/
theorem exists_of_restTarget {v : Built Pattern}
    (h : restTarget.result (withPattern target call) .free c = .matched v n) :
    ∃ d, c.Over ['.', '.', '.'] d ∧ (target .free d.skipBlanks).outcome = .matched v n := by
  rw [restTarget, result_named, result_seqRight, Outcome.andThen_eq_matched] at h
  obtain ⟨_, d, hdots, h⟩ := h
  exact ⟨d, over_of_token hdots, h⟩

/-- A target with its default. -/
def elementOf (target : Built Pattern) (value : Option (Built Expr)) : Built PatternElement := do
  return .mk (← target) (← optionBuilt value)

/-- An element is its target with the default value behind it. -/
theorem exists_of_element {v : Built PatternElement}
    (h : element.result (withPattern target call) .free c = .matched v n) :
    ∃ bp m value, (target .free c).outcome = .matched bp m ∧
      (Form.perhaps fallback).result call .free m.skipBlanks = .matched value n ∧
      v = elementOf bp value := by
  rw [element, result_named, result_combine, Outcome.andThen_eq_matched] at h
  obtain ⟨bp, m, htarget, h⟩ := h
  rw [Outcome.map_eq_matched] at h
  obtain ⟨value, h, rfl⟩ := h
  exact ⟨bp, m, value, htarget, h, rfl⟩

/-- What stands in brackets, from the opening one on. -/
theorem result_bracketed {f : Phrase α} {opening close : String} :
    (token opening *> f <* token close : Phrase _).result call .free c =
      ((token opening : Phrase Unit).result call .free c).andThen fun _ m =>
        (f <* token close : Phrase _).result call .free m.skipBlanks := by
  simp only [result_seqLeft, result_seqRight]
  cases (token opening : Phrase Unit).result call .free c <;> rfl

/-- A list in brackets is read from the opening to the closing one. -/
theorem result_bracketed_list {a : Phrase α} {opening close : String} :
    (token opening *> commaList a <* token close : Phrase _).result call .free c =
      ((token opening : Phrase Unit).result call .free c).andThen fun _ m =>
        (listed a close).result call .free m.skipBlanks := result_bracketed

/-- **How a plain pattern is read**: it is a name, or a list in brackets. -/
theorem exists_of_plain (call : {α : Type} → Rule α → Spacing → Cursor → Attempt α) {k : Nat}
    {bp : Built Pattern}
    (h : (readPlain (k + 1) .free c).outcome = .matched bp n) :
    (∃ x, name.result call .free c = .matched x n ∧ bp = .ok (.name x)) ∨
    (∃ m vs, c.Over ['['] m ∧ bp = Syntax.arrayPattern vs ∧
      (listed plainSlot "]").result (withPattern (readPlain k) (follow k)) .free m.skipBlanks =
        .matched vs n) ∨
    ∃ m vs, c.Over ['\x7b'] m ∧ bp = Syntax.objectPattern vs ∧
      (listed plainProperty "\x7d").result (withPattern (readPlain k) (follow k)) .free
        m.skipBlanks = .matched vs n := by
  change plainPattern.result (withPattern (readPlain k) (follow k)) .free c = _ at h
  simp only [plainPattern, plainArray, plainObject, result_named, result_orElse, result_fmap,
    Outcome.orElse_eq_matched, Outcome.map_eq_matched, result_bracketed_list,
    Outcome.andThen_eq_matched] at h
  obtain ⟨x, hname, rfl⟩ | ⟨-, ⟨vs, ⟨_, m, hopen, hlist⟩, rfl⟩ |
    ⟨-, vs, ⟨_, m, hopen, hlist⟩, rfl⟩⟩ := h
  · exact .inl ⟨x, hname, rfl⟩
  · exact .inr (.inl ⟨m, vs, over_of_token hopen, rfl, hlist⟩)
  · exact .inr (.inr ⟨m, vs, over_of_token hopen, rfl, hlist⟩)

/-- No name starts with a bracket. -/
theorem name_failed_of_bracket {y : Char} {Y : List Char} (h : c.rest = y :: Y)
    (hy : y = '[' ∨ y = '\x7b') : name.result call .free c = .failed := by
  obtain ⟨rest, o, p⟩ := c
  obtain rfl : rest = _ := h
  obtain rfl | rfl := hy <;> rfl

/-- A name starts with a character that starts names. -/
theorem opens_of_name (hcall : Advancing call) {x : String} {s : Spacing}
    (h : name.result call s c = .matched x n) :
    ∃ y Y, c.rest = y :: Y ∧ isNameStart y = true := by
  obtain ⟨hword, -, hover, -⟩ := over_of_name hcall h
  obtain ⟨y, Y, hx, hy, -⟩ := exists_of_isWord hword
  exact ⟨y, Y ++ n.rest, by rw [hover.rest_eq, hx, List.cons_append], hy⟩

end

/-! ## Where a target ends -/

section

variable {α β : Type} {call call' : {α : Type} → Rule α → Spacing → Cursor → Attempt α}
  {fuel k : Nat} {c d m n : Cursor} {v : Built Key} {bp : Built Pattern}

/-- **Brackets from one place on close at one place**, whatever is read between them. -/
theorem end_of_brackets (hcall : Keeps call) (hcall' : Keeps call') {f : Phrase α} {g : Phrase β}
    (hf : nesting .free true f 0 = some 0) (hf' : starsApart f = true ∧ endsInSlash f = false)
    (hg : nesting .free true g 0 = some 0) (hg' : starsApart g = true ∧ endsInSlash g = false)
    {v : α} {w : β} (h : (token "[" *> f <* token "]" : Phrase _).result call .free c = .matched v m)
    (h' : (token "[" *> g <* token "]" : Phrase _).result call' .free c = .matched w n)
    (hle : c ≤ m) (hle' : c ≤ n) : m = n := by
  have hscan : Scans (.code [] _) _ := hcall.of_bracketed rfl rfl hf hf' h
  have hscan' : Scans (.code [] _) _ := hcall'.of_bracketed rfl rfl hg hg' h'
  -- Both scans end at the bracket.
  have heq := (hscan.of_stuck hscan' (Spot.next?_closing rfl)).eq_of_length
    ((hscan'.of_stuck hscan (Spot.next?_closing rfl)).suffix.length_le)
  refine Cursor.eq_of_rest_eq hle hle' ?_
  exact (List.cons.inj (congrArg Spot.rest heq)).2.symm

/-- **The key where a name stands** ends with it. -/
theorem end_of_key_of_name {x : String} (h : name.result (follow fuel) .free c = .matched x m)
    (hkey : key.result (follow fuel) .free c = .matched v n) : n = m := by
  obtain ⟨y, Y, hrest, hy⟩ := opens_of_name (advancing_follow fuel) h
  have hne (z : Char) (hz : isNameStart z = false) : y ≠ z := (ne_of_isNameStart hy hz).symm
  have hnumber {w : Position × List Char} {n : Cursor} :
      number.result (follow fuel) .free c ≠ .matched w n := by
    intro hread
    have hopens : opensFormula y = true := by simp [opensFormula, hy]
    have hclosed : number.mayOpen (fun _ => true) y = false := by
      simp [number, placed, atom, numberText, Form.text, atLeastOne, Form.combine, decimalDigits,
        token, mayOpen, consumes, isDigit_of_opensFormula hopens, (hne '0' rfl).symm,
        (hne '.' rfl).symm]
    have hstay := number.eq_of_not_mayOpen (advancing_follow fuel) hrest
      (isSolid_of_opensFormula hrest hopens) (fun _ _ _ _ h => absurd h (by decide)) hclosed hread
    have hlt := lt_of_matched (advancing_follow fuel) hread (by decide)
    exact absurd (hstay ▸ hlt) (lt_irrefl c)
  have hstring {w : List Char} {n : Cursor} :
      (Form.rule .string : Phrase _).result (follow fuel) .free c ≠ .matched w n := by
    cases fuel with
    | zero => exact fun hread => by cases hread
    | succ fuel =>
      rw [string_failed hrest (by simp [hne '[' rfl, hne '"' rfl, hne '\'' rfl])]
      simp
  rw [result_key, computedKey_failed hrest (hne '[' rfl), Outcome.orElse_failed] at hkey
  simp only [Outcome.orElse_eq_matched, Outcome.map_eq_matched] at hkey
  obtain ⟨_, hread, -⟩ | ⟨-, ⟨_, hread, -⟩ | ⟨-, _, hread, -⟩⟩ := hkey
  · exact absurd hread hstring
  · exact absurd hread hnumber
  · rw [propertyName, atom, result_fmap, result_named, result_spaced,
      Outcome.map_eq_matched] at hread
    rw [name, atom, result_fmap, result_named, result_spaced, result_seqRight,
      Outcome.map_eq_matched] at h
    obtain ⟨_, hread, -⟩ := hread
    obtain ⟨_, h, -⟩ := h
    rw [Outcome.andThen_eq_matched] at h
    obtain ⟨_, d, hfree, h⟩ := h
    rw [result_unless] at hfree
    split at hfree <;> cases hfree
    cases hread.symm.trans h
    rfl

/-- **A key ends where a plain pattern does** that stands there. -/
theorem end_of_key_of_plain (h : (readPlain k .free c).outcome = .matched bp m)
    (hkey : key.result (follow fuel) .free c = .matched v n) : n = m := by
  cases k with
  | zero => cases h
  | succ k =>
    have hle := (advancing_followPlain (k + 1) .pattern _ _ _ _ h).le
    have hle' := le_of_matched (advancing_follow fuel) hkey
    obtain ⟨x, hname, -⟩ | ⟨d, vs, hopen, -, hlist⟩ | ⟨d, vs, hopen, -, -⟩ :=
      exists_of_plain (follow fuel) h
    · exact end_of_key_of_name hname hkey
    · have hplain : (token "[" *> commaList plainSlot <* token "]" : Phrase _).result
          (followPlain k) .free c = .matched vs m := by
        rw [result_bracketed_list, result_token "[" hopen, Outcome.andThen_matched, hlist]
      obtain ⟨hnumber, hname⟩ : number.result (follow fuel) .free c = .failed ∧
          propertyName.result (follow fuel) .free c = .failed :=
        word_failed hopen.rest_eq (by decide)
      have hstring {w : List Char} {n : Cursor} :
          (Form.rule .string : Phrase _).result (follow fuel) .free c ≠ .matched w n := by
        cases fuel with
        | zero => exact nofun
        | succ fuel =>
          rw [result_string, quoted_failed rfl hopen.rest_eq (by decide), Outcome.orElse_failed,
            quoted_failed rfl hopen.rest_eq (by decide)]
          exact nofun
      rw [result_key, hnumber, hname] at hkey
      simp only [Outcome.orElse_eq_matched, Outcome.map_eq_matched, Outcome.map_failed,
        Outcome.orElse_failed] at hkey
      obtain hread | ⟨-, ⟨_, hread, -⟩ | ⟨-, hread⟩⟩ := hkey
      · rw [computedKey, result_fmap, result_named, Outcome.map_eq_matched] at hread
        obtain ⟨_, hread, -⟩ := hread
        exact end_of_brackets (keeps_follow fuel) (keeps_followPlain k) rfl (by decide) rfl
          (by decide) hread hplain hle' hle
      · exact absurd hread hstring
      · cases hread
    · obtain ⟨rest, o, p⟩ := c
      obtain rfl : rest = _ := hopen.rest_eq
      cases fuel with
      | zero => cases hkey.symm.trans (rfl : _ = Outcome.exhausted)
      | succ fuel => cases hkey.symm.trans (rfl : _ = Outcome.failed)

end

/-! ## Plain patterns are patterns -/

section

variable {fuel k : Nat} {c d m n : Cursor} {bp : Built Pattern}

/-- A plain pattern starts like a name, or with a bracket. -/
theorem head_of_plain (h : (readPlain k .free c).outcome = .matched bp n) :
    ∃ y Y, c.rest = y :: Y ∧ (isNameStart y = true ∨ y = '[' ∨ y = '\x7b') := by
  cases k with
  | zero => cases h
  | succ k =>
    obtain ⟨x, hname, -⟩ | ⟨d, vs, hopen, -, -⟩ | ⟨d, vs, hopen, -, -⟩ :=
      exists_of_plain (follow k) h
    · obtain ⟨y, Y, hrest, hy⟩ := opens_of_name (advancing_follow k) hname
      exact ⟨y, Y, hrest, .inl hy⟩
    · exact ⟨_, _, hopen.rest_eq, .inr (.inl rfl)⟩
    · exact ⟨_, _, hopen.rest_eq, .inr (.inr rfl)⟩

/-- No sign stands where a plain pattern does. -/
theorem token_failed_of_plain (h : (readPlain k .free c).outcome = .matched bp n) {w : String}
    {x : Char} {v : List Char} (hw : w.toList = x :: v)
    (hx : isNameStart x = false ∧ x ≠ '[' ∧ x ≠ '\x7b')
    {call : {α : Type} → Rule α → Spacing → Cursor → Attempt α} {s : Spacing} :
    (token w : Phrase Unit).result call s c = .failed := by
  obtain ⟨y, Y, hrest, hy⟩ := head_of_plain h
  refine token_other hrest hw ?_
  rintro rfl
  obtain hy | rfl | rfl := hy
  · simp [hx.1] at hy
  · exact hx.2.1 rfl
  · exact hx.2.2 rfl

/-- A place of an array pattern is a rest or an element. -/
theorem exists_of_plainSlot {call : {α : Type} → Rule α → Spacing → Cursor → Attempt α}
    {v : Position × SlotPart} (h : plainSlot.result call .free c = .matched v n) :
    (∃ target, restTarget.result call .free c = .matched target n ∧
      v = (c.position, .rest target)) ∨
    ∃ value, element.result call .free c = .matched value n ∧
      v = (c.position, .element value) := by
  simp only [plainSlot, result_placed, result_named, result_orElse, result_fmap,
    Outcome.map_eq_matched, Outcome.orElse_eq_matched] at h
  obtain ⟨_, ⟨target, h, rfl⟩ | ⟨-, value, h, rfl⟩, rfl⟩ := h
  · exact .inl ⟨target, h, rfl⟩
  · exact .inr ⟨value, h, rfl⟩

/-- A property of an object pattern is a rest, or has a key, or is a target. -/
theorem exists_of_plainProperty {v : Position × PropertyPart}
    (h : plainProperty.result (followPlain k) .free c = .matched v n) :
    (∃ target, restTarget.result (followPlain k) .free c = .matched target n ∧
      v = (c.position, .rest target)) ∨
    (∃ key m d value, Phrase.key.result (follow k) .free c = .matched key m ∧
      m.skipBlanks.Over [':'] d ∧
      element.result (followPlain k) .free d.skipBlanks = .matched value n ∧
      v = (c.position, .keyed key value)) ∨
    ∃ target, (readPlain k .free c).outcome = .matched target n ∧
      v = (c.position, .shorthand (target.map (PatternElement.mk · none))) := by
  simp only [plainProperty, bareElement, result_placed, result_named, result_orElse, result_fmap,
    result_combine, result_seqLeft, Outcome.map_eq_matched, Outcome.orElse_eq_matched,
    Outcome.andThen_eq_matched] at h
  obtain ⟨_, ⟨target, h, rfl⟩ | ⟨-, ⟨key, d, ⟨_, m, hkey, _, hcolon, rfl⟩, value, h, rfl⟩ |
    ⟨-, _, ⟨target, h, rfl⟩, rfl⟩⟩, rfl⟩ := h
  · exact .inl ⟨target, h, rfl⟩
  · exact .inr (.inl ⟨_, m, d, value, hkey, over_of_token hcolon, h, rfl⟩)
  · exact .inr (.inr ⟨target, h, rfl⟩)

/-- Whatever plain patterns there are from `d` on, the rule reads them as well. -/
def Covers (fuel k : Nat) (d : Cursor) : Prop :=
  ∀ ⦃c n bp⦄, d ≤ c → (readPlain k .free c).outcome = .matched bp n →
    (follow fuel .pattern .free c).outcome = .matched bp n

/-- A plain target behind dots is one of the language. -/
theorem Covers.restTarget (h : Covers fuel k d) (hc : d ≤ c) {v : Built Pattern}
    (hread : restTarget.result (followPlain k) .free c = .matched v n) :
    restTarget.result (follow fuel) .free c = .matched v n := by
  obtain ⟨e, hdots, htarget⟩ := exists_of_restTarget hread
  rw [Phrase.restTarget, result_named, result_seqRight, result_token "..." hdots,
    Outcome.andThen_matched]
  exact h (hc.trans (hdots.le.trans e.le_skipBlanks)) htarget

/-- A plain element is one of the language. -/
theorem Covers.element (h : Covers fuel k d) (hroom : Roomy fuel d) (hc : d ≤ c)
    {v : Built PatternElement} (hread : element.result (followPlain k) .free c = .matched v n) :
    element.result (follow fuel) .free c = .matched v n := by
  obtain ⟨bp, m, value, htarget, hvalue, rfl⟩ := exists_of_element hread
  have hlt := advancing_followPlain k .pattern _ _ _ _ htarget
  have hvalue' := (hroom.mono (hc.trans (hlt.le.trans m.le_skipBlanks))).result_eq (by decide)
    hvalue nofun
  rw [Phrase.element, result_named, result_combine, result_rule, h hc htarget,
    Outcome.andThen_matched, Spacing.skip, hvalue']
  rfl

/-- The characters that end a list of a pattern open no rule. -/
theorem Rule.mayOpen_bracket {α : Type} (r : Rule α) {y : Char} (hy : y = ']' ∨ y = '\x7d') :
    r.phrase.mayOpen (fun _ => false) y = false := by
  obtain rfl | rfl := hy <;> cases r <;> decide

/-- No form that reads something begins at the sign that closes a list. -/
theorem Roomy.result_failed {α : Type} (h : Roomy fuel c) {y : Char} (hy : y = ']' ∨ y = '\x7d')
    (hhead : c.rest.head? = some y) {f : Phrase α}
    (hf : f.mayOpen (fun _ => false) y = false) (hconsumes : f.consumes = true)
    (hbelow : f.opensBelow Rule.rank rulesPerPlace = true) :
    f.result (follow fuel) .free c = .failed := by
  obtain ⟨Y, hY⟩ := List.head?_eq_some_iff.mp hhead
  refine result_failed_of_not_mayOpen (fun r _ => r.mayOpen_bracket hy) hY ?_ hf hconsumes hbelow h
  obtain rfl | rfl := hy <;> exact Cursor.isSolid_of_cons hY rfl (by decide)

/-- No plain pattern stands where a list of a pattern ends. -/
theorem readPlain_ne_matched {y : Char} (hy : y = ']' ∨ y = '\x7d')
    (hhead : c.rest.head? = some y) :
    (readPlain k .free c).outcome ≠ .matched bp n := by
  intro h
  obtain ⟨z, Z, hrest, hz⟩ := head_of_plain h
  rw [hrest] at hhead
  obtain rfl : z = y := by simpa using hhead
  obtain rfl | rfl := hy <;> simp [isNameStart] at hz

/-- No plain place begins at the closing bracket. -/
theorem plainSlot_ne_matched {v : Position × SlotPart} (hhead : c.rest.head? = some ']') :
    plainSlot.result (followPlain k) .free c ≠ .matched v n := by
  intro hread
  obtain ⟨target, hrest, rfl⟩ | ⟨value, helement, rfl⟩ := exists_of_plainSlot hread
  · obtain ⟨e, hdots, -⟩ := exists_of_restTarget hrest
    rw [hdots.rest_eq] at hhead
    cases hhead
  · obtain ⟨bp, e, fallback, htarget, -⟩ := exists_of_element helement
    exact readPlain_ne_matched (.inl rfl) hhead htarget

/-- No plain property begins at the closing brace. -/
theorem plainProperty_ne_matched {v : Position × PropertyPart}
    (hhead : c.rest.head? = some '\x7d') :
    plainProperty.result (followPlain k) .free c ≠ .matched v n := by
  intro hread
  obtain ⟨target, hrest, rfl⟩ | ⟨key, e, f, value, hkey, hcolon, helement, rfl⟩ |
    ⟨target, htarget, rfl⟩ := exists_of_plainProperty hread
  · obtain ⟨e, hdots, -⟩ := exists_of_restTarget hrest
    rw [hdots.rest_eq] at hhead
    cases hhead
  · obtain ⟨Y, hY⟩ := List.head?_eq_some_iff.mp hhead
    obtain ⟨rest, o, p⟩ := c
    obtain rfl : rest = _ := hY
    cases k with
    | zero => cases hkey.symm.trans (rfl : _ = Outcome.exhausted)
    | succ k => cases hkey.symm.trans (rfl : _ = Outcome.failed)
  · exact readPlain_ne_matched (.inr rfl) hhead htarget

/-- A plain place is a place of an array pattern. -/
theorem recasts_slot (h : Covers fuel k d) (hroom : Roomy fuel d) :
    Recasts (followPlain k) (follow fuel) ']' d plainSlot plainSlot (· = ·) fun _ => False where
  advancing := advancing_followPlain k
  advancing' := advancing_follow fuel
  mark := by decide
  item c m v hc hread _ := by
    refine .inl ⟨v, m, ?_, rfl, rfl⟩
    simp only [plainSlot, result_placed, result_named, result_orElse, result_fmap]
    obtain ⟨target, hrest, rfl⟩ | ⟨value, helement, rfl⟩ := exists_of_plainSlot hread
    · rw [h.restTarget hc hrest]
      rfl
    · obtain ⟨bp, e, fallback, htarget, -⟩ := exists_of_element helement
      rw [Phrase.restTarget, result_named, result_seqRight,
        token_failed_of_plain htarget rfl (by decide), h.element hroom hc helement]
      rfl
  ends c hc hhead := ⟨fun _ _ => plainSlot_ne_matched hhead, (hroom.mono hc).result_failed (.inl rfl)
    hhead (by decide) (by decide) (by decide)⟩

/-- **What goes on behind a key goes on behind the target** that stands there. -/
theorem key_andThen_failed {β : Type} (hroom : Roomy fuel c)
    (h : (readPlain k .free c).outcome = .matched bp n) {g : Built Key → Cursor → Outcome β}
    (hg : ∀ v, g v n = .failed) : (key.result (follow fuel) .free c).andThen g = .failed := by
  cases hkey : key.result (follow fuel) .free c with
  | matched v m =>
    obtain rfl := end_of_key_of_plain h hkey
    exact hg v
  | failed => rfl
  | exhausted => exact absurd hkey (hroom.result_ne_exhausted (by decide))

/-- A plain property is a property of an object pattern. -/
theorem recasts_property (h : Covers fuel k d) (hroom : Roomy fuel d) :
    Recasts (followPlain k) (follow fuel) '\x7d' d plainProperty objectPatternProperty (· = ·)
      fun _ => False where
  advancing := advancing_followPlain k
  advancing' := advancing_follow fuel
  mark := by decide
  item c m v hc hread hhead := by
    simp only [objectPatternProperty, result_placed, result_named, result_orElse, result_fmap,
      result_combine, result_seqLeft]
    obtain ⟨target, hrest, rfl⟩ | ⟨key, e, f, value, hkey, hcolon, helement, rfl⟩ |
      ⟨target, htarget, rfl⟩ := exists_of_plainProperty hread
    · rw [h.restTarget hc hrest]
      exact .inl ⟨_, m, rfl, rfl, rfl⟩
    · have hkey' := (hroom.mono hc).result_eq (by decide) hkey nofun
      have hle : c ≤ f.skipBlanks := (le_of_matched (advancing_follow k) hkey).trans <|
        e.le_skipBlanks.trans <| hcolon.le.trans f.le_skipBlanks
      rw [restTarget, result_named, result_seqRight, dots_failed_of_key hkey, hkey',
        Outcome.andThen_matched, Spacing.skip, result_token ":" hcolon, Outcome.map_matched,
        Outcome.andThen_matched, Spacing.skip, h.element hroom (hc.trans hle) helement]
      exact .inl ⟨_, m, rfl, rfl, rfl⟩
    · have hmark {z : Char} (hz : z ≠ ',' ∧ z ≠ '\x7d') : m.skipBlanks.rest.head? ≠ some z := by
        obtain hhead | hhead := hhead <;> rw [hhead]
        · simpa using hz.1.symm
        · simpa using hz.2.symm
      have hkeyed : ((key.result (follow fuel) .free c).andThen fun v e =>
          ((token ":" : Phrase Unit).result (follow fuel) .free (Spacing.free.skip e)).map
            fun _ => v) = .failed := by
        refine key_andThen_failed (hroom.mono hc) htarget fun v => ?_
        rw [Spacing.skip, token_head (w := ":") rfl (hmark (by decide)), Outcome.map_failed]
      have helement : element.result (follow fuel) .free c =
          .matched (elementOf target none) m.skipBlanks := by
        rw [element, result_named, result_combine, result_rule, h hc htarget,
          Outcome.andThen_matched, Spacing.skip, result_perhaps, fallback, result_seqRight,
          result_seqRight, token_head (w := "=") rfl (hmark (by decide))]
        rfl
      rw [restTarget, result_named, result_seqRight,
        token_failed_of_plain htarget rfl (by decide), hkeyed, helement]
      refine .inl ⟨_, _, rfl, m.isSolid_skipBlanks.skipBlanks_eq, ?_⟩
      cases target <;> rfl
  ends c hc hhead := ⟨fun _ _ => plainProperty_ne_matched hhead, (hroom.mono hc).result_failed
    (.inr rfl) hhead (by decide) (by decide) (by decide)⟩

end

/-! ### Trailing commas -/

section

variable {call : {α : Type} → Rule α → Spacing → Cursor → Attempt α} {c k m n : Cursor}
  {v : Position × SlotPart} {vs : List (Position × SlotPart)}

/-- A slot is a plain one, or empty. -/
theorem result_slot (s : Spacing) (c : Cursor) :
    slot.result call s c =
      (plainSlot.result call s c).orElse fun _ => .matched (c.position, .empty) c := by
  simp only [slot, plainSlot, result_placed, result_named, result_fmap, result_perhaps]
  cases (SlotPart.rest <$> restTarget <|> SlotPart.element <$> element : Phrase _).result call s c <;>
    rfl

theorem plainSlot_ne_empty (h : plainSlot.result call .free c = .matched v n) : v.2 ≠ .empty := by
  obtain ⟨target, -, rfl⟩ | ⟨value, -, rfl⟩ := exists_of_plainSlot h <;> exact nofun

/-- Plain places one behind the other are places, none of them empty. -/
theorem runs_slot (h : Runs ((token "," *> plainSlot).again call .free) m vs k) :
    Runs ((token "," *> slot).again call .free) m vs k ∧ ∀ v ∈ vs, v.2 ≠ .empty := by
  induction h with
  | nil k => exact ⟨.nil k, nofun⟩
  | cons hv _ ih =>
    obtain ⟨e, hcomma, hv⟩ := over_of_again hv
    refine ⟨.cons ?_ ih.1, List.forall_mem_cons.mpr ⟨plainSlot_ne_empty hv, ih.2⟩⟩
    rw [again, result_seqRight, Spacing.skip, result_token "," hcomma, Outcome.andThen_matched,
      result_slot, Spacing.skip, hv, Outcome.orElse_matched]

/-- The empty place behind a trailing comma is no place. -/
theorem arrayPattern_snoc (hvs : ∀ v ∈ vs, v.2 ≠ .empty) (p : Position) :
    Syntax.arrayPattern (vs ++ [(p, .empty)]) = Syntax.arrayPattern vs := by
  have hall : Syntax.arrayPattern vs =
      arraySlots vs none >>= fun r => pure (.array r.1 r.2) := by
    obtain rfl | ⟨ws, ⟨q, part⟩, rfl⟩ := vs.eq_nil_or_concat
    · rfl
    · have hpart : part ≠ .empty := hvs (q, part) (by simp)
      simp only [Syntax.arrayPattern, List.concat_eq_append, List.getLast?_concat]
      cases part with
      | empty => exact absurd rfl hpart
      | rest | element => rfl
  rw [hall]
  simp only [Syntax.arrayPattern, List.getLast?_concat, List.dropLast_concat]

/-- **A list of places that are no holes** is a list of slots, with an empty one behind a trailing
comma. -/
theorem slots_of_listed (hcall : Advancing call)
    (h : (listed plainSlot "]").result call .free c = .matched vs n) :
    ∃ parts, (commaSeparated slot <* token "]" : Phrase _).result call .free c = .matched parts n ∧
      Syntax.arrayPattern parts = Syntax.arrayPattern vs := by
  have hlist {v : Position × SlotPart} {vs : List (Position × SlotPart)} {m k : Cursor}
      (hfirst : slot.result call .free c = .matched v m)
      (hruns : Runs ((token "," *> slot).again call .free) m.skipBlanks vs k)
      (hend : k.skipBlanks.Over [']'] n) :
      (commaSeparated slot <* token "]" : Phrase _).result call .free c = .matched (v :: vs) n := by
    have hlast : (token "," *> slot).again call .free k = .failed :=
      again_failed (by rw [hend.rest_eq]; simp)
    have hmany := many_of_runs hcall rfl hruns hlast m.isSolid_skipBlanks.skipBlanks_eq
    simp only [commaSeparated, result_seqLeft, result_combine, hfirst, Outcome.andThen_matched,
      Spacing.skip, hmany, Outcome.map_matched, result_token "]" hend]
  obtain ⟨hfailed, rfl, hend⟩ | ⟨v, m, vs, k, rfl, hfirst, hruns, hlast, hend⟩ :=
    exists_of_listed hcall h
  · refine ⟨[(c.position, .empty)], hlist (m := c) ?_ (.nil _) ?_, rfl⟩
    · rw [result_slot, hfailed, Outcome.orElse_failed]
    · rw [c.isSolid_skipBlanks.skipBlanks_eq]
      exact over_of_token hend
  · have hfirst' : slot.result call .free c = .matched v m := by
      rw [result_slot, hfirst, Outcome.orElse_matched]
    obtain ⟨hruns', hne⟩ := runs_slot hruns
    obtain hover | ⟨e, hcomma, hover⟩ := over_of_closing rfl hend
    · exact ⟨v :: vs, hlist hfirst' hruns' hover, rfl⟩
    · -- Behind the comma there is an empty slot.
      have hempty : (token "," *> slot).again call .free k =
          .matched (e.skipBlanks.position, .empty) e.skipBlanks := by
        rw [again, result_seqRight, Spacing.skip, result_token "," hcomma, Outcome.andThen_matched,
          Spacing.skip] at hlast ⊢
        rw [result_slot, hlast, Outcome.orElse_failed]
      refine ⟨v :: (vs ++ [(e.skipBlanks.position, .empty)]),
        hlist hfirst' (hruns'.snoc hempty) ?_, ?_⟩
      · rwa [e.isSolid_skipBlanks.skipBlanks_eq]
      · exact arrayPattern_snoc (List.forall_mem_cons.mpr ⟨plainSlot_ne_empty hfirst, hne⟩) _

end

/-- **A plain pattern is read by the rule as well**, with the same value. -/
theorem pattern_of_plain {fuel k : Nat} {c n : Cursor} {bp : Built Pattern}
    (h : (readPlain k .free c).outcome = .matched bp n) (hroom : Roomy fuel c) :
    (follow (fuel + 1) .pattern .free c).outcome = .matched bp n := by
  induction k generalizing fuel c n bp with
  | zero => cases h
  | succ k ih =>
    change Phrase.pattern.result (follow fuel) .free c = .matched bp n
    simp only [Phrase.pattern, result_named, result_orElse, result_fmap]
    have hcovers {d : Cursor} (hd : c < d) : Covers fuel k d ∧ Roomy fuel d := by
      obtain ⟨fuel, rfl, hroom'⟩ := hroom.inside hd
      exact ⟨fun m n bp hm hplain => ih hplain (hroom'.mono hm), hroom.mono hd.le⟩
    obtain ⟨x, hname, rfl⟩ | ⟨m, vs, hopen, rfl, hlist⟩ | ⟨m, vs, hopen, rfl, hlist⟩ :=
      exists_of_plain (follow fuel) h
    · rw [hname]
      rfl
    · obtain ⟨hcovers, hroom'⟩ := hcovers hopen.lt
      rw [name_failed_of_bracket hopen.rest_eq (.inl rfl)]
      obtain ⟨ws, hread, hall⟩ | ⟨⟨_, _, hdead⟩, -⟩ :=
        listed_recast (recasts_slot hcovers hroom') rfl
        m.le_skipBlanks m.isSolid_skipBlanks hlist
      · rw [List.forall₂_eq_eq_eq] at hall
        subst hall
        obtain ⟨parts, hslots, hparts⟩ := slots_of_listed (advancing_follow fuel) hread
        simp only [Phrase.arrayPattern, result_fmap, result_named, result_bracketed,
          result_token "[" hopen, Outcome.andThen_matched, hslots, Outcome.map_matched, hparts,
          Outcome.map_failed, Outcome.orElse_failed, Outcome.orElse_matched]
      · exact hdead.elim
    · obtain ⟨hcovers, hroom'⟩ := hcovers hopen.lt
      rw [name_failed_of_bracket hopen.rest_eq (.inr rfl)]
      obtain ⟨ws, hread, hall⟩ | ⟨⟨_, _, hdead⟩, -⟩ :=
        listed_recast (recasts_property hcovers hroom') rfl m.le_skipBlanks m.isSolid_skipBlanks
          hlist
      · rw [List.forall₂_eq_eq_eq] at hall
        subst hall
        rw [listed] at hread
        simp only [Phrase.arrayPattern, Phrase.objectPattern, result_fmap, result_named,
          result_bracketed,
          token_other (k := "[") hopen.rest_eq rfl (by decide), result_token "\x7b" hopen,
          Outcome.andThen_matched, Outcome.andThen_failed, Outcome.map_failed,
          Outcome.orElse_failed, hread, Outcome.map_matched]
      · exact hdead.elim

end ScriptTrace.Syntax
