import ScriptTrace.Proofs.Grammar.Elsewhere
import ScriptTrace.Proofs.Syntax.First
import ScriptTrace.Proofs.Syntax.Word

/-!
# Proofs/Syntax/Key — keys that are known from the text

A key that is a name, a number or a string is read from its own text: whatever may stand behind a
key, the same key is read in front of it (`key_elsewhere`).
-/

namespace ScriptTrace.Syntax

open Grammar
open Grammar.Form
open Phrase

variable {fuel : Nat} {c c' m n n' : Cursor} {x : String} {K A B u : List Char} {a b q y : Char}
  {call call' : {α : Type} → Rule α → Spacing → Cursor → Attempt α}

/-! ## Strings -/

/-- One piece of the inside of a string. -/
def stringPiece (quote : Char) : Phrase (List Char) :=
  escape <|> text (.unless (.one fun c => c = quote || c = '\\' || c = '\n') *> anyChar)

/-- Any character is read alike on both sides. -/
theorem related_anyChar (h : c.rest = y :: u ++ A) (h' : c'.rest = y :: u ++ B) :
    Outcome.Related (Cursor.Front A B) ((text anyChar : Phrase _).result call .quiet c)
      ((text anyChar : Phrase _).result call' .quiet c') := by
  rw [result_text, result_text, anyChar, result_one, result_one, h, h']
  exact .matched (.step h h')

/-- A plain character is read on both sides if it does not end the text. -/
theorem related_plainPiece (h : c.rest = y :: u ++ A) (h' : c'.rest = y :: u ++ B)
    (p : Char → Bool) :
    Outcome.Related (Cursor.Front A B)
      ((text (.unless (.one p) *> anyChar) : Phrase _).result call .quiet c)
      ((text (.unless (.one p) *> anyChar) : Phrase _).result call' .quiet c') := by
  rw [result_text, result_text, result_seqRight, result_seqRight, result_unless, result_unless,
    result_one, result_one, h, h']
  dsimp only [List.cons_append]
  cases hp : p y with
  | true => exact .failed
  | false =>
    simp only [Bool.false_eq_true, if_false, Outcome.andThen_matched, Spacing.skip, anyChar,
      result_one, h, h', List.cons_append, if_true]
    exact .matched (.step h h')

/-- An escape that ends in front of the closing quote. -/
theorem related_escape (hcall : Advancing call) (hcall' : Advancing call')
    (hq : q = '"' ∨ q = '\'') (h : c.rest = '\\' :: y :: u ++ q :: A)
    (h' : c'.rest = '\\' :: y :: u ++ q :: B) :
    Outcome.Related (Cursor.Front (q :: A) (q :: B)) (escape.result call .quiet c)
      (escape.result call' .quiet c') := by
  have htoken {call : {α : Type} → Rule α → Spacing → Cursor → Attempt α} {c : Cursor}
      {Y : List Char} (h : c.rest = '\\' :: Y) :
      (token "\\" : Phrase Unit).result call .quiet c = .matched () c.step :=
    result_token "\\" (Cursor.Over.of_append (w := ['\\']) h)
  have hlong (f : Phrase (List Char)) (hf : f.avoids '"' = true ∧ f.avoids '\'' = true) :
      Outcome.Related (Cursor.Front (q :: A) (q :: B)) (f.result call .quiet c.step)
        (f.result call' .quiet c'.step) := by
    refine f.related_front hcall hcall' ?_ ?_ (.step h h') <;> rcases hq with rfl | rfl
    exacts [hf.1, hf.2, hf.1, hf.2]
  have hstep : c.step.rest = y :: u ++ q :: A := by simp [h]
  have hstep' : c'.step.rest = y :: u ++ q :: B := by simp [h']
  rw [escape, result_text, result_text, result_seqRight, result_seqRight, htoken h, htoken h']
  simp only [Outcome.andThen_matched, Spacing.skip, result_orElse]
  refine .andThen ?_ fun _ _ _ _ hn => .matched hn
  exact .orElse (hlong _ (by decide)) (.orElse (hlong _ (by decide))
    (.orElse (hlong _ (by decide)) (related_anyChar hstep hstep')))

/-- A piece of a string ends in front of the closing quote, unless it is a backslash before it. -/
theorem related_stringPiece (hcall : Advancing call) (hcall' : Advancing call')
    (hq : q = '"' ∨ q = '\'') (hu : u ≠ ['\\']) (h : c.rest = u ++ q :: A)
    (h' : c'.rest = u ++ q :: B) :
    Outcome.Related (Cursor.Front (q :: A) (q :: B)) ((stringPiece q).result call .quiet c)
      ((stringPiece q).result call' .quiet c') := by
  have hescape {call : {α : Type} → Rule α → Spacing → Cursor → Attempt α} {c : Cursor}
      {x : Char} {Y : List Char} (h : c.rest = x :: Y) (hx : x ≠ '\\') :
      escape.result call .quiet c = .failed := by
    have htoken : (token "\\" : Phrase Unit).result call .quiet c = .failed := by
      refine result_token_absent "\\" fun hstarts => ?_
      rw [h] at hstarts
      exact hx (List.cons_prefix_cons.mp hstarts).1.symm
    rw [escape, result_text, result_seqRight, htoken]
    rfl
  rw [stringPiece, result_orElse, result_orElse]
  cases u with
  | nil =>
    have hslash : q ≠ '\\' := by rcases hq with rfl | rfl <;> decide
    rw [hescape h hslash, hescape h' hslash]
    simp only [Outcome.orElse_failed, result_text, result_seqRight, result_unless, result_one, h,
      h', List.nil_append, decide_true, Bool.true_or, if_true, Outcome.andThen_failed]
    exact .failed
  | cons y u =>
    refine .orElse ?_ (related_plainPiece h h' _)
    by_cases hy : y = '\\'
    · subst hy
      cases u with
      | nil => exact absurd rfl hu
      | cons z u => exact related_escape hcall hcall' hq h h'
    · rw [hescape h hy, hescape h' hy]
      exact .failed

/-- A backslash before the closing quote takes it. -/
theorem stringPiece_passes (hq : q = '"' ∨ q = '\'') (h : c.rest = '\\' :: q :: A) :
    ∃ v, (stringPiece q).result call .quiet c = .matched v c.step.step := by
  obtain ⟨rest, o, p⟩ := c
  obtain rfl : rest = _ := h
  rcases hq with rfl | rfl <;> exact ⟨_, rfl⟩

theorem consumes_stringPiece (quote : Char) : (stringPiece quote).consumes = true := rfl

/-- **Pieces up to the closing quote** are the same whatever stands behind the quote. -/
theorem manyResult_stringPiece (hcall : Advancing call) (hcall' : Advancing call')
    (hq : q = '"' ∨ q = '\'') {fuel fuel' : Nat} {vs : List (List Char)}
    (h : Cursor.Front (q :: A) (q :: B) c c') (hfuel : c.rest.length < fuel)
    (hfuel' : c'.rest.length < fuel')
    (hvs : manyResult ((stringPiece q).again call .quiet) fuel c = .matched vs n)
    (hn : n.rest = q :: A) :
    ∃ vs' n', manyResult ((stringPiece q).again call' .quiet) fuel' c' = .matched vs' n' ∧
      n'.rest = q :: B := by
  have hlt (c : Cursor) (v : List Char) (n : Cursor)
      (hv : (stringPiece q).again call .quiet c = .matched v n) : c < n :=
    lt_of_matched hcall hv (consumes_stringPiece q)
  induction fuel generalizing c c' fuel' vs with
  | zero => omega
  | succ fuel ih =>
    obtain ⟨fuel', rfl⟩ := Nat.exists_eq_add_of_le' (Nat.zero_lt_of_lt hfuel')
    obtain ⟨u, hu, hu'⟩ := h
    by_cases hslash : u = ['\\']
    · -- The backslash would take the quote, but the pieces end in front of it.
      subst hslash
      obtain ⟨v, hpiece⟩ : ∃ v, (stringPiece q).result call .quiet c = .matched v c.step.step :=
        stringPiece_passes hq hu
      rcases manyResult_succ_eq_matched.mp hvs with ⟨_, _, ws, hv, hws, rfl⟩ | ⟨hfailed, -⟩
      · cases hpiece.symm.trans hv
        have hle := Cursor.length_rest_le
          (le_of_manyResult (fun c v n hv => (hlt c v n hv).le) hws)
        simp [hn, hu] at hle
      · cases hpiece.symm.trans hfailed
    · have hrelated := related_stringPiece hcall hcall' hq hslash hu hu'
      rcases manyResult_succ_eq_matched.mp hvs with ⟨v, m, ws, hv, hws, rfl⟩ | ⟨hfailed, rfl, rfl⟩
      · have hshort := Cursor.length_rest_lt (hlt c v m hv)
        change (stringPiece q).result call .quiet c = _ at hv
        rw [hv] at hrelated
        obtain ⟨v', m', hv', hm⟩ := hrelated.exists_matched
        have hshort' := Cursor.length_rest_lt (lt_of_matched hcall' hv' (consumes_stringPiece q))
        obtain ⟨vs', n', hvs', hn'⟩ := ih hm (by omega) (show _ < fuel' by omega) hws
        exact ⟨v' :: vs', n', manyResult_succ_eq_matched.mpr (.inl ⟨v', m', vs', hv', hvs', rfl⟩),
          hn'⟩
      · change (stringPiece q).result call .quiet n = _ at hfailed
        rw [hfailed] at hrelated
        rw [hu] at hn
        obtain rfl : u = [] := List.append_left_eq_self.mp hn
        exact ⟨[], c', manyResult_succ_eq_matched.mpr (.inr ⟨hrelated.eq_failed, rfl, rfl⟩), hu'⟩

/-- **A string is read from its own text.** -/
theorem quoted_elsewhere (hcall : Advancing call) (hcall' : Advancing call') {w : String}
    (hw : w.toList = [q]) (hq : q = '"' ∨ q = '\'') {v : List Char}
    (hread : (token w *> stringInside q <* token w : Phrase _).result call .tight c = .matched v n)
    (h : c.Over K n) (h' : c'.Over K n') :
    (token w *> stringInside q <* token w : Phrase _).result call' .tight c' = .matched v n' := by
  simp only [result_seqLeft, result_seqRight, Outcome.andThen_eq_matched,
    Outcome.map_eq_matched, stringInside, atom, result_named, result_spaced, result_text] at hread
  obtain ⟨_, m, ⟨_, k, hopen, vs, _, hmany, he⟩, _, hclose, rfl⟩ := hread
  cases he
  change (Form.many (stringPiece q)).result call .quiet k = .matched vs m at hmany
  have hopen : c.Over [q] k := hw ▸ over_of_token hopen
  have hclose : m.Over [q] n := hw ▸ over_of_token hclose
  have hinside : k.Over (k.textTo m) m := .of_le (le_of_matched hcall hmany)
  have hpieces {call : {α : Type} → Rule α → Spacing → Cursor → Attempt α}
      (hcall : Advancing call) (k : Cursor) :
      (Form.many (stringPiece q)).result call .quiet k =
        manyResult ((stringPiece q).again call .quiet) (k.rest.length + 1) k :=
    result_many_eq hcall (consumes_stringPiece q) rfl (Nat.lt_succ_self _)
  have hm : m.rest = q :: n.rest := hclose.rest_eq
  obtain rfl : K = [q] ++ (k.textTo m ++ [q]) := by
    refine List.append_cancel_right (h.rest_eq.symm.trans ?_)
    rw [hopen.rest_eq, hinside.rest_eq, hclose.rest_eq, List.append_assoc, List.append_assoc]
  obtain ⟨k', hopen', hmore⟩ := Cursor.Over.append_iff.mp h'
  obtain ⟨m', hinside', hclose'⟩ := Cursor.Over.append_iff.mp hmore
  have hm' : m'.rest = q :: n'.rest := hclose'.rest_eq
  have hfront : Cursor.Front (q :: n.rest) (q :: n'.rest) k k' :=
    ⟨k.textTo m, hm ▸ hinside.rest_eq, hm' ▸ hinside'.rest_eq⟩
  obtain ⟨vs', last, hmany', hlast⟩ := manyResult_stringPiece hcall hcall' hq hfront
    (Nat.lt_succ_self _) (Nat.lt_succ_self _) (hpieces hcall k ▸ hmany) hm
  rw [← hpieces hcall'] at hmany'
  obtain rfl : last = m' := Cursor.eq_of_rest_eq (le_of_matched hcall' hmany') hinside'.le
    (hlast.trans hm'.symm)
  have hread' : (stringInside q).result call' .tight k' = .matched (k.textTo m) last := by
    rw [stringInside, atom, result_named, result_spaced]
    change (text (.many (stringPiece q)) : Phrase _).result call' .quiet k' = _
    rw [result_text, hmany', Outcome.andThen_matched, hinside'.textTo]
  simp only [result_seqLeft, result_seqRight, result_token w (hw ▸ hopen'), hread',
    Outcome.andThen_matched, Spacing.skip, result_token w (hw ▸ hclose'), Outcome.map_matched]

/-! ## Numbers and names -/

/-- The characters that may stand behind a key. -/
def behindKey : List Char :=
  [' ', '\t', '\r', '\n', '\ufeff', '\u00a0', '/', '(', ':']

/-- Neither a number nor a name goes on with what stands behind a key. -/
theorem avoids_behindKey {x : Char} (hx : x ∈ behindKey) :
    numberText.avoids x = true ∧ nameText.avoids x = true := by
  have hall : behindKey.all (fun x => numberText.avoids x && nameText.avoids x) = true := rfl
  exact Bool.and_eq_true_iff.mp (List.all_eq_true.mp hall x hx)

/-- A form that avoids the next character stops before it on both sides. -/
theorem related_atom (hcall : Advancing call) (hcall' : Advancing call') {f : Phrase (List Char)}
    (ha : f.avoids a = true) (hb : f.avoids b = true)
    (h : Cursor.Front (a :: A) (b :: B) c c') :
    Outcome.Related (Cursor.Front (a :: A) (b :: B)) ((atom f).result call .free c)
      ((atom f).result call' .free c') := by
  rw [atom, result_named, result_named]
  exact f.related_front hcall hcall' ha hb h

/-- What is read up to the boundary is read up to the other one. -/
theorem matched_elsewhere (hcall' : Advancing call') {α : Type} {f : Phrase α} {s : Spacing} {v : α}
    (h : Outcome.Related (Cursor.Front (a :: A) (b :: B)) (.matched v n) (f.result call' s c'))
    (hn : n.rest = a :: A) (hn' : n'.rest = b :: B) (hle : c' ≤ n') :
    ∃ v', f.result call' s c' = .matched v' n' := by
  obtain ⟨v', m, hread, u, hu, hm⟩ := h.exists_matched
  obtain rfl : u = [] := List.append_left_eq_self.mp (hu.symm.trans hn)
  obtain rfl : m = n' := Cursor.eq_of_rest_eq (le_of_matched hcall' hread) hle (hm.trans hn'.symm)
  exact ⟨v', hread⟩

/-- A number is its text. -/
theorem numberText_eq_textTo {s : Spacing} {v : List Char}
    (h : numberText.result call s c = .matched v n) : v = c.textTo n := by
  have htext {α : Type} {f : Phrase α} (h : (text f).result call s c = .matched v n) :
      v = c.textTo n := by
    rw [result_text, Outcome.andThen_eq_matched] at h
    obtain ⟨_, _, -, he⟩ := h
    cases he
    rfl
  rw [numberText, result_orElse, result_orElse, Outcome.orElse_eq_matched,
    Outcome.orElse_eq_matched] at h
  rcases h with h | ⟨-, h | ⟨-, h⟩⟩ <;> exact htext h

/-- A name is its text. -/
theorem nameText_eq_textTo {s : Spacing} {v : List Char}
    (h : nameText.result call s c = .matched v n) : v = c.textTo n := by
  rw [nameText, result_text, Outcome.andThen_eq_matched] at h
  obtain ⟨_, _, -, he⟩ := h
  cases he
  rfl

/-! ## Keys -/

/-- The characters that start the other keys. -/
theorem word_failed {Y : List Char} (h : c.rest = y :: Y) (hy : y ∈ ['[', '"', '\'']) :
    number.result call .free c = .failed ∧ propertyName.result call .free c = .failed := by
  obtain ⟨rest, o, p⟩ := c
  obtain rfl : rest = _ := h
  simp only [List.mem_cons, List.not_mem_nil, or_false] at hy
  rcases hy with rfl | rfl | rfl <;> exact ⟨rfl, rfl⟩

/-- A computed key. -/
def computedKey : Phrase (Built Key) :=
  (fun value : Built Expr => value.map Key.computed) <$>
    .named (token "[" *> .rule .assignment <* token "]")

/-- No computed key begins without a bracket. -/
theorem computedKey_failed {Y : List Char} (h : c.rest = y :: Y) (hy : y ≠ '[') :
    computedKey.result call .free c = .failed := by
  have htoken : (token "[" : Phrase Unit).result call .free c = .failed := by
    refine result_token_absent "[" fun hstarts => ?_
    rw [h] at hstarts
    exact hy (List.cons_prefix_cons.mp hstarts).1.symm
  simp only [computedKey, result_fmap, result_named, result_seqLeft, result_seqRight, htoken,
    Outcome.andThen_failed, Outcome.map_failed]

/-- No quoted key begins without its quote. -/
theorem quoted_failed {Y : List Char} {w : String} (hw : w.toList = [q]) (h : c.rest = y :: Y)
    (hy : y ≠ q) :
    (token w *> stringInside q <* token w : Phrase _).result call .tight c = .failed := by
  have htoken : (token w : Phrase Unit).result call .tight c = .failed := by
    refine result_token_absent w fun hstarts => ?_
    rw [h, hw] at hstarts
    exact hy (List.cons_prefix_cons.mp hstarts).1.symm
  simp only [result_seqLeft, result_seqRight, htoken, Outcome.andThen_failed]

/-- A string is tried with either quote. -/
theorem result_string :
    (Form.rule .string : Phrase _).result (follow (fuel + 1)) .free c =
      ((token "\"" *> stringInside '"' <* token "\"" : Phrase _).result (follow fuel) .tight
        c).orElse fun _ =>
      (token "'" *> stringInside '\'' <* token "'" : Phrase _).result (follow fuel) .tight c := by
  rw [result_rule_succ, Rule.phrase, Phrase.string, result_spaced, result_named, result_orElse]

/-- No string begins without a quote. -/
theorem string_failed {Y : List Char} (h : c.rest = y :: Y) (hy : y ∉ ['[', '"', '\'']) :
    (Form.rule .string : Phrase _).result (follow (fuel + 1)) .free c = .failed := by
  rw [result_string, quoted_failed rfl h fun he => hy (by simp [he]), Outcome.orElse_failed,
    quoted_failed rfl h fun he => hy (by simp [he])]

/-- A quoted text starts with its quote. -/
theorem head_of_quoted {w : String} (hw : w.toList = [q]) {v : List Char} {Y : List Char}
    (h : c.rest = y :: Y)
    (hread : (token w *> stringInside q <* token w : Phrase _).result call .tight c =
      .matched v n) : y = q := by
  by_contra hy
  cases (quoted_failed hw h hy).symm.trans hread

/-- **A string is read from its own text** by its rule. -/
theorem string_elsewhere {v : List Char} (h : c.Over (y :: K) n) (h' : c'.Over (y :: K) n')
    (hread : (Form.rule .string : Phrase _).result (follow fuel) .free c = .matched v n) :
    y ≠ '[' ∧ (Form.rule .string : Phrase _).result (follow fuel) .free c' = .matched v n' := by
  cases fuel with
  | zero => cases hread
  | succ fuel =>
    have hcall : Advancing (follow fuel) := advancing_follow fuel
    rw [result_string, Outcome.orElse_eq_matched] at hread
    rw [result_string]
    rcases hread with hread | ⟨-, hread⟩
    · obtain rfl := head_of_quoted rfl h.rest_eq hread
      refine ⟨by decide, ?_⟩
      rw [quoted_elsewhere hcall hcall rfl (.inl rfl) hread h h', Outcome.orElse_matched]
    · obtain rfl := head_of_quoted rfl h.rest_eq hread
      refine ⟨by decide, ?_⟩
      rw [quoted_failed rfl h'.rest_eq (by decide), Outcome.orElse_failed,
        quoted_elsewhere hcall hcall rfl (.inr rfl) hread h h']

/-- A number is the same key wherever it stands. -/
theorem numberKey_elsewhere {p p' : Position} {v : List Char}
    (h : numberKey p v = .ok (.static x)) : numberKey p' v = .ok (.static x) := by
  unfold numberKey numberValue at h ⊢
  cases hv : Number.ofLiteral? v with
  | none =>
    rw [hv] at h
    cases h
  | some z =>
    rw [hv] at h
    exact h

/-- A key is tried as computed, quoted, a number and a name. -/
theorem result_key :
    key.result call .free c = (computedKey.result call .free c).orElse fun _ =>
      (((Form.rule .string : Phrase _).result call .free c).map fun inside =>
        .ok (.static (stringValue inside))).orElse fun _ =>
      ((number.result call .free c).map fun n => numberKey n.1 n.2).orElse fun _ =>
      (propertyName.result call .free c).map fun x => .ok (.static x) := by
  simp only [key, computedKey, result_named, result_orElse, result_fmap]

/-- A number in front of the seam is read alike on both sides. -/
theorem related_number (hcall : Advancing call) (hcall' : Advancing call') (ha : a ∈ behindKey)
    (hb : b ∈ behindKey) (h : Cursor.Front (a :: A) (b :: B) c c') :
    Outcome.Related (Cursor.Front (a :: A) (b :: B)) (number.result call .free c)
      (number.result call' .free c') := by
  rw [number, result_placed, result_placed]
  exact (related_atom hcall hcall' (avoids_behindKey ha).1 (avoids_behindKey hb).1 h).map

/-- The value of a number is its place with its text. -/
theorem eq_of_number {v : Position × List Char} (h : number.result call .free c = .matched v n) :
    v = (c.position, c.textTo n) := by
  rw [number, result_placed, Outcome.map_eq_matched] at h
  obtain ⟨w, hw, rfl⟩ := h
  rw [atom, result_named, result_spaced] at hw
  rw [numberText_eq_textTo hw]

/-- The value of a name behind a point is its text. -/
theorem eq_of_propertyName (h : propertyName.result call .free c = .matched x n) :
    x = String.ofList (c.textTo n) := by
  rw [propertyName, result_fmap, Outcome.map_eq_matched] at h
  obtain ⟨w, hw, rfl⟩ := h
  rw [atom, result_named, result_spaced] at hw
  rw [nameText_eq_textTo hw]

/-- A name in front of the seam is read alike on both sides. -/
theorem related_propertyName (hcall : Advancing call) (hcall' : Advancing call')
    (ha : a ∈ behindKey) (hb : b ∈ behindKey) (h : Cursor.Front (a :: A) (b :: B) c c') :
    Outcome.Related (Cursor.Front (a :: A) (b :: B)) (propertyName.result call .free c)
      (propertyName.result call' .free c') := by
  rw [propertyName, result_fmap, result_fmap]
  exact (related_atom hcall hcall' (avoids_behindKey ha).2 (avoids_behindKey hb).2 h).map

/-- Where a number or a name is read there is no other key. -/
theorem other_failed {Y Y' : List Char} (h : c.rest = y :: Y) (h' : c'.rest = y :: Y')
    (hstring : (Form.rule .string : Phrase _).result (follow fuel) .free c = .failed)
    (hword : number.result (follow fuel) .free c ≠ .failed ∨
      propertyName.result (follow fuel) .free c ≠ .failed) :
    computedKey.result (follow fuel) .free c' = .failed ∧
      (Form.rule .string : Phrase _).result (follow fuel) .free c' = .failed := by
  have hy : y ∉ ['[', '"', '\''] := fun hy =>
    hword.elim (· (word_failed h hy).1) (· (word_failed h hy).2)
  cases fuel with
  | zero => cases hstring
  | succ fuel => exact ⟨computedKey_failed h' fun he => hy (by simp [he]), string_failed h' hy⟩

/-- **A key that is known from the text** is read from its own text, whatever may stand behind. -/
theorem key_elsewhere (ha : a ∈ behindKey) (hb : b ∈ behindKey) (h : c.Over K n)
    (hn : n.rest = a :: A) (h' : c'.Over K n') (hn' : n'.rest = b :: B)
    (hread : key.result (follow fuel) .free c = .matched (.ok (.static x)) n) :
    key.result (follow fuel) .free c' = .matched (.ok (.static x)) n' := by
  have hcall : Advancing (follow fuel) := advancing_follow fuel
  have hlt : c < n := lt_of_matched hcall hread (by decide)
  obtain ⟨y, K, rfl⟩ : ∃ y L, K = y :: L := by
    cases K with
    | nil =>
      have hlength := Cursor.length_rest_lt hlt
      rw [h.rest_eq] at hlength
      exact absurd hlength (lt_irrefl _)
    | cons y K => exact ⟨y, K, rfl⟩
  have hfront : Cursor.Front (a :: A) (b :: B) c c' :=
    ⟨y :: K, hn ▸ h.rest_eq, hn' ▸ h'.rest_eq⟩
  have hnumbers : Outcome.Related (Cursor.Front (a :: A) (b :: B))
      (number.result (follow fuel) .free c) (number.result (follow fuel) .free c') :=
    related_number hcall hcall ha hb hfront
  rw [result_key] at hread ⊢
  simp only [Outcome.orElse_eq_matched, Outcome.map_eq_matched, Outcome.map_eq_failed] at hread
  rcases hread with hcomputed | ⟨-, ⟨v, hv, hkey⟩ | ⟨hstring, ⟨v, hv, hkey⟩ |
    ⟨hnumber, v, hv, hkey⟩⟩⟩
  · rw [computedKey, result_fmap, Outcome.map_eq_matched] at hcomputed
    obtain ⟨value, -, hvalue⟩ := hcomputed
    cases value <;> cases hvalue
  · obtain ⟨hy, hv'⟩ := string_elsewhere h h' hv
    rw [computedKey_failed h'.rest_eq hy, Outcome.orElse_failed, hv', Outcome.map_matched,
      Outcome.orElse_matched, hkey]
  · obtain ⟨hcomputed', hstring'⟩ := other_failed h.rest_eq h'.rest_eq hstring (.inl (by simp [hv]))
    rw [hv] at hnumbers
    obtain ⟨v', hv'⟩ := matched_elsewhere hcall hnumbers hn hn' h'.le
    obtain rfl := eq_of_number hv
    obtain rfl := eq_of_number hv'
    rw [h.textTo] at hkey
    rw [hcomputed', Outcome.orElse_failed, hstring', Outcome.map_failed, Outcome.orElse_failed, hv',
      Outcome.map_matched, Outcome.orElse_matched, h'.textTo, numberKey_elsewhere hkey]
  · obtain ⟨hcomputed', hstring'⟩ := other_failed h.rest_eq h'.rest_eq hstring (.inr (by simp [hv]))
    have hnames : Outcome.Related (Cursor.Front (a :: A) (b :: B))
        (propertyName.result (follow fuel) .free c) (propertyName.result (follow fuel) .free c') :=
      related_propertyName hcall hcall ha hb hfront
    rw [hv] at hnames
    rw [hnumber] at hnumbers
    obtain ⟨v', hv'⟩ := matched_elsewhere hcall hnames hn hn' h'.le
    obtain rfl := eq_of_propertyName hv
    obtain rfl := eq_of_propertyName hv'
    rw [h.textTo] at hkey
    rw [hcomputed', Outcome.orElse_failed, hstring', Outcome.map_failed, Outcome.orElse_failed,
      hnumbers.eq_failed, Outcome.map_failed, Outcome.orElse_failed, hv', Outcome.map_matched,
      h'.textTo, hkey]

end ScriptTrace.Syntax
