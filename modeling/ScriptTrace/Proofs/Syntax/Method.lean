import ScriptTrace.Proofs.Syntax.Key
import ScriptTrace.Proofs.Syntax.Operation
import ScriptTrace.Proofs.Syntax.Portable

/-!
# Proofs/Syntax/Method — a method is a function under its key

A method `K(P) { B }` of an object literal and the property `K: function (P) { B }` are read by
different phrases: the name of a method is its key, and the function behind a colon has none.  Under
a key that is known from the text both have the same parameters and the same body
(`method_elsewhere`).
-/

namespace ScriptTrace.Syntax

open Grammar
open Grammar.Form
open Phrase
open Places

variable {fuel : Nat} {c d k m n q : Cursor} {x : String} {tail : FunctionTail} {Y : List Char}

/-! ## A function as a value -/

/-- What stands directly behind a key, or in front of the blanks there. -/
theorem head_mem_behindKey {y : Char} (hy : y ∈ behindKey) (h : c.skipBlanks.rest = y :: Y) :
    ∃ a A, c.rest = a :: A ∧ a ∈ behindKey := by
  cases hrest : c.rest with
  | nil =>
    rw [(Cursor.isSolid_of_nil hrest).skipBlanks_eq, hrest] at h
    cases h
  | cons a A =>
    refine ⟨a, A, rfl, ?_⟩
    by_cases hspace : isSpace a = true
    · simp only [isSpace, Bool.or_eq_true, decide_eq_true_eq] at hspace
      rcases hspace with ((((rfl | rfl) | rfl) | rfl) | rfl) | rfl <;> decide
    · by_cases hslash : a = '/'
      · rw [hslash]
        decide
      · have hsolid := Cursor.isSolid_of_cons hrest (Bool.eq_false_iff.mpr hspace) hslash
        rw [hsolid.skipBlanks_eq, hrest] at h
        cases h
        exact hy

/-- A key ends in front of what stands behind it. -/
theorem bounds_behind {y : Char} (hy : y ∈ behindKey) (h : c.skipBlanks.rest = y :: Y) :
    Bounds c.rest := by
  obtain ⟨a, A, ha, hmem⟩ := head_mem_behindKey hy h
  have hall : behindKey.all (fun a => !isNameChar a) = true := rfl
  have hbound : isNameChar a = false := by simpa using List.all_eq_true.mp hall a hmem
  exact ha ▸ bounds_of_cons hbound _

/-- No arrow function starts with a word in front of a parenthesis. -/
theorem arrow_failed_of_word {x : Char} {w : List Char} (hw : (x :: w).all isNameChar = true)
    (h : c.Over (x :: w) n) (hn : n.skipBlanks.rest = '(' :: Y) :
    arrow.result (follow fuel) .free c = .failed := by
  have hopen : (token "(" : Phrase Unit).result (follow fuel) .free c = .failed := by
    refine result_token_absent "(" fun hstarts => ?_
    rw [h.rest_eq] at hstarts
    obtain rfl := (List.cons_prefix_cons.mp hstarts).1
    exact absurd (List.all_eq_true.mp hw _ List.mem_cons_self) (by decide)
  have harrow : (token "=>" : Phrase Unit).result (follow fuel) .free n.skipBlanks = .failed := by
    refine result_token_absent "=>" fun hstarts => ?_
    rw [hn] at hstarts
    exact absurd (List.cons_prefix_cons.mp hstarts).1 (by decide)
  simp only [arrow, arrowParameters, result_fmap, result_placed, result_named, result_both,
    result_seqLeft, result_seqRight, result_orElse, hopen, Outcome.andThen_failed]
  rcases name_takes_word (s := .free) (advancing_follow fuel) hw h (bounds_behind (by decide) hn)
    with hname | hname
  · simp only [hname, Outcome.map_failed, Outcome.orElse_failed, Outcome.andThen_failed]
  · simp only [hname, Outcome.map_matched, Outcome.orElse_matched, Outcome.andThen_matched,
      Spacing.skip, harrow, Outcome.andThen_failed, Outcome.map_failed]

/-- **A function without a name is read** up to the end of its body. -/
theorem result_functionExpression {call : {α : Type} → Rule α → Spacing → Cursor → Attempt α}
    (h : d.Over "function".toList k) (hk : k.skipBlanks.rest = '(' :: Y)
    (htail : functionTail.result call .free k.skipBlanks = .matched (.ok tail) q) :
    functionExpression.result call .free d =
      .matched (.ok (.mk (.function (tail.function none d.position)) d.position)) q := by
  have hkeyword : (keyword "function").result call .free d = .matched () k :=
    keyword_self h (bounds_behind (by decide) hk)
  have hname : name.result call .free k.skipBlanks = .failed := by
    generalize k.skipBlanks = m at hk
    obtain ⟨rest, o, p⟩ := m
    cases hk
    rfl
  simp only [functionExpression, result_fmap, result_placed, result_named, result_both,
    result_seqRight, hkeyword, Outcome.andThen_matched, Spacing.skip, result_perhaps, hname,
    Outcome.map_failed, Outcome.orElse_failed, Outcome.map_matched,
    k.isSolid_skipBlanks.skipBlanks_eq, htail]
  rfl

/-- **A function without a name is a whole expression** up to what closes it. -/
theorem result_assignment_function (h : d.Over "function".toList k)
    (hk : k.skipBlanks.rest = '(' :: Y)
    (htail : functionTail.result (follow fuel) .free k.skipBlanks = .matched (.ok tail) q)
    (hq : Closes q.skipBlanks.rest) :
    Phrase.assignment.result (follow fuel) .free d =
      .matched (.ok (.mk (.function (tail.function none d.position)) d.position)) q.skipBlanks := by
  have hfunction := result_functionExpression h hk htail
  have hrest := h.rest_eq
  have hsolid : d.IsSolid := Cursor.isSolid_of_cons hrest rfl (by decide)
  have harrow : arrow.result (follow fuel) .free d = .failed := arrow_failed_of_word rfl h hk
  obtain ⟨hfront, hnew⟩ : frontOperator.result (follow fuel) .free d = .failed ∧
      newExpression.result (follow fuel) .free d = .failed := by
    obtain ⟨rest, o, p⟩ := d
    obtain rfl : rest = _ := hrest
    exact ⟨rfl, rfl⟩
  have hhead : (newExpression <|> primary : Phrase (Built Expr)).result (follow fuel) .free d =
      .matched (.ok (.mk (.function (tail.function none d.position)) d.position)) q := by
    rw [result_orElse, hnew, Outcome.orElse_failed, primary, result_orElse, hfunction,
      Outcome.orElse_matched]
  have hchained : Chained fuel d.skipBlanks
      (.mk (.function (tail.function none d.position)) d.position) q.skipBlanks := by
    rw [hsolid.skipBlanks_eq]
    exact ⟨hfront, _, q, [], _, hhead, .nil _, rfl, rfl⟩
  have hunary := (hchained.fronted (.closes hq)).result_unary hsolid
  have hbinary := result_binary_of_unary hunary hq.between_failed
  have hconditional := result_conditional_of_binary hbinary hq.question_failed
  have hread := result_assignment_of_arrow_failed harrow hq.assignOperator_failed hconditional
  rwa [q.isSolid_skipBlanks.skipBlanks_eq] at hread

/-! ## The properties of an object literal -/

/-- A property of an object literal. -/
def property : Phrase (Built Property) :=
  (fun source : Built Expr => source.map Property.spread) <$> spread <|>
    method <|> keyedProperty <|> shorthandProperty

/-- **An object literal with one property.** -/
theorem result_objectLiteral {v : Property} (hopen : c.Over ['\x7b'] m)
    (h : property.result (follow fuel) .free m.skipBlanks = .matched (.ok v) q)
    (hclose : q.skipBlanks.Over ['\x7d'] n) :
    objectLiteral.result (follow fuel) .free c = .matched (.ok (.object [v])) n := by
  have hsolid := q.isSolid_skipBlanks.skipBlanks_eq
  have hcomma : (token "," : Phrase Unit).result (follow fuel) .free q.skipBlanks = .failed := by
    refine result_token_absent "," fun hstarts => ?_
    rw [hclose.rest_eq] at hstarts
    exact absurd (List.cons_prefix_cons.mp hstarts).1 (by decide)
  have hlist : (commaList property).result (follow fuel) .free m.skipBlanks =
      .matched [.ok v] q.skipBlanks := by
    simp only [commaList, commaSeparated, result_fmap, result_perhaps, result_seqLeft,
      result_combine, h, Outcome.andThen_matched, Spacing.skip, result_many, result_seqRight,
      hcomma, Outcome.andThen_failed, Outcome.orElse_failed, Outcome.map_matched, hsolid,
      Outcome.map_failed, Outcome.orElse_matched]
    rfl
  change ((fun properties => (allBuilt properties).map ExprNode.object) <$>
    (.named (token "\x7b" *> commaList property <* token "\x7d") : Phrase _)).result (follow fuel)
      .free c = _
  simp only [result_fmap, result_named, result_seqLeft, result_seqRight,
    result_token "\x7b" hopen, Outcome.andThen_matched, Spacing.skip, hlist, hsolid,
    result_token "\x7d" hclose, Outcome.map_matched]
  rfl

/-- Where a key stands there are no dots. -/
theorem dots_failed_of_key {k : Built Key}
    (h : key.result (follow fuel) .free c = .matched k n)
    {call : {α : Type} → Rule α → Spacing → Cursor → Attempt α} {s : Spacing} :
    (token "..." : Phrase Unit).result call s c = .failed := by
  refine result_token_absent "..." ?_
  rintro ⟨Y, hY⟩
  obtain ⟨rest, o, p⟩ := c
  obtain rfl : _ = rest := hY
  cases fuel with
  | zero => cases h.symm.trans (rfl : _ = Outcome.exhausted)
  | succ fuel => cases h.symm.trans (rfl : _ = Outcome.failed)

/-- Where a key stands there is no spread. -/
theorem spread_failed_of_key {k : Built Key}
    (h : key.result (follow fuel) .free c = .matched k n) :
    spread.result (follow fuel) .free c = .failed := by
  rw [spread, result_named, result_seqRight, dots_failed_of_key h, Outcome.andThen_failed]

/-- A key with parameters and a body is a method. -/
theorem property_of_method {v : Built Property} {k : Built Key}
    (hkey : key.result (follow fuel) .free c = .matched k n)
    (hmethod : method.result (follow fuel) .free c = .matched v q) :
    property.result (follow fuel) .free c = .matched v q := by
  simp only [property, result_orElse, result_fmap, spread_failed_of_key hkey, Outcome.map_failed,
    Outcome.orElse_failed, hmethod, Outcome.orElse_matched]

/-- The name that a key gives a method. -/
def methodName? : Key → Option String
  | .static x => some x
  | .computed _ => none

/-- **A method** is a function with the name that its key gives, under this name. -/
theorem result_method {k : Key} (hkey : key.result (follow fuel) .free c = .matched (.ok k) n)
    (htail : functionTail.result (follow fuel) .free n.skipBlanks = .matched (.ok tail) q) :
    method.result (follow fuel) .free c = .matched (.ok (.keyed (.static ((methodName? k).getD ""))
      (.mk (.function (tail.function (methodName? k) c.position)) c.position))) q := by
  simp only [method, result_fmap, result_placed, result_named, result_both, hkey,
    Outcome.andThen_matched, Spacing.skip, htail, Outcome.map_matched]
  cases k <;> rfl

/-- **An object literal with one method.**  Where the key is computed, the method stands under the
empty key. -/
theorem result_objectLiteral_method {k : Key} {last : Cursor} (hopen : c.Over ['\x7b'] m)
    (hkey : key.result (follow fuel) .free m.skipBlanks = .matched (.ok k) n)
    (htail : functionTail.result (follow fuel) .free n.skipBlanks = .matched (.ok tail) q)
    (hclose : q.skipBlanks.Over ['\x7d'] last) :
    objectLiteral.result (follow fuel) .free c = .matched (.ok (.object
      [.keyed (.static ((methodName? k).getD "")) (.mk (.function (tail.function (methodName? k)
        m.skipBlanks.position)) m.skipBlanks.position)])) last :=
  result_objectLiteral hopen (property_of_method hkey (result_method hkey htail)) hclose

/-- **A property with a colon** is no method. -/
theorem result_property_of_colon {k : Built Key}
    (hkey : key.result (follow fuel) .free c = .matched k n) (hcolon : n.skipBlanks.Over [':'] m) :
    property.result (follow fuel) .free c =
      (((Form.rule .assignment : Phrase _).result (follow fuel) .free m.skipBlanks).map
        fun value => do return .keyed (← k) (← value)).orElse
          fun _ => shorthandProperty.result (follow fuel) .free c := by
  have hparenthesis : (token "(" : Phrase Unit).result (follow fuel) .free n.skipBlanks =
      .failed := by
    refine result_token_absent "(" fun hstarts => ?_
    rw [hcolon.rest_eq] at hstarts
    exact absurd (List.cons_prefix_cons.mp hstarts).1 (by decide)
  have hmethod : method.result (follow fuel) .free c = .failed := by
    simp only [method, functionTail, result_fmap, result_placed, result_named, result_both,
      result_combine, result_seqLeft, result_seqRight, hkey, Outcome.andThen_matched, Spacing.skip,
      hparenthesis, Outcome.andThen_failed, Outcome.map_failed]
  simp only [property, result_orElse, result_fmap, spread_failed_of_key hkey, Outcome.map_failed,
    Outcome.orElse_failed, hmethod, keyedProperty, result_named, result_combine, result_seqLeft,
    hkey, Outcome.andThen_matched, Spacing.skip, result_token ":" hcolon, Outcome.map_matched]

/-- A key with a colon and a value is a property. -/
theorem property_of_keyed {v : Expr} {k : Key}
    (hkey : key.result (follow fuel) .free c = .matched (.ok k) n)
    (hcolon : n.skipBlanks.Over [':'] m)
    (hvalue : (Form.rule .assignment : Phrase _).result (follow fuel) .free m.skipBlanks =
      .matched (.ok v) q) :
    property.result (follow fuel) .free c = .matched (.ok (.keyed k v)) q := by
  rw [result_property_of_colon hkey hcolon, hvalue]
  rfl

/-! ## Both spellings -/

/-- **The tail of a function is read from its own text**, inside one more rule. -/
theorem functionTail_elsewhere (hroom : rulesPerPlace * d.rest.length ≤ fuel)
    (hd : d.rest = c.rest)
    (h : functionTail.result (follow (fuel + 1)) .free c = .matched (.ok tail) n) :
    ∃ tail' n', functionTail.result (follow fuel) .free d = .matched (.ok tail') n' ∧
      n'.rest = n.rest ∧ unplaced tail' = unplaced tail := by
  have hbelow : functionTail.opensBelow Rule.rank 0 = true := by decide
  have halike : Outcome.Alike _ _ (functionTail.result (follow fuel) .free d)
      (functionTail.result (follow (fuel + 1)) .free c) :=
    result_alike_elsewhere Relocation.steady_toStart Kept.functionTail ⟨hd, rfl⟩
  rw [h] at halike
  cases hread : functionTail.result (follow fuel) .free d with
  | matched v m =>
    rw [hread] at halike
    obtain ⟨hvalue, hend⟩ := halike.pair
    cases v with
    | ok tail' =>
      refine ⟨tail', m, rfl, hend.rest_eq, ?_⟩
      rw [← tail'.relocated_toStart, ← tail.relocated_toStart]
      exact Except.ok.inj hvalue
    | error e => cases hvalue
  | failed =>
    rw [hread] at halike
    cases halike
  | exhausted => exact absurd hread (result_ne_exhausted hbelow hroom)

/-- The text of an object literal up to the parameters of a function under the key `K`, with `T` for
the text behind it. -/
def FunctionUnder (K T : List Char) (c : Cursor) : Prop :=
  ∃ m n k d, c.Over ['\x7b'] m ∧ m.skipBlanks.Over K n ∧ n.skipBlanks.Over [':'] k ∧
    k.skipBlanks.Over "function".toList d ∧ d.skipBlanks.rest = T

/-- **A method and a function under the same key.**  An object literal with the method is read as
the function under the key, with the name of the key, and the literal with the function as the same
function without a name.  Parameters and body are equal up to places. -/
theorem method_elsewhere {c' last : Cursor} (hroom : rulesPerPlace * c'.rest.length ≤ fuel)
    (hopen : c.Over ['\x7b'] m)
    (hkey : key.result (follow fuel) .free m.skipBlanks = .matched (.ok (.static x)) n)
    (htail : functionTail.result (follow fuel) .free n.skipBlanks = .matched (.ok tail) q)
    (hclose : q.skipBlanks.Over ['\x7d'] last)
    (htext : FunctionUnder (m.skipBlanks.textTo n) n.skipBlanks.rest c') :
    ∃ tail' p p' last',
      objectLiteral.result (follow fuel) .free c = .matched (.ok (.object
        [.keyed (.static x) (.mk (.function (tail.function (some x) p)) p)])) last ∧
      objectLiteral.result (follow fuel) .free c' = .matched (.ok (.object
        [.keyed (.static x) (.mk (.function (tail'.function none p')) p')])) last' ∧
      last'.rest = last.rest ∧ unplaced tail' = unplaced tail := by
  have hmethod := result_objectLiteral_method hopen hkey htail hclose
  have hK : m.skipBlanks.Over (m.skipBlanks.textTo n) n :=
    .of_le (le_of_matched (advancing_follow _) hkey)
  obtain ⟨Y, hparenthesis⟩ : ∃ Y, n.skipBlanks.rest = '(' :: Y := by
    simp only [functionTail, result_combine, result_seqLeft, result_seqRight,
      Outcome.andThen_eq_matched] at htail
    obtain ⟨_, _, ⟨_, _, ⟨_, k, htoken, -⟩, -⟩, -⟩ := htail
    exact ⟨k.rest, (over_of_token htoken).rest_eq⟩
  obtain ⟨m', n', k, d, hopen', hK', hcolon, hfunction, hrest⟩ := htext
  obtain ⟨a, A, hn, ha⟩ := head_mem_behindKey (by decide) hparenthesis
  obtain ⟨b, B, hn', hb⟩ := head_mem_behindKey (by decide) hcolon.rest_eq
  have hkey' := key_elsewhere ha hb hK hn hK' hn' hkey
  -- The value is read inside one more rule, and the text in front of it makes up for that.
  have hshort : d.skipBlanks.rest.length < c'.rest.length :=
    Cursor.length_rest_lt <| hopen'.lt.trans_le <| m'.le_skipBlanks.trans <| hK'.le.trans <|
      n'.le_skipBlanks.trans <| hcolon.le.trans <| k.le_skipBlanks.trans <|
      hfunction.le.trans d.le_skipBlanks
  obtain ⟨room, rfl, hroom'⟩ : ∃ room, fuel = room + 1 ∧
      rulesPerPlace * d.skipBlanks.rest.length ≤ room := by
    unfold rulesPerPlace at hroom ⊢
    exact ⟨fuel - 1, by omega, by omega⟩
  obtain ⟨tail', q', htail', hq', hunplaced⟩ := functionTail_elsewhere hroom' hrest htail
  have hbrace : q'.skipBlanks.rest = '\x7d' :: last.rest :=
    (Cursor.rest_skip .free hq').trans hclose.rest_eq
  have hvalue : (Form.rule .assignment : Phrase _).result (follow (room + 1)) .free k.skipBlanks =
      .matched (.ok (.mk (.function (tail'.function none k.skipBlanks.position))
        k.skipBlanks.position)) q'.skipBlanks :=
    (result_rule_succ .assignment .free).trans <|
      result_assignment_function hfunction (hrest.trans hparenthesis) htail' (hbrace ▸ .brace _)
  have hclose' : q'.skipBlanks.Over ['\x7d'] (q'.skipBlanks.advance 1) := .of_append hbrace
  have hkeyed := result_objectLiteral hopen' (property_of_keyed hkey' hcolon hvalue)
    (q'.isSolid_skipBlanks.skipBlanks_eq.symm ▸ hclose')
  refine ⟨tail', _, _, _, hmethod, hkeyed, ?_, hunplaced⟩
  rw [Cursor.rest_advance, q'.isSolid_skipBlanks.skipBlanks_eq, hbrace]
  rfl

end ScriptTrace.Syntax
