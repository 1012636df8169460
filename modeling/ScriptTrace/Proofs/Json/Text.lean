import Mathlib.Algebra.Group.Nat.Defs
import ScriptTrace.Machine.Props
import ScriptTrace.Proofs.Json.Number

/-!
# Proofs/Json/Text — documents are read as they were written

A document is written without loss if its numbers are integers of at most 53 bits and its members
stand in the order of properties (`Exact`).  The text of such a document, on one line or with an
indentation of blanks, is read as the same document.
-/

namespace ScriptTrace.Json

/-! ## Documents that a text can hold -/

mutual

/-- **Documents that are written without loss**: their numbers are integers of at most 53 bits, and
their members stand in the order of properties. -/
def Exact : Json → Prop
  | .null | .bool _ | .string _ => True
  | .integer n => n.natAbs < 2 ^ 53
  | .real _ => False
  | .array items => ExactItems items
  | .object members => ExactMembers members ∧ members.Pairwise fun m m' => Precedes m.1 m'.1

/-- All numbers in a list of documents are written exactly. -/
def ExactItems : List Json → Prop
  | [] => True
  | item :: items => Exact item ∧ ExactItems items

/-- All numbers in the members of an object are written exactly. -/
def ExactMembers : List (String × Json) → Prop
  | [] => True
  | member :: members => ExactMember member ∧ ExactMembers members

/-- All numbers in a member are written exactly. -/
def ExactMember : String × Json → Prop
  | (_, value) => Exact value

end

mutual

/-- The levels of lists and objects in a document. -/
def depth : Json → Nat
  | .array items => itemsDepth items + 1
  | .object members => membersDepth members + 1
  | _ => 0

/-- The levels of the deepest of some items. -/
def itemsDepth : List Json → Nat
  | [] => 0
  | item :: items => max (depth item) (itemsDepth items)

/-- The levels of the deepest of some members. -/
def membersDepth : List (String × Json) → Nat
  | [] => 0
  | member :: members => max (memberDepth member) (membersDepth members)

/-- The levels of the value of a member. -/
def memberDepth : String × Json → Nat
  | (_, value) => depth value

end

/-! ## Documents are read as they were written -/

/-- The gap in front of a member. -/
def innerGap : Option (String × String) → List Char
  | none => []
  | some (inner, _) => '\n' :: inner.toList

/-- The gap in front of a closing bracket. -/
def outerGap : Option (String × String) → List Char
  | none => []
  | some (_, outer) => '\n' :: outer.toList

/-- Texts with commas between them, as a reader meets them. -/
theorem intercalate_eq_listTail (w w' : List Char) (close : Char) (t : List Char)
    (ts : List (List Char)) :
    (',' :: w).intercalate (t :: ts) ++ (w' ++ [close]) = t ++ listTail w w' close ts := by
  induction ts generalizing t with
  | nil => rw [List.intercalate_singleton]; rfl
  | cons t' ts ih =>
    rw [List.intercalate_cons_cons, List.append_assoc, List.append_assoc, ih, listTail,
      List.cons_append, List.append_assoc]

/-- A bracket, the items and the closing bracket, as a reader meets them. -/
theorem toList_bracketed (opening closing : String) {close : Char}
    (hclose : closing.toList = [close]) (lines : Option (String × String)) (ts : List String) :
    (bracketed opening closing lines ts).toList = opening.toList ++
      listText (innerGap lines) (outerGap lines) close (ts.map String.toList) := by
  cases ts with
  | nil =>
    change (opening ++ closing).toList = _
    rw [String.toList_append, hclose]
    rfl
  | cons t ts =>
    cases lines with
    | none =>
      change (opening ++ ",".intercalate (t :: ts) ++ closing).toList = _
      have htail := intercalate_eq_listTail [] [] close t.toList (ts.map String.toList)
      rw [String.toList_append, String.toList_append, String.toList_intercalate, hclose,
        List.append_assoc]
      exact congrArg _ htail
    | some lines =>
      obtain ⟨inner, outer⟩ := lines
      change (opening ++ "\n" ++ inner ++ (",\n" ++ inner).intercalate (t :: ts) ++ "\n" ++ outer ++
        closing).toList = _
      have htail := intercalate_eq_listTail ('\n' :: inner.toList) ('\n' :: outer.toList) close
        t.toList (ts.map String.toList)
      simp only [String.toList_append, String.toList_intercalate, hclose, List.append_assoc]
      refine congrArg _ ?_
      rw [List.map_cons, listText, List.append_assoc]
      exact congrArg ('\n' :: inner.toList ++ ·) htail

/-- An indentation of white space only. -/
def Blank (indent : Option String) : Prop := ∀ s ∈ indent, ∀ c ∈ s.toList, isSpace c = true

section

variable {indent : Option String} {level levels : Nat}

/-- The margin of a line is space if the indentation is. -/
theorem isSpace_margin {s : String} (h : ∀ c ∈ s.toList, isSpace c = true) (n : Nat) :
    ∀ c ∈ (margin s n).toList, isSpace c = true := by
  induction n with
  | zero => exact List.forall_mem_nil _
  | succ n ih =>
    rw [margin, List.replicate_succ, String.join_cons, String.toList_append, List.forall_mem_append]
    exact ⟨h, ih⟩

/-- Between the items there is only space. -/
theorem isSpace_innerGap (h : Blank indent) (level : Nat) :
    ∀ c ∈ innerGap (linesAt indent level), isSpace c = true := by
  cases indent with
  | none => exact List.forall_mem_nil _
  | some s => exact List.forall_mem_cons.mpr ⟨rfl, isSpace_margin (h s rfl) _⟩

/-- Behind the last item there is only space. -/
theorem isSpace_outerGap (h : Blank indent) (level : Nat) :
    ∀ c ∈ outerGap (linesAt indent level), isSpace c = true := by
  cases indent with
  | none => exact List.forall_mem_nil _
  | some s => exact List.forall_mem_cons.mpr ⟨rfl, isSpace_margin (h s rfl) _⟩

/-- A quoted text is its escaped characters between two quotes. -/
theorem toList_quoted (s : String) :
    (quoted s).toList = '"' :: (s.toList.flatMap escapeChar ++ ['"']) := by
  simp only [quoted, String.toList_append, String.toList_ofList, List.append_assoc]
  rfl

theorem toList_natText (n : Nat) : (toString n).toList = Nat.toDigits 10 n := Nat.toList_repr

/-- The first character of a document is no white space and ends no list. -/
theorem opens_textAt (j : Json) :
    ∃ c cs, (textAt indent level j).toList = c :: cs ∧ isSpace c = false ∧ c ≠ ']' := by
  cases j with
  | null => exact ⟨'n', ['u', 'l', 'l'], by rw [textAt]; rfl, rfl, by decide⟩
  | bool b =>
    cases b with
    | false => exact ⟨'f', ['a', 'l', 's', 'e'], by rw [textAt]; rfl, rfl, by decide⟩
    | true => exact ⟨'t', ['r', 'u', 'e'], by rw [textAt]; rfl, rfl, by decide⟩
  | integer n => exact (isNumberText_toString n).starts
  | real x =>
    obtain hnumber | ⟨-, hnull⟩ := realText_eq x
    · exact hnumber.starts
    · exact ⟨'n', ['u', 'l', 'l'], by rw [textAt, hnull]; rfl, rfl, by decide⟩
  | string s => exact ⟨'"', _, toList_quoted s, rfl, by decide⟩
  | array items => exact ⟨'[', _, toList_bracketed "[" "]" rfl _ _, rfl, by decide⟩
  | object members => exact ⟨'\x7b', _, toList_bracketed "\x7b" "\x7d" rfl _ _, rfl, by decide⟩

/-- What `readValue` goes by: the first character behind white space. -/
theorem rest_skipSpace_textAt (j : Json) {w rest : List Char}
    (hw : ∀ c ∈ w, isSpace c = true) {i : Input}
    (hi : i.rest = w ++ (textAt indent level j).toList ++ rest) :
    i.skipSpace.rest = (textAt indent level j).toList ++ rest := by
  refine Input.rest_skipSpace hw ?_ (hi.trans (List.append_assoc ..))
  obtain ⟨c, cs, h, hspace, -⟩ := @opens_textAt indent level j
  rw [h]
  rintro _ ⟨⟩
  exact hspace

/-- A word is read as the document that it stands for. -/
theorem reads_readWord (value : Json) (ws : List Char) :
    Reads Anything (readWord value ws) ws value := by
  induction ws with
  | nil => exact fun i rest _ h => ⟨i, rfl, h⟩
  | cons c cs ih =>
    intro i rest _ h
    obtain ⟨i', h', hrest'⟩ := ih (i.drop 1) rest trivial (Input.rest_drop_one h)
    refine ⟨i', ?_, hrest'⟩
    unfold readWord
    rw [h]
    change (if c = c then _ else _ : Except ReadError (Json × Input)) = _
    rw [if_pos rfl, h']

/-- A word is read if it stands there. -/
theorem reads_word {value : Json} {c : Char} {ws rest : List Char} {i : Input}
    (hword : readValue levels i = readWord value ws (i.skipSpace.drop 1))
    (h : i.skipSpace.rest = c :: ws ++ rest) :
    ∃ i', readValue levels i = .ok (value, i') ∧ i'.rest = rest := by
  rw [hword]
  exact reads_readWord value ws _ rest trivial (Input.rest_drop_one h)

/-- A value that begins with a digit is a number. -/
theorem readValue_digit {i : Input} {c : Char} {cs : List Char} (h : i.skipSpace.rest = c :: cs)
    (hc : Number.isDigit c = true) : readValue levels i = readNumber false i.skipSpace := by
  unfold readValue
  dsimp only
  rw [h]
  split
  case h_9 heq =>
    obtain ⟨rfl, -⟩ := List.cons.inj heq
    rw [if_pos hc]
  all_goals
    rename_i heq
    first
    | contradiction
    | obtain ⟨rfl, -⟩ := List.cons.inj heq
      exact absurd hc (by decide)

/-- A value that begins with a bracket is a list, one level deeper. -/
theorem readValue_array {i : Input} {cs : List Char} (h : i.skipSpace.rest = '[' :: cs) :
    readValue (levels + 1) i =
      readItems (readValue levels) (cs.length + 1) true (i.skipSpace.drop 1) >>= fun p =>
        pure (.array p.1, p.2) := by
  unfold readValue
  dsimp only
  rw [h]
  rfl

/-- A value that begins with a brace is an object, one level deeper. -/
theorem readValue_object {i : Input} {cs : List Char} (h : i.skipSpace.rest = '\x7b' :: cs) :
    readValue (levels + 1) i =
      readMembers (readValue levels) (cs.length + 1) true (i.skipSpace.drop 1) >>= fun p =>
        pure (.object (mergeMembers p.1), p.2) := by
  unfold readValue
  dsimp only
  rw [h]
  rfl

/-- No list and no object is read where no level is left. -/
theorem readValue_zero_ne_ok {i : Input} {c : Char} {cs : List Char} {p : Json × Input}
    (hc : c = '[' ∨ c = '\x7b') (h : i.skipSpace.rest = c :: cs) : readValue 0 i ≠ .ok p := by
  unfold readValue
  dsimp only
  rw [h]
  rcases hc with rfl | rfl <;> rintro ⟨⟩

/-- **An integer is read as it was written.** -/
theorem reads_integer {n : Int} (hn : n.natAbs < 2 ^ 53) {i : Input} {rest : List Char}
    (hstops : Stops rest) (h : i.skipSpace.rest = (toString n).toList ++ rest) :
    ∃ i', readValue levels i = .ok (.integer n, i') ∧ i'.rest = rest := by
  have hmax : 2 ^ 53 ≤ maxSignificand := by decide
  cases n with
  | ofNat n =>
    have hread : Reads Stops (readNumber false) (Nat.toDigits 10 n) (.integer n) :=
      reads_readNumber (Nat.le_trans (Nat.le_of_lt hn) hmax) fun _ => rfl
    have hdigits : (toString (Int.ofNat n)).toList = Nat.toDigits 10 n := toList_natText n
    rw [hdigits] at h
    obtain ⟨c, cs, hcs⟩ := List.exists_cons_of_ne_nil (@Nat.toDigits_ne_nil n 10)
    have hc : Number.isDigit c = true := isDigit_toDigits (n := n) (hcs ▸ List.mem_cons_self)
    rw [readValue_digit (h.trans (by rw [hcs]; rfl)) hc]
    exact hread _ rest hstops h
  | negSucc n =>
    have hread :
        Reads Stops (readNumber true) (Nat.toDigits 10 (n + 1)) (.integer (.negSucc n)) := by
      refine reads_readNumber (Nat.le_trans (Nat.le_of_lt hn) hmax) fun i => ?_
      have hbig : ¬ (n + 1 = 0 ∨ n + 1 > 1 <<< 63) := by
        have : n + 1 < 2 ^ 53 := hn
        omega
      rw [if_neg (by decide), if_neg hbig]
      rfl
    have hdigits : (toString (Int.negSucc n)).toList = '-' :: Nat.toDigits 10 (n + 1) := by
      change ("-" ++ toString (n + 1)).toList = _
      rw [String.toList_append, toList_natText]
      rfl
    rw [hdigits] at h
    have hminus : readValue levels i = readNumber true (i.skipSpace.drop 1) := by
      unfold readValue
      dsimp only
      rw [h]
      rfl
    rw [hminus]
    exact hread _ rest hstops (Input.rest_drop_one h)

/-- A member is its key in quotes, a colon and its value. -/
theorem toList_memberText (indent : Option String) (level : Nat) (m : String × Json) :
    (memberText indent level m).toList =
      '"' :: (m.1.toList.flatMap escapeChar ++ ['"'] ++
        (':' :: ((if indent.isSome then [' '] else []) ++ (textAt indent level m.2).toList))) := by
  obtain ⟨k, j⟩ := m
  rw [memberText, String.toList_append, String.toList_append, toList_quoted]
  cases indent <;> simp

/-- A member begins with the quote of its key. -/
theorem opens_memberText (m : String × Json) : ∃ c cs, (memberText indent level m).toList = c :: cs ∧
    isSpace c = false ∧ c = '"' := ⟨'"', _, toList_memberText indent level m, rfl, rfl⟩

/-- **The key of a member is read as it was written**; its value is read next. -/
theorem readMember_memberText (value : Reader Json) (m : String × Json) {i : Input}
    {rest : List Char} (hi : i.rest = (memberText indent level m).toList ++ rest) :
    ∃ i', i'.rest = (if indent.isSome then [' '] else []) ++
      (textAt indent level m.2).toList ++ rest ∧
      readMember value i = value i' >>= fun p => pure ((m.1, p.1), p.2) := by
  rw [toList_memberText] at hi
  obtain ⟨i₁, h₁, hrest₁⟩ := reads_readString m.1 _ _ trivial
    ((Input.rest_drop_one hi).trans (List.append_assoc ..))
  have hcolon : i₁.skipSpace.rest = ':' :: _ :=
    Input.rest_skipSpace_solid (by rintro _ ⟨⟩; rfl) hrest₁
  have h₂ : readColon i₁ = .ok ((), i₁.skipSpace.drop 1) := by
    unfold readColon
    dsimp only
    rw [hcolon]
    rfl
  refine ⟨i₁.skipSpace.drop 1, Input.rest_drop_one hcolon, ?_⟩
  unfold readMember
  rw [h₁]
  change (readColon i₁ >>= _) = _
  rw [h₂]
  rfl

/-- **A member is read as it was written.** -/
theorem memberText_reads {value : Reader Json} {m : String × Json}
    (h : Reads Stops value ((if indent.isSome then [' '] else []) ++
      (textAt indent level m.2).toList) m.2) :
    MemberText (· = '"') (readMember value) (memberText indent level m).toList m := by
  refine ⟨opens_memberText m, fun i rest hstops hi => ?_⟩
  obtain ⟨i', hi', hread⟩ := readMember_memberText value m hi
  obtain ⟨i₃, h₃, hrest₃⟩ := h i' rest hstops hi'
  refine ⟨i₃, ?_, hrest₃⟩
  rw [hread, h₃]
  rfl

/-- Members with different keys are kept as they are. -/
theorem mergeMembers_eq {ms : List (String × Json)} (h : ms.Pairwise fun m m' => m.1 ≠ m'.1) :
    mergeMembers ms = ms := by
  have hfold : ∀ (ms acc : List (String × Json)), (acc ++ ms).Pairwise (fun m m' => m.1 ≠ m'.1) →
      ms.foldl (fun acc (k, j) =>
        if acc.any (·.1 = k) then acc.map fun m => if m.1 = k then (k, j) else m
        else acc ++ [(k, j)]) acc = acc ++ ms := by
    intro ms
    induction ms with
    | nil => exact fun acc _ => (List.append_nil acc).symm
    | cons m ms ih =>
      intro acc h
      have hnew : acc.any (·.1 = m.1) = false := by
        refine List.any_eq_false.mpr fun m' hm' heq => ?_
        exact (List.pairwise_append.mp h).2.2 m' hm' m List.mem_cons_self (of_decide_eq_true heq)
      rw [List.foldl_cons]
      dsimp only
      rw [hnew, if_neg Bool.false_ne_true, ih _ (by rwa [List.append_assoc]), List.append_assoc]
      rfl
  exact hfold ms [] h

/-- Entries that correspond have the same keys. -/
theorem keys_eq_of_forall₂ {α β : Type} {R : String × α → String × β → Prop}
    {es : List (String × α)} {fs : List (String × β)} (h : List.Forall₂ R es fs)
    (hR : ∀ e f, R e f → f.1 = e.1) : fs.map Prod.fst = es.map Prod.fst := by
  induction h with
  | nil => rfl
  | cons he _ ih => rw [List.map_cons, List.map_cons, hR _ _ he, ih]

/-- A key does not come before itself. -/
theorem ne_of_precedes {k l : String} (h : Precedes k l) : k ≠ l := by
  rintro rfl
  unfold Precedes at h
  split at h
  · rename_i hi hj
    rw [hi] at hj
    cases hj
    exact Nat.lt_irrefl _ h
  · rename_i hi hj
    rw [hi] at hj
    cases hj
  · exact h
  · exact h rfl

mutual

/-- **Every document without loss is read as it was written**, behind white space too. -/
theorem reads_textAt (hindent : Blank indent) : ∀ (j : Json) (level levels : Nat) (w : List Char),
    (∀ c ∈ w, isSpace c = true) → j.Exact → j.depth ≤ levels →
      Reads Stops (readValue levels) (w ++ (textAt indent level j).toList) j
  | .null, level, levels, w, hw, hj, _ => by
    intro i rest _ h
    have hnext := rest_skipSpace_textAt _ hw h
    rw [textAt] at hnext
    refine @reads_word _ _ 'n' ['u', 'l', 'l'] _ _ ?_ hnext
    unfold readValue
    dsimp only
    rw [hnext]
    rfl
  | .bool true, level, levels, w, hw, hj, _ => by
    intro i rest _ h
    have hnext := rest_skipSpace_textAt _ hw h
    rw [textAt, if_pos rfl] at hnext
    refine @reads_word _ _ 't' ['r', 'u', 'e'] _ _ ?_ hnext
    unfold readValue
    dsimp only
    rw [hnext]
    rfl
  | .bool false, level, levels, w, hw, hj, _ => by
    intro i rest _ h
    have hnext := rest_skipSpace_textAt _ hw h
    rw [textAt, if_neg Bool.false_ne_true] at hnext
    refine @reads_word _ _ 'f' ['a', 'l', 's', 'e'] _ _ ?_ hnext
    unfold readValue
    dsimp only
    rw [hnext]
    rfl
  | .integer n, level, levels, w, hw, hj, _ => fun i rest hstops h =>
    reads_integer hj hstops (rest_skipSpace_textAt _ hw h)
  | .real x, _, _, _, _, hj, _ => hj.elim
  | .string s, level, levels, w, hw, hj, _ => by
    intro i rest _ h
    have hnext := rest_skipSpace_textAt _ hw h
    rw [textAt, toList_quoted] at hnext
    obtain ⟨i', h', hrest'⟩ := reads_readString s _ rest trivial (Input.rest_drop_one hnext)
    refine ⟨i', ?_, hrest'⟩
    unfold readValue
    dsimp only
    rw [hnext]
    change (readString (i.skipSpace.drop 1) >>= _) = _
    rw [h']
    rfl
  | .array items, level, 0, w, hw, hj, hdepth => absurd hdepth (Nat.not_succ_le_zero _)
  | .array items, level, levels + 1, w, hw, hj, hdepth => by
    intro i rest _ h
    have hitems := itemTexts_reads hindent items (level + 1) levels hj
      (Nat.le_of_succ_le_succ hdepth)
    have hnext := rest_skipSpace_textAt _ hw h
    rw [textAt, @toList_bracketed "[" "]" ']' rfl] at hnext
    obtain ⟨i', h', hrest'⟩ := (readsMembers_readItems (readValue levels)).reads_whole
      (isSpace_innerGap hindent level) (isSpace_outerGap hindent level) hitems
      (Input.rest_drop_one hnext)
    refine ⟨i', ?_, hrest'⟩
    rw [Input.rest_drop_one hnext] at h'
    rw [readValue_array hnext]
    exact congrArg (· >>= _) h'
  | .object members, level, 0, w, hw, hj, hdepth => absurd hdepth (Nat.not_succ_le_zero _)
  | .object members, level, levels + 1, w, hw, hj, hdepth => by
    intro i rest _ h
    have hmembers := memberTexts_reads hindent members (level + 1) levels hj.1
      (Nat.le_of_succ_le_succ hdepth)
    have hnext := rest_skipSpace_textAt _ hw h
    rw [textAt, @toList_bracketed "\x7b" "\x7d" '\x7d' rfl] at hnext
    obtain ⟨i', h', hrest'⟩ := (readsMembers_readMembers (readValue levels)).reads_whole
      (isSpace_innerGap hindent level) (isSpace_outerGap hindent level) hmembers
      (Input.rest_drop_one hnext)
    refine ⟨i', ?_, hrest'⟩
    rw [Input.rest_drop_one hnext] at h'
    rw [readValue_object hnext, h']
    change Except.ok (Json.object (mergeMembers members), i') = _
    rw [mergeMembers_eq (hj.2.imp ne_of_precedes)]

/-- The items of a list are read back. -/
theorem itemTexts_reads (hindent : Blank indent) : ∀ (js : List Json) (level levels : Nat),
    ExactItems js → itemsDepth js ≤ levels →
      List.Forall₂ (MemberText (· ≠ ']') (readValue levels))
        ((itemTexts indent level js).map String.toList) js
  | [], _, _, _, _ => .nil
  | j :: js, level, levels, hj, hdepth =>
    .cons ⟨opens_textAt j, reads_textAt hindent j level levels [] (List.forall_mem_nil _) hj.1
      (Nat.le_trans (Nat.le_max_left ..) hdepth)⟩
      (itemTexts_reads hindent js level levels hj.2 (Nat.le_trans (Nat.le_max_right ..) hdepth))

/-- The members of an object are read back, each under its key. -/
theorem memberTexts_reads (hindent : Blank indent) :
    ∀ (ms : List (String × Json)) (level levels : Nat), ExactMembers ms → membersDepth ms ≤ levels →
      List.Forall₂ (MemberText (· = '"') (readMember (readValue levels)))
        ((memberTexts indent level ms).map String.toList) ms
  | [], _, _, _, _ => .nil
  | (k, j) :: ms, level, levels, hj, hdepth =>
    .cons (memberText_reads (reads_textAt hindent j level levels _
      (by split <;> simp [isSpace]) hj.1 (Nat.le_trans (Nat.le_max_left ..) hdepth)))
      (memberTexts_reads hindent ms level levels hj.2 (Nat.le_trans (Nat.le_max_right ..) hdepth))

end

/-- **A document without loss is read from its text**, on one line or with an indentation. -/
theorem read_textAt (hindent : Blank indent) {j : Json} (hj : j.Exact)
    (hdepth : j.depth ≤ maxDepth) :
    read (textAt indent 0 j) = .ok j := by
  obtain ⟨i, h, hrest⟩ := reads_textAt hindent j 0 maxDepth [] (List.forall_mem_nil _) hj hdepth
    (.ofString (textAt indent 0 j)) [] nofun (List.append_nil _).symm
  have hend : i.skipSpace.rest = [] := Input.rest_skipSpace_solid nofun hrest
  unfold read
  rw [h]
  change (if i.skipSpace.rest.isEmpty then _ else _ : Except ReadError Json) = _
  rw [hend]
  rfl

end

end ScriptTrace.Json
