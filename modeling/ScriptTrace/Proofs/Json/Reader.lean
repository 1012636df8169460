import Mathlib.Data.List.Basic
import ScriptTrace.Json.Reader
import ScriptTrace.Number.Index

/-!
# Proofs/Json/Reader — what readers of documents read

A reader reads a text as a value if, whatever stands behind the text, it gives the value and leaves
what stands behind (`Reads`).  Only numbers ask what comes next: more digits, a point or an exponent
would be read with them (`Stops`).  Strings are read as they were quoted, counts from their digits,
and members one after the other between gaps and commas, in lists as in objects (`ReadsMembers`).
-/

namespace ScriptTrace.Json

/-! ## Inputs -/

namespace Input

variable {i : Input}

/-- What is left behind some characters. -/
theorem rest_drop (i : Input) (n : Nat) : (i.drop n).rest = i.rest.drop n := by
  induction n generalizing i with
  | zero => rfl
  | succ n ih =>
    unfold Input.drop
    split
    · rename_i h
      rw [h, List.drop_nil]
    · rename_i h
      rw [ih, h, List.drop_succ_cons]

theorem rest_drop_append {t rest : List Char} (h : i.rest = t ++ rest) :
    (i.drop t.length).rest = rest := by
  rw [rest_drop, h, List.drop_left]

/-- Behind the first character is the rest. -/
theorem rest_drop_one {c : Char} {rest : List Char} (h : i.rest = c :: rest) :
    (i.drop 1).rest = rest := by
  rw [rest_drop, h]
  rfl

end Input

/-- White space between the parts of a document. -/
def isSpace (c : Char) : Bool := c = ' ' || c = '\n' || c = '\t' || c = '\r'

/-- A text that does not begin with white space. -/
def Solid (t : List Char) : Prop := ∀ c ∈ t.head?, isSpace c = false

/-- Space is skipped up to the first solid character. -/
theorem Input.rest_skipSpace {i : Input} {w t : List Char} (hw : ∀ c ∈ w, isSpace c = true)
    (ht : Solid t) (h : i.rest = w ++ t) : i.skipSpace.rest = t := by
  have htake : (w ++ t).takeWhile isSpace = w := by
    rw [List.takeWhile_append_of_pos hw]
    cases t with
    | nil => exact List.append_nil w
    | cons c cs => rw [List.takeWhile_cons_of_neg (by rw [ht c rfl]; exact Bool.false_ne_true),
        List.append_nil]
  change (i.drop (i.rest.takeWhile isSpace).length).rest = t
  rw [h, htake]
  exact Input.rest_drop_append h

theorem Input.rest_skipSpace_solid {i : Input} {t : List Char} (ht : Solid t) (h : i.rest = t) :
    i.skipSpace.rest = t := Input.rest_skipSpace (List.forall_mem_nil _) ht h

/-! ## Reading back -/

/-- **A reader reads a text as a value** and leaves what stands behind it, if that is as it must
be. -/
def Reads {α : Type} (Behind : List Char → Prop) (r : Reader α) (t : List Char) (a : α) : Prop :=
  ∀ (i : Input) (rest : List Char), Behind rest → i.rest = t ++ rest →
    ∃ i', r i = .ok (a, i') ∧ i'.rest = rest

/-- Whatever stands behind a text. -/
def Anything (_ : List Char) : Prop := True

/-- What a number does not go on with. -/
def Stops (rest : List Char) : Prop :=
  ∀ c ∈ rest.head?, Number.isDigit c = false ∧ c ≠ '.' ∧ c ≠ 'e' ∧ c ≠ 'E'

/-! ## Strings -/

/-- The digits of a control character in an escape. -/
theorem natOfBase?_hexDigits : ∀ n < 32,
    Number.natOfBase? 16 ['0', '0', hexDigit (n / 16), hexDigit (n % 16)] = some n := by
  decide

/-- A control character is read from its four digits. -/
theorem reads_readUnicode {c : Char} (hc : c.toNat < 32) :
    Reads Anything readUnicode ['0', '0', hexDigit (c.toNat / 16), hexDigit (c.toNat % 16)] c := by
  intro i rest _ h
  have hhex : readHex i = .ok (c.toNat, i.drop 4) := by
    simp only [readHex, h, List.cons_append, natOfBase?_hexDigits _ hc]
  have htrailing : isTrailingSurrogate c.toNat = false := by
    rw [isTrailingSurrogate, decide_eq_false (by omega), Bool.false_and]
  have hleading : isLeadingSurrogate c.toNat = false := by
    rw [isLeadingSurrogate, decide_eq_false (by omega), Bool.false_and]
  refine ⟨i.drop 4, ?_, Input.rest_drop_append h⟩
  unfold readUnicode
  rw [hhex]
  change (if isTrailingSurrogate c.toNat then _ else if isLeadingSurrogate c.toNat then _ else
    Except.ok (Char.ofNat c.toNat, i.drop 4)) = _
  rw [htrailing, hleading, Char.ofNat_toNat]
  rfl

/-- **A character stands for itself, or for what its escape is read as.** -/
theorem escapeChar_cases (c : Char) :
    (∃ e, escapeChar c = '\\' :: e ∧ Reads Anything readEscape e c) ∨
      (escapeChar c = [c] ∧ c ≠ '"' ∧ c ≠ '\\' ∧ 32 ≤ c.toNat) := by
  unfold escapeChar
  split
  case h_8 hquote hslash _ _ _ _ _ =>
    split
    · rename_i hc
      refine .inl ⟨_, rfl, fun i rest _ h => ?_⟩
      have hread : readEscape i = readUnicode (i.drop 1) := by
        unfold readEscape
        rw [h]
        rfl
      rw [hread]
      exact reads_readUnicode hc _ _ trivial (Input.rest_drop_one h)
    · exact .inr ⟨rfl, hquote, hslash, by omega⟩
  all_goals
    refine .inl ⟨_, rfl, fun i rest _ h => ⟨i.drop 1, ?_, Input.rest_drop_one h⟩⟩
    unfold readEscape
    rw [h]
    rfl

/-- **An escaped text is read back**, up to the quote that ends it. -/
theorem reads_readStringWithin {cs : List Char} {fuel : Nat} (hfuel : cs.length < fuel) :
    Reads Anything (readStringWithin fuel) (cs.flatMap escapeChar ++ ['"']) cs := by
  induction cs generalizing fuel with
  | nil =>
    intro i rest _ h
    cases fuel with
    | zero => cases hfuel
    | succ fuel =>
      refine ⟨i.drop 1, ?_, Input.rest_drop_one h⟩
      unfold readStringWithin
      rw [h]
      rfl
  | cons c cs ih =>
    intro i rest _ h
    cases fuel with
    | zero => cases hfuel
    | succ fuel =>
      have hmore := ih (Nat.lt_of_succ_lt_succ hfuel)
      rw [List.flatMap_cons, List.append_assoc, List.append_assoc] at h
      obtain ⟨e, he, hescape⟩ | ⟨he, hquote, hslash, hc⟩ := escapeChar_cases c
      · rw [he] at h
        obtain ⟨i₁, h₁, hrest₁⟩ := hescape _ _ trivial (Input.rest_drop_one h)
        obtain ⟨i₂, h₂, hrest₂⟩ := hmore i₁ rest trivial (hrest₁.trans (List.append_assoc ..).symm)
        refine ⟨i₂, ?_, hrest₂⟩
        unfold readStringWithin
        rw [h]
        change (readEscape (i.drop 1) >>= fun p => readStringWithin fuel p.2 >>= fun q =>
          pure (p.1 :: q.1, q.2)) = _
        rw [h₁]
        change (readStringWithin fuel i₁ >>= fun q => pure (c :: q.1, q.2)) = _
        rw [h₂]
        rfl
      · rw [he] at h
        obtain ⟨i₂, h₂, hrest₂⟩ := hmore (i.drop 1) rest trivial
          (by rw [List.append_assoc]; exact Input.rest_drop_one h)
        refine ⟨i₂, ?_, hrest₂⟩
        unfold readStringWithin
        rw [h]
        dsimp only [List.cons_append]
        split
        · contradiction
        · rename_i heq
          exact absurd (List.cons.inj heq).1 hquote
        · rename_i heq
          exact absurd (List.cons.inj heq).1 hslash
        · rename_i heq
          obtain ⟨rfl, -⟩ := List.cons.inj heq
          rw [if_neg (by omega), h₂]
          rfl

/-- **A quoted text is read as the text**, behind its opening quote. -/
theorem reads_readString (s : String) :
    Reads Anything readString (s.toList.flatMap escapeChar ++ ['"']) s := by
  intro i rest _ h
  have hlen : ∀ cs : List Char, cs.length ≤ (cs.flatMap escapeChar).length := by
    intro cs
    induction cs with
    | nil => exact Nat.le_refl 0
    | cons c cs ih =>
      have hone : 0 < (escapeChar c).length := by
        obtain ⟨e, he, -⟩ | ⟨he, -⟩ := escapeChar_cases c <;> rw [he] <;> exact Nat.succ_pos _
      rw [List.flatMap_cons, List.length_append, List.length_cons]
      omega
  have hfuel : s.toList.length < i.rest.length + 1 := by
    have := hlen s.toList
    rw [h, List.length_append, List.length_append]
    omega
  obtain ⟨i', h', hrest'⟩ := reads_readStringWithin hfuel i rest trivial h
  refine ⟨i', ?_, hrest'⟩
  unfold readString
  rw [h']
  change Except.ok (String.ofList s.toList, i') = _
  rw [String.ofList_toList]

/-! ## Numbers -/

theorem isDigit_toDigits {n : Nat} {c : Char} (h : c ∈ Nat.toDigits 10 n) :
    Number.isDigit c = true := by
  have hdigit : c.isDigit = true := Nat.isDigit_of_mem_toDigits (by decide) (by decide) h
  rw [Char.isDigit, Bool.and_eq_true, decide_eq_true_iff, decide_eq_true_iff] at hdigit
  exact Number.isDigit_iff.mpr hdigit

/-- The digits of a count do not begin with a zero, unless that is all. -/
theorem toDigits_head {n : Nat} (hn : 0 < n) : (Nat.toDigits 10 n).head? ≠ some '0' := by
  induction n using Nat.strongRecOn with
  | ind n ih =>
    by_cases hsmall : n < 10
    · rw [Nat.toDigits_of_lt_base hsmall]
      have hdigit : ∀ n < 10, 0 < n → (n.digitChar ≠ '0') := by decide
      exact fun h => hdigit n hsmall hn (Option.some.inj h)
    · have hpos : 0 < n / 10 := by omega
      rw [Nat.toDigits_of_base_le (by decide) (by omega), List.head?_append]
      have hrest := ih (n / 10) (by omega) hpos
      cases hhead : (Nat.toDigits 10 (n / 10)).head? with
      | none => exact absurd (List.head?_eq_none_iff.mp hhead) Nat.toDigits_ne_nil
      | some c =>
        rw [hhead] at hrest
        exact hrest

/-- Digits are all taken as long as the count that they write fits. -/
theorem takeDigits_eq {ds : List Char} {n : Nat}
    (h : ds.foldl (fun n d => 10 * n + (d.toNat - 48)) n ≤ maxSignificand) :
    takeDigits n ds = (ds.foldl (fun n d => 10 * n + (d.toNat - 48)) n, ds.length) := by
  have hle : ∀ (ds : List Char) (n : Nat),
      n ≤ ds.foldl (fun n d => 10 * n + (d.toNat - 48)) n := by
    intro ds
    induction ds with
    | nil => exact fun n => Nat.le_refl n
    | cons d ds ih =>
      intro n
      refine Nat.le_trans (show n ≤ 10 * n + (d.toNat - 48) from ?_) (ih _)
      omega
  induction ds generalizing n with
  | nil => rfl
  | cons d ds ih =>
    rw [List.foldl_cons] at h
    have hfits : ¬ 10 * n + (d.toNat - 48) > maxSignificand :=
      Nat.not_lt_of_le (Nat.le_trans (hle ds _) h)
    unfold takeDigits
    dsimp only
    rw [if_neg hfits, ih h]
    rfl

/-- The digits of a number that is not too large are all taken. -/
theorem takeDigits_toDigits {n : Nat} (h : n ≤ maxSignificand) :
    takeDigits 0 (Nat.toDigits 10 n) = (n, (Nat.toDigits 10 n).length) := by
  have hvalue : (Nat.toDigits 10 n).foldl (fun n d => 10 * n + (d.toNat - 48)) 0 = n :=
    Nat.ofDigitChars_ten_toDigits
  rw [takeDigits_eq (by rw [hvalue]; exact h), hvalue]

/-- What `readNumber` makes of the digits of a count, if they stop. -/
theorem reads_readNumber {negative : Bool} {n : Nat} {j : Json} (hn : n ≤ maxSignificand)
    (hj : ∀ i : Input, (if !negative then Except.ok (Json.integer n, i)
      else if n = 0 ∨ n > 1 <<< 63 then .ok (.real (-Float.ofNat n), i)
      else .ok (.integer (-n), i) : Except ReadError (Json × Input)) = .ok (j, i)) :
    Reads Stops (readNumber negative) (Nat.toDigits 10 n) j := by
  intro i rest hstops h
  refine ⟨i.drop (Nat.toDigits 10 n).length, ?_, Input.rest_drop_append h⟩
  have hdigits : digitsHere i = Nat.toDigits 10 n := by
    unfold digitsHere
    rw [h, List.takeWhile_append_of_pos fun _ => isDigit_toDigits]
    cases rest with
    | nil => exact List.append_nil _
    | cons c cs =>
      rw [List.takeWhile_cons_of_neg (by rw [(hstops c rfl).1]; exact Bool.false_ne_true),
        List.append_nil]
  have hlone : ∀ d ds, Nat.toDigits 10 n ≠ '0' :: d :: ds := by
    intro d ds heq
    obtain rfl | hpos := Nat.eq_zero_or_pos n
    · cases heq
    · exact toDigits_head hpos (by rw [heq]; rfl)
  unfold readNumber
  dsimp only
  rw [hdigits]
  split
  · rename_i heq
    exact absurd heq Nat.toDigits_ne_nil
  · rename_i heq
    exact absurd heq (hlone _ _)
  · rw [takeDigits_toDigits hn]
    have hrest := Input.rest_drop_append h
    dsimp only
    split
    · rename_i heq
      exact absurd rfl (hstops '.' (by rw [← hrest, heq]; rfl)).2.1
    · rename_i heq
      exact absurd rfl (hstops 'e' (by rw [← hrest, heq]; rfl)).2.2.1
    · rename_i heq
      exact absurd rfl (hstops 'E' (by rw [← hrest, heq]; rfl)).2.2.2
    · rw [if_neg (by omega)]
      exact hj _

/-! ## Lists and objects -/

/-- The inside of a list or an object behind its first member: every other one behind a comma and
the gap `w`, and the closing bracket behind the gap `w'`. -/
def listTail (w w' : List Char) (close : Char) : List (List Char) → List Char
  | [] => w' ++ [close]
  | t :: ts => ',' :: (w ++ t ++ listTail w w' close ts)

/-- The inside of a list or an object and its closing bracket. -/
def listText (w w' : List Char) (close : Char) : List (List Char) → List Char
  | [] => [close]
  | t :: ts => w ++ t ++ listTail w w' close ts

/-- A number stops before a mark or a space. -/
theorem stops_of_mark {c : Char} {cs : List Char}
    (hc : c = ',' ∨ c = ']' ∨ c = '\x7d' ∨ isSpace c = true) : Stops (c :: cs) := by
  rintro _ ⟨⟩
  have hspaces : isSpace c = true → c = ' ' ∨ c = '\n' ∨ c = '\t' ∨ c = '\r' := by
    intro h
    simpa [isSpace, or_assoc] using h
  have hall : c = ',' ∨ c = ']' ∨ c = '\x7d' ∨ c = ' ' ∨ c = '\n' ∨ c = '\t' ∨ c = '\r' :=
    hc.imp_right (.imp_right (.imp_right hspaces))
  rcases hall with rfl | rfl | rfl | rfl | rfl | rfl | rfl <;> decide

section

variable {w w' : List Char} {close : Char} {ts : List (List Char)}

/-- A number stops before what is left of a list. -/
theorem stops_listTail (hw' : ∀ c ∈ w', isSpace c = true) (hclose : close = ']' ∨ close = '\x7d')
    (rest : List Char) : Stops (listTail w w' close ts ++ rest) := by
  cases ts with
  | cons t ts => exact stops_of_mark (.inl rfl)
  | nil =>
    cases w' with
    | nil => exact stops_of_mark (.inr (hclose.imp_right .inl))
    | cons c w' => exact stops_of_mark (.inr (.inr (.inr (hw' c List.mem_cons_self))))

end

/-- No list has more members than characters. -/
theorem length_lt_listText {w w' : List Char} {close : Char} (ts : List (List Char)) :
    ts.length < (listText w w' close ts).length + 1 := by
  have htail : ∀ ts : List (List Char), ts.length < (listTail w w' close ts).length := by
    intro ts
    induction ts with
    | nil => simp [listTail]
    | cons t ts ih =>
      simp only [listTail, List.length_cons, List.length_append]
      omega
  cases ts with
  | nil => simp [listText]
  | cons t ts =>
    have := htail ts
    simp only [listText, List.length_cons, List.length_append]
    omega

/-- Reads a member, and the members behind it. -/
def readCons {α : Type} (head : Reader α) (tail : Reader (List α)) : Reader (List α) := fun i =>
  head i >>= fun p => tail p.2 >>= fun q => pure (p.1 :: q.1, q.2)

/-- One more item before the others is read before them. -/
theorem Reads.cons {α : Type} {head : Reader α} {tail : Reader (List α)} {t t' : List Char} {a : α}
    {as : List α} (hhead : Reads Stops head t a) (htail : Reads Anything tail t' as)
    (hstops : ∀ rest, Stops (t' ++ rest)) :
    Reads Anything (readCons head tail) (t ++ t') (a :: as) := by
  intro i rest _ h
  obtain ⟨i₁, h₁, hrest₁⟩ := hhead i _ (hstops rest) (h.trans (List.append_assoc ..))
  obtain ⟨i₂, h₂, hrest₂⟩ := htail i₁ rest trivial hrest₁
  refine ⟨i₂, ?_, hrest₂⟩
  unfold readCons
  rw [h₁]
  change (tail i₁ >>= _) = _
  rw [h₂]
  rfl

/-- **A reader of members** between gaps and commas, up to a closing bracket: what it does at the
bracket, at the first member and at a comma. -/
structure ReadsMembers {α : Type} (close : Char) (Starts : Char → Prop) (member : Reader α)
    (readers : Nat → Bool → Reader (List α)) : Prop where
  mark : close = ']' ∨ close = '\x7d'
  last {fuel : Nat} {first : Bool} {i : Input} {cs : List Char} :
    i.skipSpace.rest = close :: cs → readers (fuel + 1) first i = .ok ([], i.skipSpace.drop 1)
  first {fuel : Nat} {i : Input} {c : Char} {cs : List Char} :
    i.skipSpace.rest = c :: cs → Starts c →
      readers (fuel + 1) true i = readCons member (readers fuel false) i.skipSpace
  next {fuel : Nat} {i : Input} {c : Char} {cs ds : List Char} :
    i.skipSpace.rest = ',' :: ds → (i.skipSpace.drop 1).skipSpace.rest = c :: cs → Starts c →
      readers (fuel + 1) false i =
        readCons member (readers fuel false) (i.skipSpace.drop 1).skipSpace

/-- A text that a reader reads as a member, wherever members may stand. -/
structure MemberText {α : Type} (Starts : Char → Prop) (member : Reader α) (t : List Char) (a : α) :
    Prop where
  opens : ∃ c cs, t = c :: cs ∧ isSpace c = false ∧ Starts c
  reads : Reads Stops member t a

namespace ReadsMembers

variable {α : Type} {close : Char} {Starts : Char → Prop} {member : Reader α}
  {readers : Nat → Bool → Reader (List α)} {w w' : List Char} {ts : List (List Char)} {as : List α}

theorem solid_close (hR : ReadsMembers close Starts member readers) (rest : List Char) :
    Solid (close :: rest) := by
  rintro _ ⟨⟩
  obtain h | h := hR.mark <;> rw [h] <;> rfl

/-- At a closing bracket there are no more members. -/
theorem exists_last (hR : ReadsMembers close Starts member readers)
    (hw' : ∀ c ∈ w', isSpace c = true) {fuel : Nat} {first : Bool} {i : Input} {rest : List Char}
    (hi : i.rest = w' ++ close :: rest) :
    ∃ i', readers (fuel + 1) first i = .ok ([], i') ∧ i'.rest = rest := by
  have hclose : i.skipSpace.rest = close :: rest :=
    Input.rest_skipSpace hw' (hR.solid_close rest) hi
  exact ⟨i.skipSpace.drop 1, hR.last hclose, Input.rest_drop_one hclose⟩

/-- The first member is read behind its gap. -/
theorem exists_first (hR : ReadsMembers close Starts member readers)
    (hw : ∀ c ∈ w, isSpace c = true) {t : List Char}
    (hopens : ∃ c cs, t = c :: cs ∧ isSpace c = false ∧ Starts c) {fuel : Nat} {i : Input}
    {rest : List Char} (hi : i.rest = listText w w' close (t :: ts) ++ rest) :
    ∃ i', readers (fuel + 1) true i = readCons member (readers fuel false) i' ∧
      i'.rest = t ++ listTail w w' close ts ++ rest := by
  obtain ⟨c, cs, rfl, hspace, hstarts⟩ := hopens
  have hnext : i.skipSpace.rest = c :: cs ++ listTail w w' close ts ++ rest := by
    refine Input.rest_skipSpace hw (by rintro _ ⟨⟩; exact hspace) ?_
    rw [hi, listText, List.append_assoc, List.append_assoc, List.append_assoc]
  exact ⟨_, hR.first hnext hstarts, hnext⟩

/-- Every other member is read behind a comma and its gap. -/
theorem exists_next (hR : ReadsMembers close Starts member readers)
    (hw : ∀ c ∈ w, isSpace c = true) {t : List Char}
    (hopens : ∃ c cs, t = c :: cs ∧ isSpace c = false ∧ Starts c) {fuel : Nat} {i : Input}
    {rest : List Char} (hi : i.rest = listTail w w' close (t :: ts) ++ rest) :
    ∃ i', readers (fuel + 1) false i = readCons member (readers fuel false) i' ∧
      i'.rest = t ++ listTail w w' close ts ++ rest := by
  obtain ⟨c, cs, rfl, hspace, hstarts⟩ := hopens
  have hcomma : i.skipSpace.rest = ',' :: (w ++ c :: cs ++ listTail w w' close ts ++ rest) :=
    Input.rest_skipSpace_solid (by rintro _ ⟨⟩; rfl) hi
  have hnext : (i.skipSpace.drop 1).skipSpace.rest = c :: cs ++ listTail w w' close ts ++ rest := by
    refine Input.rest_skipSpace hw (by rintro _ ⟨⟩; exact hspace) ?_
    rw [Input.rest_drop_one hcomma, List.append_assoc, List.append_assoc, List.append_assoc]
  exact ⟨_, hR.next hcomma hnext hstarts, hnext⟩

/-- The items of a list are read back one behind the other, up to its end. -/
theorem reads_tail (hR : ReadsMembers close Starts member readers)
    (hw : ∀ c ∈ w, isSpace c = true) (hw' : ∀ c ∈ w', isSpace c = true)
    (h : List.Forall₂ (MemberText Starts member) ts as) :
    ∀ fuel, ts.length < fuel → Reads Anything (readers fuel false) (listTail w w' close ts) as := by
  induction h with
  | nil =>
    intro fuel hfuel i rest _ hi
    obtain ⟨fuel, rfl⟩ := Nat.exists_eq_succ_of_ne_zero (Nat.ne_of_gt hfuel)
    exact hR.exists_last hw' (hi.trans (List.append_assoc ..))
  | @cons t a ts as hmember _ ih =>
    intro fuel hfuel i rest _ hi
    obtain ⟨fuel, rfl⟩ := Nat.exists_eq_succ_of_ne_zero (Nat.ne_of_gt (Nat.zero_lt_of_lt hfuel))
    have htail := ih fuel (Nat.lt_of_succ_lt_succ hfuel)
    obtain ⟨i', heq, hi'⟩ := hR.exists_next hw hmember.opens hi
    rw [heq]
    exact hmember.reads.cons htail (stops_listTail hw' hR.mark) _ rest trivial hi'

/-- **The texts of members are read as the members.** -/
theorem reads (hR : ReadsMembers close Starts member readers)
    (hw : ∀ c ∈ w, isSpace c = true) (hw' : ∀ c ∈ w', isSpace c = true)
    (h : List.Forall₂ (MemberText Starts member) ts as) {fuel : Nat} (hfuel : ts.length < fuel) :
    Reads Anything (readers fuel true) (listText w w' close ts) as := by
  intro i rest _ hi
  obtain ⟨fuel, rfl⟩ := Nat.exists_eq_succ_of_ne_zero (Nat.ne_of_gt (Nat.zero_lt_of_lt hfuel))
  cases h with
  | nil => exact @exists_last _ _ _ _ _ [] hR (List.forall_mem_nil _) _ _ i rest hi
  | @cons t a ts as hmember hrest =>
    have htail := hR.reads_tail hw hw' hrest fuel (Nat.lt_of_succ_lt_succ hfuel)
    obtain ⟨i', heq, hi'⟩ := hR.exists_first hw hmember.opens hi
    rw [heq]
    exact hmember.reads.cons htail (stops_listTail hw' hR.mark) _ rest trivial hi'

/-- Whoever counts the characters has enough fuel. -/
theorem reads_whole (hR : ReadsMembers close Starts member readers)
    (hw : ∀ c ∈ w, isSpace c = true) (hw' : ∀ c ∈ w', isSpace c = true)
    (h : List.Forall₂ (MemberText Starts member) ts as) {i : Input} {rest : List Char}
    (hi : i.rest = listText w w' close ts ++ rest) :
    ∃ i', readers (i.rest.length + 1) true i = .ok (as, i') ∧ i'.rest = rest := by
  refine hR.reads hw hw' h ?_ i rest trivial hi
  have hlen := @length_lt_listText w w' close ts
  rw [hi, List.length_append]
  omega

end ReadsMembers

/-- A list is read item by item. -/
theorem readsMembers_readItems (value : Reader Json) :
    ReadsMembers ']' (· ≠ ']') value (readItems value) where
  mark := .inl rfl
  last h := by
    unfold readItems
    dsimp only
    rw [h]
    rfl
  first h hc := by
    unfold readItems
    dsimp only
    rw [h]
    split
    · contradiction
    · rename_i heq
      exact absurd (List.cons.inj heq).1 hc
    · rfl
  next {_ i _ _ _} h hnext hc := by
    unfold readItems
    simp only [h, hnext]
    split
    · contradiction
    · rename_i heq
      exact absurd (List.cons.inj heq).1 (by decide)
    · rename_i heq
      cases heq
      rw [if_neg Bool.false_ne_true, if_pos rfl]
      split
      · contradiction
      · rename_i heq
        exact absurd (List.cons.inj heq).1 hc
      · rfl

/-- Reads a member of an object. -/
def readMember (value : Reader Json) : Reader (String × Json) := fun i => do
  let (k, i) ← readString (i.drop 1)
  let (_, i) ← readColon i
  let (j, i) ← value i
  return ((k, j), i)

/-- A member with the others behind it is read in one go. -/
theorem readCons_readMember (value : Reader Json) (tail : Reader (List (String × Json)))
    (i : Input) :
    readCons (readMember value) tail i = (do
      let (k, i) ← readString (i.drop 1)
      let (_, i) ← readColon i
      let (j, i) ← value i
      let (ms, i) ← tail i
      return ((k, j) :: ms, i)) := by
  unfold readCons readMember
  simp only [bind_assoc, pure_bind]

/-- An object is read member by member. -/
theorem readsMembers_readMembers (value : Reader Json) :
    ReadsMembers '\x7d' (· = '"') (readMember value) (readMembers value) where
  mark := .inr rfl
  last h := by
    unfold readMembers
    dsimp only
    rw [h]
    rfl
  first h hc := by
    subst hc
    unfold readMembers
    dsimp only
    rw [h, readCons_readMember]
    rfl
  next {_ i _ _ _} h hnext hc := by
    subst hc
    unfold readMembers
    dsimp only
    simp only [h, hnext, readCons_readMember]
    rfl

end ScriptTrace.Json
