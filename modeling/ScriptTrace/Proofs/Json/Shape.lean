import ScriptTrace.Proofs.Json.Text

/-!
# Proofs/Json/Shape — what every document keeps

    [0.1, {"b": 1, "a": 1e400}]   ──textAt──▸ … ──read──▸   [number, {"b": 1, "a": number}]

A document with numbers of any size may come back with other ones, and one that is too deep is not
read at all.  But a text that is read has the shape of the document that it was written for
(`sameShape_of_read`): the same lists, and the same keys in the same order.  Only the document
itself has the shape of a document without loss.
-/

namespace ScriptTrace.Json

mutual

/-- **Two documents of one shape**: they differ in nothing but numbers that are not integers of at
most 53 bits.  Objects in which a key stands twice are not compared. -/
inductive SameShape : Json → Json → Prop
  | null : SameShape .null .null
  | bool (b : Bool) : SameShape (.bool b) (.bool b)
  | string (s : String) : SameShape (.string s) (.string s)
  | integer {n : Int} {j' : Json} (hnumber : j'.IsNumber)
    (hexact : n.natAbs < 2 ^ 53 → j' = .integer n) : SameShape (.integer n) j'
  | real {x : Float} {j' : Json} (hnumber : (Number.jsonText? x).isSome → j'.IsNumber) :
    SameShape (.real x) j'
  | array {js js' : List Json} (hitems : List.Forall₂ SameShape js js') :
    SameShape (.array js) (.array js')
  | object {ms ms' : List (String × Json)}
    (hmembers : ms.Pairwise (fun m m' => m.1 ≠ m'.1) → List.Forall₂ SameMember ms ms') :
    SameShape (.object ms) (.object ms')

/-- Two members with one key and values of one shape. -/
inductive SameMember : String × Json → String × Json → Prop
  | mk (k : String) {j j' : Json} (hvalue : SameShape j j') : SameMember (k, j) (k, j')

end

mutual

/-- Nothing else has the shape of a document without loss. -/
theorem SameShape.eq_of_exact : ∀ {j j' : Json}, SameShape j j' → j.Exact → j' = j
  | .null, _, .null, _ | .bool _, _, .bool _, _ | .string _, _, .string _, _ => rfl
  | .integer _, _, .integer _ hexact, hj => hexact hj
  | .real _, _, _, hj => hj.elim
  | .array _, _, .array hitems, hj => congrArg Json.array (SameShape.eq_of_exactItems hitems hj)
  | .object _, _, .object hmembers, hj =>
    congrArg Json.object (SameShape.eq_of_exactMembers (hmembers (hj.2.imp ne_of_precedes)) hj.1)

/-- Items without numbers to be rounded are the same if they have the same shape. -/
theorem SameShape.eq_of_exactItems : ∀ {js js' : List Json}, List.Forall₂ SameShape js js' →
    ExactItems js → js' = js
  | [], _, .nil, _ => rfl
  | _ :: _, _, .cons hj hjs, hexact => by
    rw [hj.eq_of_exact hexact.1, SameShape.eq_of_exactItems hjs hexact.2]

/-- Members without numbers to be rounded are the same if they have the same shape. -/
theorem SameShape.eq_of_exactMembers : ∀ {ms ms' : List (String × Json)},
    List.Forall₂ SameMember ms ms' → ExactMembers ms → ms' = ms
  | [], _, .nil, _ => rfl
  | (_, _) :: _, _, .cons (.mk _ hj) hms, hexact => by
    rw [hj.eq_of_exact hexact.1, SameShape.eq_of_exactMembers hms hexact.2]

end

theorem SameMember.key_eq {m m' : String × Json} (h : SameMember m m') : m'.1 = m.1 := by
  cases h
  rfl

/-- Members of the same shape have the same keys, and so different ones. -/
theorem distinct_of_sameMembers {ms ms' : List (String × Json)}
    (h : List.Forall₂ SameMember ms ms') (hms : ms.Pairwise fun m m' => m.1 ≠ m'.1) :
    ms'.Pairwise fun m m' => m.1 ≠ m'.1 :=
  List.pairwise_map.mp
    (keys_eq_of_forall₂ h (fun _ _ hm => hm.key_eq) ▸ List.pairwise_map.mpr hms)

/-! ## Going over members -/

section

variable {α β : Type} {head : Reader α} {tail : Reader (List α)} {Behind : List Char → Prop}
  {t t' w w' : List Char}

theorem ok_of_bind {α β : Type} {x : Except ReadError α} {f : α → Except ReadError β} {b : β}
    (h : x >>= f = .ok b) : ∃ a, x = .ok a ∧ f a = .ok b := by
  cases x with
  | error e => cases h
  | ok a => exact ⟨a, rfl, h⟩

/-- What a reader goes over may be described with less. -/
theorem Passes.imp {r : Reader α} {P Q : α → Prop} (h : Passes Behind r t P)
    (hPQ : ∀ a, P a → Q a) :
    Passes Behind r t Q := fun _ _ _ _ hrest hi hread => (h hrest hi hread).imp_right (hPQ _)

/-- One more item before the others is read before them. -/
theorem Passes.cons {P : α → Prop} {Q : List α → Prop} (hhead : Passes Stops head t P)
    (htail : Passes Anything tail t' Q) (hstops : ∀ rest, Stops (t' ++ rest)) :
    Passes Anything (readCons head tail) (t ++ t')
      fun as => ∃ a as', as = a :: as' ∧ P a ∧ Q as' := by
  intro i i' rest as _ hi hread
  unfold readCons at hread
  obtain ⟨p, hp, hread⟩ := ok_of_bind hread
  obtain ⟨q, hq, hread⟩ := ok_of_bind hread
  obtain ⟨hrest, ha⟩ := hhead (hstops rest) (hi.trans (List.append_assoc ..)) hp
  obtain ⟨hrest', has⟩ := htail trivial hrest hq
  cases hread
  exact ⟨hrest', _, _, rfl, ha, has⟩

/-- A text that a reader goes over as a member, wherever members may stand. -/
structure MemberPasses (Starts : Char → Prop) (member : Reader α) (t : List Char) (P : α → Prop) :
    Prop where
  opens : ∃ c cs, t = c :: cs ∧ isSpace c = false ∧ Starts c
  passes : Passes Stops member t P

namespace ReadsMembers

variable {close : Char} {Starts : Char → Prop} {member : Reader α}
  {readers : Nat → Bool → Reader (List α)} {R : β → α → Prop} {ts : List (List Char)} {bs : List β}

/-- The items of a list are read one behind the other up to its end. -/
theorem passes_tail (hR : ReadsMembers close Starts member readers)
    (hw : ∀ c ∈ w, isSpace c = true) (hw' : ∀ c ∈ w', isSpace c = true)
    (h : List.Forall₂ (fun t b => MemberPasses Starts member t (R b)) ts bs) :
    ∀ fuel, ts.length < fuel →
      Passes Anything (readers fuel false) (listTail w w' close ts) (List.Forall₂ R bs) := by
  induction h with
  | nil =>
    intro fuel hfuel i i' rest as _ hi hread
    obtain ⟨fuel, rfl⟩ := Nat.exists_eq_succ_of_ne_zero (Nat.ne_of_gt hfuel)
    obtain ⟨i'', heq, hrest⟩ := hR.exists_last hw' (hi.trans (List.append_assoc ..))
    cases heq.symm.trans hread
    exact ⟨hrest, .nil⟩
  | @cons t b ts bs hmember _ ih =>
    intro fuel hfuel i i' rest as _ hi hread
    obtain ⟨fuel, rfl⟩ := Nat.exists_eq_succ_of_ne_zero (Nat.ne_of_gt (Nat.zero_lt_of_lt hfuel))
    have htail : Passes Anything (readers fuel false) (listTail w w' close ts)
        (List.Forall₂ R bs) := ih fuel (Nat.lt_of_succ_lt_succ hfuel)
    obtain ⟨i'', heq, hi'⟩ := hR.exists_next hw hmember.opens hi
    rw [heq] at hread
    obtain ⟨hrest, a, as, rfl, ha, has⟩ :=
      hmember.passes.cons htail (stops_listTail hw' hR.mark) trivial hi' hread
    exact ⟨hrest, .cons ha has⟩

/-- **The texts of members are gone over one by one.** -/
theorem passes_whole (hR : ReadsMembers close Starts member readers)
    (hw : ∀ c ∈ w, isSpace c = true) (hw' : ∀ c ∈ w', isSpace c = true)
    (h : List.Forall₂ (fun t b => MemberPasses Starts member t (R b)) ts bs) {i i' : Input}
    {rest : List Char} {as : List α} (hi : i.rest = listText w w' close ts ++ rest)
    (hread : readers ((listText w w' close ts ++ rest).length + 1) true i = .ok (as, i')) :
    i'.rest = rest ∧ List.Forall₂ R bs as := by
  have hfuel : ts.length < (listText w w' close ts ++ rest).length + 1 := by
    have hlen := @length_lt_listText w w' close ts
    rw [List.length_append]
    omega
  generalize (listText w w' close ts ++ rest).length = fuel at hfuel hread
  cases h with
  | nil =>
    obtain ⟨i'', heq, hrest⟩ :=
      @exists_last _ _ _ _ _ [] hR (List.forall_mem_nil _) fuel true i rest hi
    cases heq.symm.trans hread
    exact ⟨hrest, .nil⟩
  | @cons t b ts bs hmember hmembers =>
    have htail : Passes Anything (readers fuel false) (listTail w w' close ts)
        (List.Forall₂ R bs) := hR.passes_tail hw hw' hmembers fuel (Nat.lt_of_succ_lt_succ hfuel)
    obtain ⟨i'', heq, hi'⟩ := hR.exists_first hw hmember.opens hi
    rw [heq] at hread
    obtain ⟨hrest, a, as, rfl, ha, has⟩ :=
      hmember.passes.cons htail (stops_listTail hw' hR.mark) trivial hi' hread
    exact ⟨hrest, .cons ha has⟩

end ReadsMembers

end

/-! ## Going over documents -/

section

variable {indent : Option String} {level levels : Nat}

/-- **A number is gone over** as a value, behind white space too. -/
theorem passes_number {w t : List Char} (hw : ∀ c ∈ w, isSpace c = true) (ht : IsNumberText t) :
    Passes Stops (readValue levels) (w ++ t) IsNumber := by
  intro i i' rest j hrest hi hread
  have hsolid : Solid (t ++ rest) := by
    obtain ⟨c, cs, rfl, hspace, -⟩ := ht.starts
    rintro _ ⟨⟩
    exact hspace
  have hnext : i.skipSpace.rest = t ++ rest :=
    Input.rest_skipSpace hw hsolid (hi.trans (List.append_assoc ..))
  cases ht with
  | minus ht =>
    have hminus : readValue levels i = readNumber true (i.skipSpace.drop 1) := by
      unfold readValue
      dsimp only
      rw [hnext]
      rfl
    rw [hminus] at hread
    exact passes_readNumber ht hrest (Input.rest_drop_one hnext) hread
  | plain ht hne =>
    obtain ⟨c, cs, rfl, hc⟩ := ht.opens hne
    rcases hc with hdigit | rfl | rfl
    · rw [readValue_digit hnext hdigit] at hread
      exact passes_readNumber ht hrest hnext hread
    all_goals
      unfold readValue at hread
      dsimp only at hread
      rw [hnext] at hread
      cases hread

/-- A member is gone over if its value is. -/
theorem memberText_passes {value : Reader Json} {m : String × Json}
    (h : Passes Stops value ((if indent.isSome then [' '] else []) ++
      (textAt indent level m.2).toList) (SameShape m.2)) :
    MemberPasses (· = '"') (readMember value) (memberText indent level m).toList
      (SameMember m) := by
  refine ⟨opens_memberText m, fun i i' rest m' hrest hi hread => ?_⟩
  obtain ⟨i₁, hi₁, hvalue⟩ := readMember_memberText value m hi
  rw [hvalue] at hread
  obtain ⟨p, hp, hread⟩ := ok_of_bind hread
  cases hread
  obtain ⟨hend, hshape⟩ := h hrest hi₁ hp
  exact ⟨hend, .mk m.1 hshape⟩

mutual

/-- **Every document is read as one of its shape**, if its text is read at all. -/
theorem passes_textAt (hindent : Blank indent) : ∀ (j : Json) (level levels : Nat) (w : List Char),
    (∀ c ∈ w, isSpace c = true) →
      Passes Stops (readValue levels) (w ++ (textAt indent level j).toList) (SameShape j)
  | .null, level, levels, w, hw => by
    have hread := reads_textAt hindent .null level levels w hw trivial (Nat.zero_le _)
    exact hread.passes.imp fun _ heq => heq ▸ .null
  | .bool b, level, levels, w, hw => by
    have hread := reads_textAt hindent (.bool b) level levels w hw trivial (Nat.zero_le _)
    exact hread.passes.imp fun _ heq => heq ▸ .bool b
  | .string s, level, levels, w, hw => by
    have hread := reads_textAt hindent (.string s) level levels w hw trivial (Nat.zero_le _)
    exact hread.passes.imp fun _ heq => heq ▸ .string s
  | .integer n, level, levels, w, hw => by
    intro i i' rest j hrest hi hread
    obtain ⟨hend, hnumber⟩ := passes_number hw (isNumberText_toString n) hrest hi hread
    refine ⟨hend, .integer hnumber fun hn => ?_⟩
    have hexact := reads_textAt hindent (.integer n) level levels w hw hn (Nat.zero_le _)
    exact (hexact.passes hrest hi hread).2
  | .real x, level, levels, w, hw => by
    obtain ht | ⟨hnone, hnull⟩ := realText_eq x
    · exact (passes_number hw ht).imp fun _ hnumber => .real fun _ => hnumber
    · have hread := reads_textAt hindent .null level levels w hw trivial (Nat.zero_le _)
      rw [textAt, hnull]
      refine hread.passes.imp fun _ _ => .real fun hsome => ?_
      rw [hnone] at hsome
      cases hsome
  | .array items, level, 0, w, hw => by
    intro i i' rest j _ hi hread
    have hnext := rest_skipSpace_textAt _ hw hi
    rw [textAt, @toList_bracketed "[" "]" ']' rfl] at hnext
    exact absurd hread (readValue_zero_ne_ok (.inl rfl) hnext)
  | .array items, level, levels + 1, w, hw => by
    intro i i' rest j _ hi hread
    have hnext := rest_skipSpace_textAt _ hw hi
    rw [textAt, @toList_bracketed "[" "]" ']' rfl] at hnext
    have hinside := Input.rest_drop_one hnext
    rw [readValue_array hnext] at hread
    obtain ⟨p, hp, hread⟩ := ok_of_bind hread
    cases hread
    obtain ⟨hend, hall⟩ := (readsMembers_readItems (readValue levels)).passes_whole
      (isSpace_innerGap hindent level) (isSpace_outerGap hindent level)
      (itemTexts_passes hindent items (level + 1) levels) hinside hp
    exact ⟨hend, .array hall⟩
  | .object members, level, 0, w, hw => by
    intro i i' rest j _ hi hread
    have hnext := rest_skipSpace_textAt _ hw hi
    rw [textAt, @toList_bracketed "\x7b" "\x7d" '\x7d' rfl] at hnext
    exact absurd hread (readValue_zero_ne_ok (.inr rfl) hnext)
  | .object members, level, levels + 1, w, hw => by
    intro i i' rest j _ hi hread
    have hnext := rest_skipSpace_textAt _ hw hi
    rw [textAt, @toList_bracketed "\x7b" "\x7d" '\x7d' rfl] at hnext
    have hinside := Input.rest_drop_one hnext
    rw [readValue_object hnext] at hread
    obtain ⟨p, hp, hread⟩ := ok_of_bind hread
    cases hread
    obtain ⟨hend, hall⟩ := (readsMembers_readMembers (readValue levels)).passes_whole
      (isSpace_innerGap hindent level) (isSpace_outerGap hindent level)
      (memberTexts_passes hindent members (level + 1) levels) hinside hp
    refine ⟨hend, .object fun hkeys => ?_⟩
    rw [mergeMembers_eq (distinct_of_sameMembers hall hkeys)]
    exact hall

/-- The items of a list are read, each in its shape. -/
theorem itemTexts_passes (hindent : Blank indent) : ∀ (js : List Json) (level levels : Nat),
    List.Forall₂ (fun t j => MemberPasses (· ≠ ']') (readValue levels) t (SameShape j))
      ((itemTexts indent level js).map String.toList) js
  | [], _, _ => .nil
  | j :: js, level, levels =>
    .cons ⟨opens_textAt j, passes_textAt hindent j level levels [] (List.forall_mem_nil _)⟩
      (itemTexts_passes hindent js level levels)

/-- The members of an object are read, each under its key and in its shape. -/
theorem memberTexts_passes (hindent : Blank indent) :
    ∀ (ms : List (String × Json)) (level levels : Nat),
      List.Forall₂
        (fun t m => MemberPasses (· = '"') (readMember (readValue levels)) t (SameMember m))
        ((memberTexts indent level ms).map String.toList) ms
  | [], _, _ => .nil
  | (_, j) :: ms, level, levels =>
    .cons (memberText_passes (passes_textAt hindent j level levels _ (by split <;> simp [isSpace])))
      (memberTexts_passes hindent ms level levels)

end

/-- **What is read of the text of a document has its shape.** -/
theorem sameShape_of_read (hindent : Blank indent) {j j' : Json}
    (h : read (textAt indent 0 j) = .ok j') : SameShape j j' := by
  unfold read at h
  obtain ⟨p, hp, hend⟩ := ok_of_bind h
  have hshape := passes_textAt hindent j 0 maxDepth [] (List.forall_mem_nil _)
    (fun _ hc => by cases hc) (List.append_nil _).symm hp
  dsimp only at hend
  split at hend
  · cases hend
    exact hshape.2
  · cases hend

end

end ScriptTrace.Json
