import ScriptTrace.Proofs.Json.Tree
import ScriptTrace.Proofs.Traversal.Rendering

/-!
# Proofs/Traversal/ArrayText — two ways to the text of an array

A conversion leaves out every array that it is inside of.  The methods `join` and `toString` leave
out their receiver only where it is an element itself, and convert each other element on its own:

    a = [x, b],  b = [a, y]        conversion   x,,y         a in b is left out
                                   join         x,x,,y       a in b is opened once more

The two agree unless an element other than the array leads back to it (`array_texts_agree_iff`).
Texts are compared without the limit: one that is not cut short is the text that `Spells` tells.
-/

namespace ScriptTrace

/-- Texts with commas between them. -/
def joinedText : Bool → List String → String
  | _, [] => ""
  | first, t :: ts => (if first then "" else ",") ++ t ++ joinedText false ts

mutual

/-- **The text of an element**, with the arrays that it lies in. -/
inductive Spells (h : Heap) : List ObjectId → Value → String → Prop
  | nullish {around : List ObjectId} {v : Value} (hv : v.isNullish = true) : Spells h around v ""
  | circular {around : List ObjectId} {id : ObjectId} (hid : id ∈ around) :
    Spells h around (.object id) ""
  | word {around : List ObjectId} {v : Value} (hv : v.isNullish = false)
    (hnew : ∀ id, v = .object id → id ∉ around) (hitems : h.items? v = none) :
    Spells h around v (h.simpleText v)
  | array {around : List ObjectId} {id : ObjectId} {items : Array Value} {ts : List String}
    (hid : id ∉ around) (hitems : h.items? (.object id) = some items)
    (hall : SpellsAll h (id :: around) items.toList ts) :
    Spells h around (.object id) (joinedText true ts)

/-- The texts of some elements. -/
inductive SpellsAll (h : Heap) : List ObjectId → List Value → List String → Prop
  | nil {around : List ObjectId} : SpellsAll h around [] []
  | cons {around : List ObjectId} {v : Value} {vs : List Value} {t : String} {ts : List String}
    (hv : Spells h around v t) (hvs : SpellsAll h around vs ts) :
    SpellsAll h around (v :: vs) (t :: ts)

end

section

variable {h : Heap} {around : List ObjectId} {v : Value} {vs : List Value} {out out' : Capped}
  {first : Bool} {items : Array Value} {s t : String} {ts : List String} {id : ObjectId}

/-! ## Texts that are not cut short -/

theorem Capped.text_separated :
    (out.separated first).text = out.text ++ (if first then "" else ",") := by
  unfold Capped.separated
  cases first with
  | true => exact String.append_empty.symm
  | false => rfl

/-- A text that is not full was not full before. -/
theorem Capped.isFull_of_le (hlimit : out'.limit = out.limit) (htext : out'.text = out.text ++ s)
    (hroom : out'.isFull = false) : out.isFull = false := by
  rw [Capped.isFull, decide_eq_false_iff_not, Nat.not_lt] at hroom ⊢
  rw [hlimit, htext, String.utf8ByteSize_append] at hroom
  omega

mutual

/-- **What was joined below the limit was spelled in full.** -/
theorem Joins.spells : ∀ {around : List ObjectId} {v : Value} {out out' : Capped},
    Joins h around v out out' → out'.isFull = false →
      ∃ s, Spells h around v s ∧ out'.text = out.text ++ s
  | _, _, _, _, .nullish hv, _ => ⟨_, .nullish hv, String.append_empty.symm⟩
  | _, _, _, _, .circular hid, _ => ⟨_, .circular hid, String.append_empty.symm⟩
  | _, _, _, _, .text hv hnew hitems, _ => ⟨_, .word hv hnew hitems, rfl⟩
  | _, _, _, _, .array hid hitems hall, hroom => by
    obtain ⟨ts, hts, htext⟩ := hall.spells hroom
    exact ⟨_, .array hid hitems hts, htext⟩

/-- What was joined within the ceiling spells the items one by one. -/
theorem JoinsAll.spells : ∀ {around : List ObjectId} {first : Bool} {vs : List Value}
    {out out' : Capped}, JoinsAll h around first vs out out' → out'.isFull = false →
      ∃ ts, SpellsAll h around vs ts ∧ out'.text = out.text ++ joinedText first ts
  | _, _, _, _, _, .done, _ => ⟨[], .nil, String.append_empty.symm⟩
  | _, _, _, _, _, .full hfull, hroom => by
    rw [hfull] at hroom
    cases hroom
  | _, _, _, _, _, .more _ hv hvs, hroom => by
    obtain ⟨ts, hts, htexts⟩ := hvs.spells hroom
    obtain ⟨t, ht, htext⟩ := hv.spells (Capped.isFull_of_le hvs.limit_eq htexts hroom)
    refine ⟨t :: ts, .cons ht hts, ?_⟩
    rw [htexts, htext, Capped.text_separated, joinedText, String.append_assoc, String.append_assoc,
      String.append_assoc]

end

/-- The text of an array that is no longer than the limit. -/
theorem Heap.spells_text {limit : Nat} (hitems : h.items? v = some items)
    (hlength : (h.text limit v).utf8ByteSize ≤ limit) : Spells h [] v (h.text limit v) := by
  obtain ⟨s, hs, htext⟩ := (Heap.joins_text hitems).spells
    (decide_eq_false_iff_not.mpr (Nat.not_lt.mpr hlength))
  have heq : h.text limit v = s := htext.trans String.empty_append
  rw [heq]
  exact hs

/-! ## More arrays around -/

/-- An array is opened inside a value: it lies in it below arrays that are not around. -/
inductive Comes (h : Heap) (a : ObjectId) : List ObjectId → Value → Prop
  | here {around : List ObjectId} (ha : a ∉ around) : Comes h a around (.object a)
  | inside {around : List ObjectId} {id : ObjectId} {items : Array Value} {w : Value}
    (hid : id ∉ around) (hitems : h.items? (.object id) = some items) (hw : w ∈ items)
    (hc : Comes h a (id :: around) w) : Comes h a around (.object id)

variable {a : ObjectId} {around' : List ObjectId} {w : Value}

/-- What comes back within more arrays does so within fewer. -/
theorem Comes.of_subset (hc : Comes h a around' w) (hsub : around ⊆ around') :
    Comes h a around w := by
  induction hc generalizing around with
  | here ha => exact .here fun hmem => ha (hsub hmem)
  | inside hid hitems hw _ ih =>
    exact .inside (fun hmem => hid (hsub hmem)) hitems hw (ih (List.cons_subset_cons _ hsub))

/-- A way to an array goes around one that it does not start at, or there is a way from there. -/
theorem Comes.avoid (hc : Comes h a around w) (hid : id ∉ around) :
    Comes h a (id :: around) w ∨ Comes h a around (.object id) := by
  induction hc with
  | here ha =>
    rename_i around
    by_cases heq : a = id
    · subst heq
      exact .inr (.here ha)
    · exact .inl (.here (by simp [heq, ha]))
  | @inside around j items w hj hitems hw hc ih =>
    by_cases heq : j = id
    · subst heq
      exact .inr (.inside hj hitems hw hc)
    rcases ih (by simp [hid, Ne.symm heq]) with hleft | hright
    · refine .inl (.inside (by simp [heq, hj]) hitems hw (hleft.of_subset ?_))
      exact fun x hx => by simpa [or_left_comm] using hx
    · exact .inr (hright.of_subset (List.subset_cons_self j around))

/-- **Whatever leads to an array opens it.** -/
theorem Comes.of_reaches (hreach : Relation.ReflTransGen h.Holds v (.object a)) :
    Comes h a [] v := by
  induction hreach using Relation.ReflTransGen.head_induction_on with
  | refl => exact .here List.not_mem_nil
  | head hholds _ ih =>
    obtain ⟨items, hitems, hw⟩ := hholds
    obtain ⟨id, -, rfl⟩ := Heap.items?_eq_some hitems
    rcases ih.avoid List.not_mem_nil with hleft | hright
    · exact .inside List.not_mem_nil hitems hw hleft
    · exact hright

/-! ## One array more around -/

namespace Spells

/-- What is `null` or `undefined` is spelled as nothing. -/
theorem eq_of_isNullish (hs : Spells h around v s) (hv : v.isNullish = true) : s = "" := by
  cases hs with
  | nullish | circular => rfl
  | word hnull =>
    rw [hv] at hnull
    cases hnull
  | array => cases hv

/-- An array inside itself is spelled as nothing. -/
theorem eq_of_mem (hs : Spells h around (.object id) s) (hid : id ∈ around) : s = "" := by
  cases hs with
  | nullish | circular => rfl
  | word _ hnew => exact absurd hid (hnew id rfl)
  | array hnew => exact absurd hid hnew

/-- What is no array is spelled by itself. -/
theorem eq_simpleText (hs : Spells h around v s) (hnull : v.isNullish = false)
    (hnew : ∀ id, v = .object id → id ∉ around) (hitems : h.items? v = none) :
    s = h.simpleText v := by
  cases hs with
  | nullish hv =>
    rw [hv] at hnull
    cases hnull
  | circular hid => exact absurd hid (hnew _ rfl)
  | word => rfl
  | array _ hsome =>
    rw [hitems] at hsome
    cases hsome

/-- An array is spelled by its items with commas between them. -/
theorem exists_of_items (hs : Spells h around (.object id) s) (hid : id ∉ around)
    (hitems : h.items? (.object id) = some items) :
    ∃ ts, SpellsAll h (id :: around) items.toList ts ∧ s = joinedText true ts := by
  cases hs with
  | nullish hv => cases hv
  | circular hmem => exact absurd hmem hid
  | word _ _ hnone =>
    rw [hitems] at hnone
    cases hnone
  | array _ hsome hall =>
    obtain rfl := Option.some.inj (hitems.symm.trans hsome)
    exact ⟨_, hall, rfl⟩

end Spells

/-- The size of joined texts is that of the first one, its comma and the others. -/
theorem size_joinedText_cons :
    (joinedText first (t :: ts)).utf8ByteSize =
      (if first then 0 else 1) + t.utf8ByteSize + (joinedText false ts).utf8ByteSize := by
  have hcomma : ",".utf8ByteSize = 1 := rfl
  rw [joinedText, String.utf8ByteSize_append, String.utf8ByteSize_append]
  cases first with
  | true => rfl
  | false => rw [if_neg Bool.false_ne_true, if_neg Bool.false_ne_true, hcomma]

mutual

/-- **More arrays around leave out more.** -/
theorem Spells.size_le : ∀ {around around' : List ObjectId} {v : Value} {s s' : String},
    Spells h around v s → Spells h around' v s' → around ⊆ around' →
      s'.utf8ByteSize ≤ s.utf8ByteSize
  | _, _, _, _, _, .nullish hv, hs', _ => (hs'.eq_of_isNullish hv).symm ▸ Nat.zero_le _
  | _, _, _, _, _, .circular hid, hs', hsub => (hs'.eq_of_mem (hsub hid)).symm ▸ Nat.zero_le _
  | _, around', v, _, _, .word hnull hnew hitems, hs', hsub => by
    by_cases hmem : ∃ id, v = .object id ∧ id ∈ around'
    · obtain ⟨id, rfl, hid⟩ := hmem
      exact (hs'.eq_of_mem hid).symm ▸ Nat.zero_le _
    · exact (hs'.eq_simpleText hnull (fun id hv hid => hmem ⟨id, hv, hid⟩) hitems).symm ▸ le_rfl
  | _, around', .object id, _, _, .array hid hitems hall, hs', hsub => by
    by_cases hmem : id ∈ around'
    · exact (hs'.eq_of_mem hmem).symm ▸ Nat.zero_le _
    · obtain ⟨ts', hall', rfl⟩ := hs'.exists_of_items hmem hitems
      exact hall.size_le hall' (List.cons_subset_cons id hsub) true

/-- Within more arrays the texts of items are no longer. -/
theorem SpellsAll.size_le : ∀ {around around' : List ObjectId} {vs : List Value}
    {ts ts' : List String}, SpellsAll h around vs ts → SpellsAll h around' vs ts' →
      around ⊆ around' → ∀ first : Bool,
        (joinedText first ts').utf8ByteSize ≤ (joinedText first ts).utf8ByteSize
  | _, _, _, _, _, .nil, .nil, _, _ => le_rfl
  | _, _, _, _, _, .cons hv hvs, .cons hv' hvs', hsub, _ => by
    have hhead := hv.size_le hv' hsub
    have htail := hvs.size_le hvs' hsub false
    rw [size_joinedText_cons, size_joinedText_cons]
    omega

end

/-- The arrays around a value and one more. -/
def Adds (a : ObjectId) (around around' : List ObjectId) : Prop :=
  ∀ id, id ∈ around' ↔ id = a ∨ id ∈ around

theorem Adds.cons (ha : Adds a around around') : Adds a (id :: around) (id :: around') := by
  intro x
  rw [List.mem_cons, List.mem_cons, ha x]
  exact or_left_comm

theorem Adds.subset (ha : Adds a around around') : around ⊆ around' := fun x hx =>
  (ha x).mpr (.inr hx)

mutual

/-- **An array that is not opened, or has no text where it is, makes no difference.** -/
theorem Spells.eq_of_adds : ∀ {around around' : List ObjectId} {v : Value} {s s' : String},
    Spells h around v s → Spells h around' v s' → Adds a around around' →
      (Relation.ReflTransGen h.Holds v (.object a) → ∀ inner t, around ⊆ inner →
        Spells h inner (.object a) t → t = "") → s' = s
  | _, _, _, _, _, .nullish hv, hs', _, _ => hs'.eq_of_isNullish hv
  | _, _, _, _, _, .circular hid, hs', ha, _ => hs'.eq_of_mem (ha.subset hid)
  | around, around', v, _, _, .word hnull hnew hitems, hs', ha, hempty => by
    by_cases hmem : ∃ id, v = .object id ∧ id ∈ around'
    · obtain ⟨id, rfl, hid⟩ := hmem
      obtain rfl := ((ha id).mp hid).resolve_right (hnew id rfl)
      rw [hs'.eq_of_mem hid]
      exact (hempty .refl around _ (List.Subset.refl _) (.word hnull hnew hitems)).symm
    · exact hs'.eq_simpleText hnull (fun id hv hid => hmem ⟨id, hv, hid⟩) hitems
  | around, around', .object id, _, _, .array hid hitems hall, hs', ha, hempty => by
    by_cases hmem : id ∈ around'
    · obtain rfl := ((ha id).mp hmem).resolve_right hid
      rw [hs'.eq_of_mem hmem]
      exact (hempty .refl around _ (List.Subset.refl _) (.array hid hitems hall)).symm
    · obtain ⟨ts', hall', rfl⟩ := hs'.exists_of_items hmem hitems
      rw [hall.eq_of_adds hall' ha.cons fun w hw hreach inner t hsub =>
        hempty (.head ⟨_, hitems, Array.mem_toList_iff.mp hw⟩ hreach) inner t
          (List.Subset.trans (List.subset_cons_self id around) hsub)]

/-- An array that no item comes back to makes no difference around them. -/
theorem SpellsAll.eq_of_adds : ∀ {around around' : List ObjectId} {vs : List Value}
    {ts ts' : List String}, SpellsAll h around vs ts → SpellsAll h around' vs ts' →
      Adds a around around' →
      (∀ v ∈ vs, Relation.ReflTransGen h.Holds v (.object a) → ∀ inner t, around ⊆ inner →
        Spells h inner (.object a) t → t = "") → ts' = ts
  | _, _, _, _, _, .nil, .nil, _, _ => rfl
  | _, _, _, _, _, .cons hv hvs, .cons hv' hvs', ha, hempty => by
    rw [hv.eq_of_adds hv' ha (hempty _ List.mem_cons_self),
      hvs.eq_of_adds hvs' ha fun w hw => hempty w (List.mem_cons_of_mem _ hw)]

end

/-- Items are spelled one by one. -/
theorem SpellsAll.forall₂ (hall : SpellsAll h around vs ts) :
    List.Forall₂ (Spells h around) vs ts := by
  induction vs generalizing ts with
  | nil =>
    cases hall
    exact .nil
  | cons v vs ih =>
    cases hall with
    | cons hv hvs => exact .cons hv (ih hvs)

variable {R R' : Value → String → Prop} {ts' : List String}

/-- Texts that are no longer one by one are no longer when they are joined. -/
theorem size_joinedText_le (hts : List.Forall₂ R vs ts) (hts' : List.Forall₂ R' vs ts')
    (hle : ∀ v ∈ vs, ∀ t t', R v t → R' v t' → t'.utf8ByteSize ≤ t.utf8ByteSize) (first : Bool) :
    (joinedText first ts').utf8ByteSize ≤ (joinedText first ts).utf8ByteSize := by
  induction hts generalizing ts' first with
  | nil =>
    cases hts'
    exact le_rfl
  | cons ht hts ih =>
    cases hts' with
    | cons ht' hts' =>
      have hhead := hle _ List.mem_cons_self _ _ ht ht'
      have htail := ih hts' (fun v hv => hle v (List.mem_cons_of_mem _ hv)) false
      rw [size_joinedText_cons, size_joinedText_cons]
      omega

/-- Texts with commas between are shorter where one of them is and none is longer. -/
theorem size_joinedText_lt (hts : List.Forall₂ R vs ts) (hts' : List.Forall₂ R' vs ts')
    (hle : ∀ v ∈ vs, ∀ t t', R v t → R' v t' → t'.utf8ByteSize ≤ t.utf8ByteSize) (hw : w ∈ vs)
    (hlt : ∀ t t', R w t → R' w t' → t'.utf8ByteSize < t.utf8ByteSize) (first : Bool) :
    (joinedText first ts').utf8ByteSize < (joinedText first ts).utf8ByteSize := by
  induction hts generalizing ts' first with
  | nil => cases hw
  | cons ht hts ih =>
    cases hts' with
    | cons ht' hts' =>
      have hle' := fun v hv => hle v (List.mem_cons_of_mem _ hv)
      rw [size_joinedText_cons, size_joinedText_cons]
      rcases List.mem_cons.mp hw with rfl | hw
      · have hhead := hlt _ _ ht ht'
        have htail := size_joinedText_le hts hts' hle' false
        omega
      · have hhead := hle _ List.mem_cons_self _ _ ht ht'
        have htail := ih hts' hle' hw false
        omega

/-- Texts that are the same one by one are the same together. -/
theorem texts_eq_of_forall₂ (hts : List.Forall₂ R vs ts) (hts' : List.Forall₂ R' vs ts')
    (heq : ∀ v ∈ vs, ∀ t t', R v t → R' v t' → t' = t) : ts' = ts := by
  induction hts generalizing ts' with
  | nil =>
    cases hts'
    rfl
  | cons ht hts ih =>
    cases hts' with
    | cons ht' hts' =>
      rw [heq _ List.mem_cons_self _ _ ht ht',
        ih hts' fun v hv => heq v (List.mem_cons_of_mem _ hv)]

/-- **An array that is opened and has a text makes a difference.** -/
theorem Comes.size_lt (hc : Comes h a around v)
    (ha : Adds a around around')
    (htext : ∀ inner t, a ∉ inner → Spells h inner (.object a) t → 0 < t.utf8ByteSize)
    {s s' : String} (hs : Spells h around v s) (hs' : Spells h around' v s') :
    s'.utf8ByteSize < s.utf8ByteSize := by
  induction hc generalizing around' s s' with
  | here hnew =>
    rw [hs'.eq_of_mem ((ha a).mpr (.inl rfl))]
    exact htext _ _ hnew hs
  | @inside around id items w hid hitems hw hc ih =>
    by_cases heq : id = a
    · subst heq
      rw [hs'.eq_of_mem ((ha id).mpr (.inl rfl))]
      exact htext _ _ hid hs
    have hid' : id ∉ around' := fun hmem => ((ha id).mp hmem).elim heq hid
    obtain ⟨ts, hall, rfl⟩ := hs.exists_of_items hid hitems
    obtain ⟨ts', hall', rfl⟩ := hs'.exists_of_items hid' hitems
    exact size_joinedText_lt hall.forall₂ hall'.forall₂
      (fun _ _ _ _ ht ht' => ht.size_le ht' ha.cons.subset) (Array.mem_toList_iff.mpr hw)
      (fun _ _ ht ht' => ih ha.cons ht ht') true

/-! ## Elements on their own -/

/-- **The text of an element of an array on its own**; the array itself has none. -/
def Heap.OwnText (h : Heap) (a : ObjectId) (v : Value) (t : String) : Prop :=
  v = .object a ∧ t = "" ∨ v ≠ .object a ∧ Spells h [] v t

theorem Adds.start (a : ObjectId) : Adds a [] [a] := fun id => by simp

/-- An element that does not lead back has the same text on its own and inside the array. -/
theorem Heap.OwnText.eq_of_not_reaches {t' : String} (ht : h.OwnText a v t)
    (ht' : Spells h [a] v t')
    (hno : v ≠ .object a → ¬ Relation.ReflTransGen h.Holds v (.object a)) : t' = t := by
  obtain ⟨rfl, rfl⟩ | ⟨hv, ht⟩ := ht
  · exact ht'.eq_of_mem List.mem_cons_self
  · exact ht.eq_of_adds ht' (.start a) fun hreach => absurd hreach (hno hv)

/-- The only element of an array has the same text on its own and inside the array. -/
theorem Heap.OwnText.eq_of_single {t' : String} (hitems : h.items? (.object a) = some items)
    (hone : items.toList = [v]) (ht : h.OwnText a v t) (ht' : Spells h [a] v t') : t' = t := by
  by_cases hv : v = .object a
  · exact ht.eq_of_not_reaches ht' fun hne => absurd hv hne
  cases hinner : h.items? v with
  | none =>
    refine ht.eq_of_not_reaches ht' fun _ hreach => ?_
    rcases hreach.cases_head with heq | ⟨w, ⟨_, hsome, -⟩, -⟩
    · exact hv heq
    · rw [hinner] at hsome
      cases hsome
  | some inner =>
    obtain ⟨id, -, rfl⟩ := Heap.items?_eq_some hinner
    have hne : id ≠ a := fun heq => hv (congrArg Value.object heq)
    obtain ⟨ts, hall, rfl⟩ :=
      (ht.resolve_left fun hself => hv hself.1).2.exists_of_items List.not_mem_nil hinner
    obtain ⟨ts', hall', rfl⟩ := ht'.exists_of_items (by simpa using hne) hinner
    -- Inside its only element an array has no text: that element is around it there.
    have hempty (around : List ObjectId) (s : String) (hsub : [id] ⊆ around)
        (hs : Spells h around (.object a) s) : s = "" := by
      by_cases hmem : a ∈ around
      · exact hs.eq_of_mem hmem
      obtain ⟨us, hus, rfl⟩ := hs.exists_of_items hmem hitems
      rw [hone] at hus
      cases hus with
      | cons hu hus =>
        cases hus
        rw [hu.eq_of_mem (List.mem_cons_of_mem a (hsub List.mem_cons_self))]
        rfl
    rw [hall.eq_of_adds hall' (Adds.start a).cons fun _ _ _ => hempty]

/-- Between two elements there is a comma. -/
theorem size_joinedText_pos (hall : SpellsAll h around vs ts) (hlength : 1 < vs.length) :
    0 < (joinedText true ts).utf8ByteSize := by
  cases hall with
  | nil => cases hlength
  | cons _ hvs =>
    cases hvs with
    | nil => exact absurd hlength (lt_irrefl 1)
    | cons =>
      rw [size_joinedText_cons, size_joinedText_cons, if_neg Bool.false_ne_true]
      omega

/-- **When both ways to a text agree.** -/
theorem joinedText_eq_iff (hitems : h.items? (.object a) = some items)
    (hown : List.Forall₂ (h.OwnText a) items.toList ts)
    (hall : SpellsAll h [a] items.toList ts') :
    joinedText true ts' = joinedText true ts ↔
      items.size ≤ 1 ∨ ∀ w ∈ items, w ≠ .object a →
        ¬ Relation.ReflTransGen h.Holds w (.object a) := by
  have hmem {w : Value} : w ∈ items.toList ↔ w ∈ items := Array.mem_toList_iff
  constructor
  · intro heq
    by_contra hcon
    obtain ⟨htwo, hback⟩ := not_or.mp hcon
    obtain ⟨w, hw, hne, hreach⟩ : ∃ w ∈ items, w ≠ .object a ∧
        Relation.ReflTransGen h.Holds w (.object a) := by
      by_contra hno
      exact hback fun w hw hne hreach => hno ⟨w, hw, hne, hreach⟩
    -- Where the array is opened again there is a comma at least.
    have htext (around : List ObjectId) (t : String) (hnew : a ∉ around)
        (ht : Spells h around (.object a) t) : 0 < t.utf8ByteSize := by
      obtain ⟨us, hus, rfl⟩ := ht.exists_of_items hnew hitems
      exact size_joinedText_pos hus (by simpa using htwo)
    have hlt := size_joinedText_lt hown hall.forall₂ (fun v _ t t' ht ht' => ?_) (hmem.mpr hw)
      (fun t t' ht ht' => ?_) true
    · rw [heq] at hlt
      exact absurd hlt (lt_irrefl _)
    · obtain ⟨rfl, rfl⟩ | ⟨-, ht⟩ := ht
      · exact (ht'.eq_of_mem List.mem_cons_self).symm ▸ le_rfl
      · exact ht.size_le ht' (Adds.start a).subset
    · exact (Comes.of_reaches hreach).size_lt (.start a) htext
        (ht.resolve_left fun hself => hne hself.1).2 ht'
  · intro hcond
    have heq : ts' = ts := texts_eq_of_forall₂ hown hall.forall₂ fun v hv t t' ht ht' => by
      rcases hcond with hone | hno
      · have hsingle : items.toList.length ≤ 1 := by simpa using hone
        obtain ⟨w, hlist⟩ :=
          List.length_eq_one_iff.mp (hsingle.antisymm (List.length_pos_of_mem hv))
        obtain rfl : v = w := List.mem_singleton.mp (hlist ▸ hv)
        exact ht.eq_of_single hitems hlist ht'
      · exact ht.eq_of_not_reaches ht' fun hne => hno v (hmem.mp hv) hne
    rw [heq]

/-- A text within the ceiling spells its value. -/
theorem Heap.spells_of_size_le {limit : Nat} (hnull : v.isNullish = false)
    (hlength : (h.text limit v).utf8ByteSize ≤ limit) : Spells h [] v (h.text limit v) := by
  cases hitems : h.items? v with
  | none =>
    rw [Heap.text, hitems]
    exact .word hnull (fun _ _ => List.not_mem_nil) hitems
  | some items => exact Heap.spells_text hitems hlength

/-! ## What a program gets -/

variable {m m₀ : Machine} {line : Nat}

namespace Exec

/-- What an element adds to the text of an array. -/
def elementText (h : Heap) (limit : Nat) (id : ObjectId) (v : Value) : String :=
  if v.isNullish || v.objectId? = some id then "" else h.text limit v

/-- A text within the ceiling is that of the element itself. -/
theorem ownText_elementText {limit : Nat}
    (hlength : (elementText h limit id v).utf8ByteSize ≤ limit) :
    h.OwnText id v (elementText h limit id v) := by
  unfold elementText at hlength ⊢
  cases hnull : v.isNullish with
  | true =>
    have hother : v ≠ .object id := by
      rintro rfl
      cases hnull
    exact .inr ⟨hother, Spells.nullish hnull⟩
  | false =>
    simp only [hnull, Bool.false_or, decide_eq_true_eq] at hlength ⊢
    split
    · rename_i hself
      cases v with
      | object other => exact .inl ⟨congrArg Value.object (Option.some.inj hself), rfl⟩
      | undefined | null | bool | number | string | function | host | globalThis => cases hself
    · rename_i hother
      rw [if_neg hother] at hlength
      exact .inr ⟨fun hv => hother (by rw [hv]; rfl), Heap.spells_of_size_le hnull hlength⟩

/-- One element more, or too long a text. -/
theorem joinTexts_cons {out grown : String}
    (hgrown : (if first then out else out ++ ",") ++
      elementText m.heap m.limits.maxLength id v = grown) :
    joinTexts id "," line first out (v :: vs) m =
      if grown.utf8ByteSize > m.limits.maxLength then
        raise .rangeError "Invalid string length" line m
      else joinTexts id "," line false grown vs m := by
  have hnext : (do
      checkStringLength grown.utf8ByteSize line
      joinTexts id "," line false grown vs : Exec String) m =
      if grown.utf8ByteSize > m.limits.maxLength then
        raise .rangeError "Invalid string length" line m
      else joinTexts id "," line false grown vs m := by
    split
    · rename_i hlong
      exact bind_of_error (checkStringLength_of_gt hlong)
    · rename_i hfits
      exact bind_of_ok (checkStringLength_of_le (Nat.not_lt.mp hfits))
  rw [joinTexts, ← hnext, ← hgrown, elementText]
  by_cases hempty : (v.isNullish || v.objectId? = some id) = true
  · rw [if_pos hempty, if_pos hempty, String.append_empty]
    rfl
  · rw [if_neg hempty, if_neg hempty]
    rfl

/-- **Elements are joined by their own texts**, or are refused as too long. -/
theorem joinTexts_ends (out : String) (first : Bool) :
    (∃ ts, List.Forall₂ (m.heap.OwnText id) vs ts ∧
      joinTexts id "," line first out vs m = .ok (out ++ joinedText first ts) m) ∨
    joinTexts id "," line first out vs m = raise .rangeError "Invalid string length" line m := by
  induction vs generalizing out first with
  | nil => exact .inl ⟨[], .nil, by rw [joinedText, String.append_empty]; rfl⟩
  | cons v vs ih =>
    obtain ⟨grown, hgrown⟩ : ∃ grown, (if first then out else out ++ ",") ++
      elementText m.heap m.limits.maxLength id v = grown := ⟨_, rfl⟩
    rw [joinTexts_cons hgrown]
    by_cases hlong : grown.utf8ByteSize > m.limits.maxLength
    · rw [if_pos hlong]
      exact .inr rfl
    · rw [if_neg hlong]
      have hlength : (elementText m.heap m.limits.maxLength id v).utf8ByteSize ≤
          m.limits.maxLength := by
        rw [← hgrown, String.utf8ByteSize_append] at hlong
        omega
      refine (ih grown false).imp_left fun ⟨ts, hts, hok⟩ =>
        ⟨_ :: ts, .cons (ownText_elementText hlength) hts, hok.trans ?_⟩
      rw [joinedText, ← hgrown]
      cases first <;> simp [String.append_assoc]

/-- A text that a program keeps, unless it is too long. -/
def kept (s : String) (line : Nat) : Exec Value := do
  checkStringLength s.utf8ByteSize line
  return .string s

theorem kept_of_le (hfits : s.utf8ByteSize ≤ m.limits.maxLength) :
    kept s line m = .ok (.string s) m := bind_of_ok (checkStringLength_of_le hfits)

theorem kept_of_gt (hlong : s.utf8ByteSize > m.limits.maxLength) :
    kept s line m = raise .rangeError "Invalid string length" line m :=
  bind_of_error (checkStringLength_of_gt hlong)

/-- To add a value to the empty text makes its text. -/
theorem binary_add_empty : binary .add (.string "") v line m =
    kept (m.heap.text m.limits.maxLength v) line m := by
  have hjoin : binary .add (.string "") v line m =
      (checkStringLength ("".utf8ByteSize + (m.heap.text m.limits.maxLength v).utf8ByteSize) line >>=
        fun _ => pure (Value.string ("" ++ m.heap.text m.limits.maxLength v))) m := rfl
  rw [hjoin, String.empty_append, String.utf8ByteSize_empty, Nat.zero_add]
  rfl

/-- The array as a whole: its text is kept, or too long. -/
theorem kept_text_ends (hitems : m.heap.items? (.object id) = some items) :
    (kept (m.heap.text m.limits.maxLength (.object id)) line m =
        .ok (.string (m.heap.text m.limits.maxLength (.object id))) m ∧
      Spells m.heap [] (.object id) (m.heap.text m.limits.maxLength (.object id))) ∨
    kept (m.heap.text m.limits.maxLength (.object id)) line m =
      raise .rangeError "Invalid string length" line m := by
  rcases Nat.lt_or_ge m.limits.maxLength
    (m.heap.text m.limits.maxLength (.object id)).utf8ByteSize with hlong | hfits
  · exact .inr (kept_of_gt hlong)
  · exact .inl ⟨kept_of_le hfits, Heap.spells_text hitems hfits⟩

/-- The array by its elements: their texts are joined, or too long. -/
theorem joined_ends :
    (∃ ts, List.Forall₂ (m.heap.OwnText id) vs ts ∧
      (joinTexts id "," line true "" vs >>= fun s => pure (Value.string s)) m =
        .ok (.string (joinedText true ts)) m) ∨
    (joinTexts id "," line true "" vs >>= fun s => pure (Value.string s)) m =
      raise .rangeError "Invalid string length" line m := by
  obtain ⟨ts, hown, hok⟩ | hraise := joinTexts_ends "" true
  · exact .inl ⟨ts, hown, (bind_of_ok hok).trans (by rw [String.empty_append]; rfl)⟩
  · exact .inr (bind_of_error hraise)

end Exec

namespace Evaluator

variable {scope : ScopeId} {e : Syntax.Expr}

/-- A template of a single value makes its text. -/
theorem evalExpr_template (ev : Evaluator) (pos : Grammar.Position)
    (he : ev.expr scope e m₀ = .ok v m) :
    ev.evalExpr scope (.mk (.template ["", ""] [e]) pos) m₀ =
      Exec.kept (m.heap.text m.limits.maxLength v) pos.line m := by
  generalize ht : m.heap.text m.limits.maxLength v = t
  have htemplate : ev.templateText scope pos.line "" [e] [""] m₀ =
      (Exec.checkStringLength t.utf8ByteSize pos.line >>= fun _ => pure t) m := by
    rw [templateText]
    refine (Exec.bind_of_ok he).trans ?_
    refine (Exec.bind_of_ok (x := Exec.text v) (a := t) (congrArg (EStateM.Result.ok · m) ht)).trans
      ?_
    rw [String.empty_append, List.headD_cons, String.append_empty]
    rfl
  change (ev.templateText scope pos.line "" [e] [""] >>= fun s => pure (Value.string s)) m₀ = _
  by_cases hlong : t.utf8ByteSize > m.limits.maxLength
  · rw [Exec.kept_of_gt hlong]
    exact Exec.bind_of_error
      (htemplate.trans (Exec.bind_of_error (Exec.checkStringLength_of_gt hlong)))
  · have hfits := Nat.not_lt.mp hlong
    rw [Exec.kept_of_le hfits]
    exact Exec.bind_of_ok (htemplate.trans (Exec.bind_of_ok (Exec.checkStringLength_of_le hfits)))

/-- The methods of an array are looked up by their names. -/
theorem callMethod_array (hid : m.heap.body? id = some (.array items)) (ev : Evaluator)
    (method : String) (args : List Value) :
    ev.callMethod (.object id) method args line m = ev.arrayMethod id method args line m := by
  refine (Exec.bind_of_ok (x := Exec.body? id) (a := m.heap.body? id) rfl).trans ?_
  rw [hid]

/-- The two methods that join an array by commas do the same. -/
theorem callMethod_join (hid : m.heap.body? id = some (.array items)) (ev : Evaluator) :
    ev.callMethod (.object id) "toString" [] line m =
        (Exec.joinTexts id "," line true "" items.toList >>= fun s => pure (.string s)) m ∧
      ev.callMethod (.object id) "join" [.string ","] line m =
        (Exec.joinTexts id "," line true "" items.toList >>= fun s => pure (.string s)) m := by
  have hitems : (m.heap.items? (.object id)).getD #[] = items := by rw [Heap.items?, hid]; rfl
  refine ⟨(callMethod_array hid ev _ _).trans ?_, (callMethod_array hid ev _ _).trans ?_⟩ <;>
    exact (Exec.bind_of_ok (x := Exec.heap) rfl).trans (by rw [hitems]; rfl)

/-- **When all texts of an array agree.** -/
theorem array_texts_agree_iff (ev : Evaluator) (pos : Grammar.Position)
    (hid : m.heap.body? id = some (.array items)) (he : ev.expr scope e m₀ = .ok (.object id) m) :
    ∃ conversion method : EStateM.Result Fault Machine Value,
      (ev.callConstructor .string [.object id] pos.line m = conversion ∧
        Exec.binary .add (.string "") (.object id) pos.line m = conversion ∧
        ev.evalExpr scope (.mk (.template ["", ""] [e]) pos) m₀ = conversion) ∧
      (ev.callMethod (.object id) "toString" [] pos.line m = method ∧
        ev.callMethod (.object id) "join" [.string ","] pos.line m = method) ∧
      (∀ r ∈ [conversion, method], (∃ s, r = .ok (.string s) m) ∨
        r = Exec.raise .rangeError "Invalid string length" pos.line m) ∧
      ∀ s t, conversion = .ok (.string s) m → method = .ok (.string t) m →
        (s = t ↔ items.size ≤ 1 ∨ ∀ w ∈ items, w ≠ .object id →
          ¬ Relation.ReflTransGen m.heap.Holds w (.object id)) := by
  have hitems : m.heap.items? (.object id) = some items := by rw [Heap.items?, hid]
  have hstring : ev.callConstructor .string [.object id] pos.line m =
      Exec.kept (m.heap.text m.limits.maxLength (.object id)) pos.line m := rfl
  obtain ⟨htoString, hjoin⟩ : _ ∧ _ := callMethod_join hid ev
  refine ⟨_, _, ⟨hstring, Exec.binary_add_empty, evalExpr_template ev pos he⟩, ⟨htoString, hjoin⟩,
    ?_⟩
  constructor
  · intro r hr
    rcases List.mem_pair.mp hr with rfl | rfl
    · exact (Exec.kept_text_ends hitems).imp_left fun hok => ⟨_, hok.1⟩
    · exact Exec.joined_ends.imp_left (by rintro ⟨ts, -, hok⟩; exact ⟨_, hok⟩)
  · intro s t hs ht
    obtain ⟨hok, hspells⟩ | hraise := Exec.kept_text_ends hitems
    · obtain ⟨ts, hown, hok'⟩ | hraise := Exec.joined_ends
      · cases hs.symm.trans hok
        cases ht.symm.trans hok'
        obtain ⟨ts', hall, htext⟩ := hspells.exists_of_items List.not_mem_nil hitems
        rw [htext]
        exact joinedText_eq_iff hitems hown hall
      · cases ht.symm.trans hraise
    · cases hs.symm.trans hraise

end Evaluator

end

/-- A machine with one array of two texts. -/
def pairUse : Machine :=
  { Machine.initial .default with
    heap := Heap.empty.add (.array #[.string "x", .string "y"]) none }

/-- The same array as it is written. -/
def pairLiteral : Syntax.Expr :=
  .mk (.array [.single (.mk (.string "x") ⟨1, 2⟩), .single (.mk (.string "y") ⟨1, 7⟩)]) ⟨1, 1⟩

/-- An array of two texts is spelled in the same way by all of these. -/
theorem pairUse_texts_agree :
    pairUse.heap.body? 0 = some (.array #[.string "x", .string "y"]) ∧
    (Evaluator.bounded 3).expr Scopes.globalId pairLiteral (.initial .default) =
      .ok (.object 0) pairUse ∧
    ∀ s t, (Evaluator.bounded 3).evalExpr Scopes.globalId
        (.mk (.template ["", ""] [pairLiteral]) ⟨1, 1⟩) (.initial .default) =
          .ok (.string s) pairUse →
      (Evaluator.bounded 3).callMethod (.object 0) "join" [.string ","] 1 pairUse =
        .ok (.string t) pairUse → s = t := by
  have hid : pairUse.heap.body? 0 = some (.array #[.string "x", .string "y"]) := rfl
  have he : (Evaluator.bounded 3).expr Scopes.globalId pairLiteral (.initial .default) =
      .ok (.object 0) pairUse := rfl
  refine ⟨hid, he, fun s t hs ht => ?_⟩
  obtain ⟨_, _, ⟨-, -, htemplate⟩, ⟨-, hjoin⟩, -, hiff⟩ :=
    Evaluator.array_texts_agree_iff (.bounded 3) ⟨1, 1⟩ hid he
  refine (hiff s t (htemplate.symm.trans hs) (hjoin.symm.trans ht)).mpr
    (.inr fun w hw _ hreach => ?_)
  rcases hreach.cases_head with rfl | ⟨_, ⟨_, hitems, -⟩, -⟩
  · simp at hw
  · simp only [List.mem_toArray, List.mem_cons, List.not_mem_nil, or_false] at hw
    rcases hw with rfl | rfl <;> cases hitems

/-- A program with two arrays that hold each other. -/
def ringUse : String :=
  "const a = ['x']; const b = [a, 'y']; a.push(b); console.log(String(a), a.join(','))"

/-- **A conversion and `join` do not always agree.** -/
theorem ringUse_texts_differ :
    (¬ ∀ {ev : Evaluator} {m : Machine} {id : ObjectId} {items : Array Value} {line : Nat}
      {s t : String}, m.heap.body? id = some (.array items) →
      ev.callConstructor .string [.object id] line m = .ok (.string s) m →
      ev.callMethod (.object id) "join" [.string ","] line m = .ok (.string t) m → s = t) ∧
    ((run .default ringUse).consoleTexts, (run .default ringUse).error) =
      (["x,,y x,x,,y"], none) := by
  refine ⟨fun hall => ?_, by decide +kernel⟩
  have heq : "x,,y" = "x,x,,y" :=
    @hall (.bounded 1) { Machine.initial .default with heap := Heap.ring } 0
      #[.string "x", .object 1] 1 _ _ rfl rfl rfl
  exact absurd heq (by decide)

end ScriptTrace
