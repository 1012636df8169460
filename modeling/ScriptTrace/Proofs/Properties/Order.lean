import ScriptTrace.Proofs.Elements
import ScriptTrace.Proofs.Json.Tree

/-!
# Proofs/Properties/Order — the order of properties

    "2" "10"  │  b a c          b before a: b was there when a was not, and has stayed since

The keys of an object are its indices in ascending order with the other keys behind them
(`exists_keys_eq`).  Among the others a change takes a key out or puts a new one at the end, and
never exchanges two (`Edit.before_iff`).  So which of two stands in front can be told from the
moments at which they were there, through all changes (`before_iff_insertedBefore`).
-/

namespace ScriptTrace.Props

variable {p q : Props} {k l key : String} {v value : Value} {e : String × Value}
  {es : List (String × Value)}

/-! ## Keys and values -/

theorem ext (h : p.entries = q.entries) : p = q := by
  obtain ⟨entries, _⟩ := p
  obtain ⟨_, _⟩ := q
  obtain rfl : entries = _ := h
  rfl

theorem nodup_keys (p : Props) : p.keys.Nodup :=
  List.pairwise_map.mpr (p.ordered.imp Json.ne_of_precedes)

theorem contains_iff : p.contains k = true ↔ k ∈ p.keys := by
  rw [contains, List.any_eq_true, keys, List.mem_map]
  exact exists_congr fun e => and_congr_right fun _ => decide_eq_true_iff

/-- The value of a key is the one that is listed with it. -/
theorem get?_eq_some_iff : p.get? k = some v ↔ (k, v) ∈ p.entries := by
  constructor
  · intro h
    obtain ⟨e, hfind, rfl⟩ := Option.map_eq_some_iff.mp h
    have hkey : e.1 = k := by simpa using List.find?_some hfind
    exact hkey ▸ List.mem_of_find?_eq_some hfind
  · intro h
    have hfind : p.entries.find? (·.1 = k) ≠ none := fun hnone =>
      List.find?_eq_none.mp hnone (k, v) h (decide_eq_true rfl)
    obtain ⟨e, he⟩ := Option.ne_none_iff_exists'.mp hfind
    have hkey : e.1 = k := by simpa using List.find?_some he
    have hsame : e = (k, v) :=
      List.inj_on_of_nodup_map p.nodup_keys (List.mem_of_find?_eq_some he) h hkey
    rw [get?, he, hsame]
    rfl

/-! ## What writing changes -/

theorem entries_set_of_mem (h : k ∈ p.keys) : (p.set k v).entries = replace k v p.entries := by
  unfold set
  rw [dif_pos (contains_iff.mpr h)]

/-- **Overwriting moves no key.** -/
theorem keys_set_of_mem (h : k ∈ p.keys) : (p.set k v).keys = p.keys := by
  rw [keys, entries_set_of_mem h, map_replace]
  rfl

/-- An index is put in somewhere between the others. -/
theorem exists_insertIndex (n : Nat) (k : String) (v : Value) (es : List (String × Value)) :
    ∃ front back, es = front ++ back ∧ insertIndex n k v es = front ++ (k, v) :: back := by
  induction es with
  | nil => exact ⟨[], [], rfl, rfl⟩
  | cons e es ih =>
    unfold insertIndex
    split
    · exact ⟨[], e :: es, rfl, rfl⟩
    · obtain ⟨front, back, hes, hinsert⟩ := ih
      exact ⟨e :: front, back, congrArg (e :: ·) hes, congrArg (e :: ·) hinsert⟩

/-- A new key is put between the known ones, behind all of them if it is no index. -/
theorem exists_entries_set (h : k ∉ p.keys) :
    ∃ front back, p.entries = front ++ back ∧ (p.set k v).entries = front ++ (k, v) :: back ∧
      (Number.indexOf? k = none → back = []) := by
  unfold set
  rw [dif_neg (mt contains_iff.mp h)]
  split
  · rename_i n hk
    obtain ⟨front, back, hes, hinsert⟩ := exists_insertIndex n k v p.entries
    exact ⟨front, back, hes, hinsert, fun hnone => absurd (hk.symm.trans hnone) (by simp)⟩
  · exact ⟨p.entries, [], (List.append_nil _).symm, rfl, fun _ => rfl⟩

/-- Only the property under the key is another one. -/
theorem mem_replace (hnodup : (es.map Prod.fst).Nodup) (hk : k ∈ es.map Prod.fst) :
    e ∈ replace k v es ↔ e = (k, v) ∨ (e.1 ≠ k ∧ e ∈ es) := by
  induction es with
  | nil => cases hk
  | cons f es ih =>
    obtain ⟨hnew, hes⟩ := List.nodup_cons.mp hnodup
    unfold replace
    by_cases hf : f.1 = k
    · rw [if_pos hf, List.mem_cons, List.mem_cons]
      have hother : e ∈ es → e.1 ≠ k := fun he hek =>
        hnew (List.mem_map.mpr ⟨e, he, hek.trans hf.symm⟩)
      refine or_congr_right ⟨fun he => ⟨hother he, .inr he⟩, fun he => ?_⟩
      exact he.2.resolve_left fun hef => he.1 (hef ▸ hf)
    · have hk' : k ∈ es.map Prod.fst := (List.mem_cons.mp hk).resolve_left (Ne.symm hf)
      rw [if_neg hf, List.mem_cons, List.mem_cons, ih hes hk']
      constructor
      · rintro (rfl | rfl | ⟨hne, he⟩)
        · exact .inr ⟨hf, .inl rfl⟩
        · exact .inl rfl
        · exact .inr ⟨hne, .inr he⟩
      · rintro (rfl | ⟨hne, rfl | he⟩)
        · exact .inr (.inl rfl)
        · exact .inl rfl
        · exact .inr (.inr ⟨hne, he⟩)

/-- **What is listed after writing**: the key with its new value, and all others as they were. -/
theorem mem_entries_set :
    e ∈ (p.set k v).entries ↔ e = (k, v) ∨ (e.1 ≠ k ∧ e ∈ p.entries) := by
  by_cases hk : k ∈ p.keys
  · rw [entries_set_of_mem hk]
    exact mem_replace p.nodup_keys hk
  · obtain ⟨front, back, hes, hset, -⟩ := exists_entries_set (v := v) hk
    have hother : e ∈ p.entries → e.1 ≠ k := fun he hek => hk (List.mem_map.mpr ⟨e, he, hek⟩)
    rw [hset, List.mem_append, List.mem_cons, or_left_comm, ← List.mem_append, ← hes]
    exact or_congr_right ⟨fun he => ⟨hother he, he⟩, And.right⟩

/-- **Reading after writing**: the new value for the key, the old one for every other key. -/
theorem get?_set (p : Props) (k : String) (v : Value) (l : String) :
    (p.set k v).get? l = if l = k then some v else p.get? l := by
  refine Option.ext fun w => ?_
  rw [get?_eq_some_iff, mem_entries_set]
  split
  · rename_i hlk
    subst hlk
    simp [eq_comm]
  · rename_i hlk
    rw [get?_eq_some_iff]
    simp [hlk]

/-- To erase a key leaves the others in their order. -/
theorem keys_erase (p : Props) (k : String) : (p.erase k).keys = p.keys.filter (· ≠ k) := by
  have herase : (p.erase k).keys = p.keys.erase k := by
    rw [List.erase_eq_eraseP, keys, keys, List.eraseP_map]
    exact congrArg (fun f => (p.entries.eraseP f).map Prod.fst)
      (funext fun e => by simp [Function.comp_apply, beq_eq_decide, eq_comm])
  rw [herase, p.nodup_keys.erase_eq_filter]
  exact congrArg (List.filter · p.keys) (funext fun l => by simp [bne, beq_eq_decide])

/-! ## Indices in front -/

/-- The keys that are no indices, in their order. -/
def others (p : Props) : List String := p.keys.filter fun k => (Number.indexOf? k).isNone

theorem mem_others : k ∈ p.others ↔ k ∈ p.keys ∧ Number.indexOf? k = none := by
  rw [others, List.mem_filter, Option.isNone_iff_eq_none]

/-- **Keys in order are the indices, ascending, and then the others.** -/
theorem exists_of_precedes {ks : List String} (h : ks.Pairwise Precedes) :
    ∃ ns : List Nat, ks = ns.map toString ++ ks.filter (fun k => (Number.indexOf? k).isNone) ∧
      ns.Pairwise (· < ·) ∧ ∀ n ∈ ns, n < 2 ^ 64 := by
  induction ks with
  | nil => exact ⟨[], rfl, .nil, List.forall_mem_nil _⟩
  | cons k ks ih =>
    obtain ⟨hk, hks⟩ := List.pairwise_cons.mp h
    cases hindex : Number.indexOf? k with
    | some n =>
      obtain ⟨ns, heq, hns, hlt⟩ := ih hks
      obtain ⟨hn, rfl⟩ := Number.indexOf?_eq_some_iff.mp hindex
      refine ⟨n :: ns, ?_, .cons (fun i hi => ?_) hns, List.forall_mem_cons.mpr ⟨hn, hlt⟩⟩
      · rw [List.filter_cons_of_neg (by rw [hindex]; exact Bool.false_ne_true), List.map_cons,
          List.cons_append, ← heq]
      · have hmem : toString i ∈ ks :=
          heq ▸ List.mem_append_left _ (List.mem_map_of_mem hi)
        have hless := hk _ hmem
        unfold Precedes at hless
        rw [hindex, Number.indexOf?_toString, if_pos (hlt i hi)] at hless
        exact hless
    | none =>
      -- Nothing behind a key that is no index is one.
      have hnone : ∀ l ∈ k :: ks, (Number.indexOf? l).isNone = true := by
        refine List.forall_mem_cons.mpr ⟨by rw [hindex]; rfl, fun l hl => ?_⟩
        have hless := hk l hl
        unfold Precedes at hless
        rw [hindex] at hless
        cases hl : Number.indexOf? l with
        | none => rfl
        | some j =>
          rw [hl] at hless
          exact hless.elim
      exact ⟨[], (List.filter_eq_self.mpr hnone).symm, .nil, List.forall_mem_nil _⟩

/-- **Indices come first, in ascending order**, and the other keys behind them. -/
theorem exists_keys_eq (p : Props) :
    ∃ ns : List Nat, p.keys = ns.map toString ++ p.others ∧ ns.Pairwise (· < ·) ∧
      ∀ n ∈ ns, n < 2 ^ 64 :=
  exists_of_precedes (List.pairwise_map.mpr p.ordered)

/-! ## The order of the other keys -/

/-- **Writing puts a new key at the end** of the keys that are no indices. -/
theorem others_set (p : Props) (k : String) (v : Value) :
    (p.set k v).others =
      if k ∈ p.keys ∨ (Number.indexOf? k).isSome then p.others else p.others ++ [k] := by
  by_cases hk : k ∈ p.keys
  · rw [if_pos (.inl hk), others, keys_set_of_mem hk, others]
  · obtain ⟨front, back, hes, hset, hend⟩ := exists_entries_set (v := v) hk
    have hkeys : (p.set k v).keys = front.map Prod.fst ++ k :: back.map Prod.fst := by
      rw [keys, hset, List.map_append, List.map_cons]
    have hknown : p.keys = front.map Prod.fst ++ back.map Prod.fst := by
      rw [keys, hes, List.map_append]
    cases hindex : Number.indexOf? k with
    | some n =>
      rw [if_pos (.inr rfl), others, others, hkeys, hknown, List.filter_append, List.filter_append,
        List.filter_cons_of_neg (by rw [hindex]; exact Bool.false_ne_true)]
    | none =>
      obtain rfl := hend hindex
      rw [if_neg (by simp [hk]), others, others, hkeys, hknown, List.map_nil, List.append_nil,
        List.filter_append, List.filter_cons_of_pos (by rw [hindex]; rfl)]
      rfl

theorem others_erase (p : Props) (k : String) : (p.erase k).others = p.others.filter (· ≠ k) := by
  rw [others, others, keys_erase, List.filter_comm]

/-! ## Changes one behind the other -/

/-- A change of properties.  Properties made of a list start anew (`after_clear`). -/
inductive Edit where
  | set (key : String) (value : Value)
  | erase (key : String)
  | clear

/-- The properties after a change. -/
def Edit.apply : Edit → Props → Props
  | .set key value, p => p.set key value
  | .erase key, p => p.erase key
  | .clear, _ => .empty

/-- The properties after some changes, from none on. -/
def after (edits : List Edit) : Props := edits.foldl (fun p edit => edit.apply p) .empty

/-- The last edit is made behind the others. -/
theorem after_snoc (edits : List Edit) (edit : Edit) :
    after (edits ++ [edit]) = edit.apply (after edits) := by
  rw [after, List.foldl_append]
  rfl

/-- **Making properties of a list** is to write its entries one behind the other where there were
none. -/
theorem after_clear (edits : List Edit) (entries : List (String × Value)) :
    after (edits ++ .clear :: entries.map fun e => .set e.1 e.2) = ofList entries := by
  rw [after, List.foldl_append, List.foldl_cons, List.foldl_map]
  rfl

/-- **One key was put in before another one**: at some moment it was there and the other one was
not, and it has stayed since. -/
def InsertedBefore (edits : List Edit) (k l : String) : Prop :=
  ∃ i ≤ edits.length, l ∉ (after (edits.take i)).keys ∧
    ∀ j, i ≤ j → j ≤ edits.length → k ∈ (after (edits.take j)).keys

namespace InsertedBefore

variable {edits : List Edit} {edit : Edit}

theorem mem (h : InsertedBefore edits k l) : k ∈ (after edits).keys := by
  obtain ⟨i, hi, -, hk⟩ := h
  exact List.take_length (l := edits) ▸ hk _ hi (Nat.le_refl _)

/-- What is there was put in before what is not. -/
theorem of_not_mem (hk : k ∈ (after edits).keys) (hl : l ∉ (after edits).keys) :
    InsertedBefore edits k l := by
  refine ⟨edits.length, Nat.le_refl _, ?_, fun j hj hj' => ?_⟩
  · rwa [List.take_length]
  · rwa [Nat.le_antisymm hj' hj, List.take_length]

/-- One change more. -/
theorem snoc_iff : InsertedBefore (edits ++ [edit]) k l ↔
    k ∈ (after (edits ++ [edit])).keys ∧
      (l ∉ (after (edits ++ [edit])).keys ∨ InsertedBefore edits k l) := by
  have htake {i : Nat} (hi : i ≤ edits.length) : (edits ++ [edit]).take i = edits.take i :=
    List.take_append_of_le_length hi
  have hlength : (edits ++ [edit]).length = edits.length + 1 := List.length_append
  constructor
  · rintro h
    refine ⟨h.mem, ?_⟩
    obtain ⟨i, hi, hl, hk⟩ := h
    rcases Nat.lt_or_ge edits.length i with hlt | hle
    · rw [List.take_of_length_le (by omega)] at hl
      exact .inl hl
    · refine .inr ⟨i, hle, htake hle ▸ hl, fun j hj hj' => ?_⟩
      exact htake hj' ▸ hk j hj (by omega)
  · rintro ⟨hk, hl | ⟨i, hi, hl, hstays⟩⟩
    · exact of_not_mem hk hl
    · refine ⟨i, by omega, (htake hi).symm ▸ hl, fun j hj hj' => ?_⟩
      rcases Nat.lt_or_ge edits.length j with hlt | hle
      · rwa [List.take_of_length_le (by omega)]
      · exact (htake hle).symm ▸ hstays j hj hle

end InsertedBefore

theorem pair_sublist_concat {ks : List String} {x : String} :
    [k, l].Sublist (ks ++ [x]) ↔ [k, l].Sublist ks ∨ (l = x ∧ k ∈ ks) := by
  rw [← List.reverse_sublist, List.reverse_append, ← @List.reverse_sublist _ [k, l]]
  change (l :: [k]).Sublist (x :: ks.reverse) ↔ (l :: [k]).Sublist ks.reverse ∨ _
  rw [List.cons_sublist_cons', List.singleton_sublist, List.mem_reverse]

/-- **A change exchanges no keys**: of two that are no indices and there behind it, one stands in
front exactly if it was there, with the other one absent or behind. -/
theorem Edit.before_iff (edit : Edit) (hne : k ≠ l) (hk : k ∈ (edit.apply p).others)
    (hl : l ∈ (edit.apply p).others) :
    [k, l].Sublist (edit.apply p).others ↔
      k ∈ p.others ∧ (l ∉ p.others ∨ [k, l].Sublist p.others) := by
  have hsub {ks : List String} (h : [k, l].Sublist ks) : k ∈ ks ∧ l ∈ ks :=
    ⟨h.subset List.mem_cons_self, h.subset (List.mem_cons_of_mem _ List.mem_cons_self)⟩
  have hstay (hl : l ∈ p.others) :
      [k, l].Sublist p.others ↔ k ∈ p.others ∧ (l ∉ p.others ∨ [k, l].Sublist p.others) :=
    ⟨fun h => ⟨(hsub h).1, .inr h⟩, fun h => h.2.resolve_left (absurd hl)⟩
  cases edit with
  | clear => cases hk
  | erase key =>
    change k ∈ (p.erase key).others at hk
    change l ∈ (p.erase key).others at hl
    change [k, l].Sublist (p.erase key).others ↔ _
    rw [others_erase] at hk hl ⊢
    rw [List.mem_filter, decide_eq_true_iff] at hk hl
    rw [← hstay hl.1]
    refine ⟨fun h => h.trans List.filter_sublist, fun h => ?_⟩
    have hfilter := h.filter (· ≠ key)
    rwa [List.filter_eq_self.mpr (by simp [hk.2, hl.2])] at hfilter
  | set key value =>
    change k ∈ (p.set key value).others at hk
    change l ∈ (p.set key value).others at hl
    change [k, l].Sublist (p.set key value).others ↔ _
    rw [others_set] at hk hl ⊢
    split at hk
    · rename_i hknown
      rw [if_pos hknown] at hl ⊢
      exact hstay hl
    · rename_i hnew
      have hout : key ∉ p.others := fun h => hnew (.inl (mem_others.mp h).1)
      rw [if_neg hnew, List.mem_append, List.mem_singleton] at hl
      rw [List.mem_append, List.mem_singleton] at hk
      rw [if_neg hnew, pair_sublist_concat]
      by_cases hlast : l = key
      · have hold : k ∈ p.others := hk.resolve_right fun h => hne (h.trans hlast.symm)
        exact ⟨fun _ => ⟨hold, .inl (hlast ▸ hout)⟩, fun _ => .inr ⟨hlast, hold⟩⟩
      · rw [← hstay (hl.resolve_right hlast), or_iff_left fun h => hlast h.1]

/-- **The keys that are no indices stand in the order in which they were put in**, through all
changes. -/
theorem before_iff_insertedBefore (edits : List Edit) (hne : k ≠ l)
    (hk : k ∈ (after edits).others) (hl : l ∈ (after edits).others) :
    [k, l].Sublist (after edits).others ↔ InsertedBefore edits k l := by
  induction edits using List.reverseRecOn with
  | nil => cases hk
  | append_singleton edits edit ih =>
    have hknown {k : String} (hk : k ∈ (after (edits ++ [edit])).others) :
        k ∈ (after edits).others ↔ k ∈ (after edits).keys :=
      mem_others.trans (and_iff_left (mem_others.mp hk).2)
    have hstep := Edit.before_iff (p := after edits) edit hne
      (after_snoc edits edit ▸ hk) (after_snoc edits edit ▸ hl)
    rw [← after_snoc] at hstep
    rw [hstep, InsertedBefore.snoc_iff, hknown hk, hknown hl]
    have hk' : k ∈ (after (edits ++ [edit])).keys := (mem_others.mp hk).1
    have hl' : l ∈ (after (edits ++ [edit])).keys := (mem_others.mp hl).1
    constructor
    · rintro ⟨hold, habsent | hbefore⟩
      · exact ⟨hk', .inr (.of_not_mem hold habsent)⟩
      · have hlold : l ∈ (after edits).others :=
          hbefore.subset (List.mem_cons_of_mem _ List.mem_cons_self)
        exact ⟨hk', .inr ((ih ((hknown hk).mpr hold) hlold).mp hbefore)⟩
    · rintro ⟨-, habsent | hbefore⟩
      · exact absurd hl' habsent
      · refine ⟨hbefore.mem, ?_⟩
        by_cases hold : l ∈ (after edits).keys
        · exact .inr ((ih ((hknown hk).mpr hbefore.mem) ((hknown hl).mpr hold)).mpr hbefore)
        · exact .inl hold

/-! ## Made again -/

/-- **Properties made of their own entries are the same ones.** -/
theorem ofList_entries (p : Props) : ofList p.entries = p := ext (entries_ofList p.ordered)

/-- Some of the entries keep their order. -/
theorem entries_ofList_filter (p : Props) (f : String × Value → Bool) :
    (ofList (p.entries.filter f)).entries = p.entries.filter f :=
  entries_ofList (p.ordered.sublist List.filter_sublist)

end ScriptTrace.Props
