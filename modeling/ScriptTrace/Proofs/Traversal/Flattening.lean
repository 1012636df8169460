import ScriptTrace.Proofs.Countdown
import ScriptTrace.Proofs.Outcome
import ScriptTrace.Proofs.Traversal.Trail

/-!
# Proofs/Traversal/Flattening — when arrays inside one another become one list

Flattening goes into an array while levels are left and the list is not longer than the limit.  It
does not look back: an array that lies inside itself is entered again, one level less is left, and
the list has got longer only if something stood in front.  So it may go on forever:

    a = [a]            a ─▸ a ─▸ a ─▸ ⋯       nothing stands in front
    a = [1, a]         a ─▸ a ─▸ a            the list gets longer with each turn

`Flattens` tells the run as it is, without a bound.  There is none just where the levels have no end
and an array is met that comes back to itself with nothing in front (`exists_flattensAll_iff`).
-/

namespace ScriptTrace

/-! ## Runs -/

mutual

/-- **What becomes of a list when a value is added**, with the levels that are left. -/
inductive Flattens (h : Heap) (limit : Nat) : Float → Value → Array Value → Array Value → Prop
  | push {depth : Float} {v : Value} {out : Array Value}
    (hv : h.items? v = none ∨ ¬ depth ≥ 1) : Flattens h limit depth v out (out.push v)
  | enter {depth : Float} {v : Value} {items out out' : Array Value}
    (hitems : h.items? v = some items) (hdepth : depth ≥ 1)
    (hall : FlattensAll h limit (depth - 1) items.toList out out') :
    Flattens h limit depth v out out'

/-- What becomes of a list when values are added; none is once it is longer than the limit. -/
inductive FlattensAll (h : Heap) (limit : Nat) :
    Float → List Value → Array Value → Array Value → Prop
  | nil {depth : Float} {out : Array Value} : FlattensAll h limit depth [] out out
  | full {depth : Float} {v : Value} {vs : List Value} {out : Array Value}
    (hfull : out.size > limit) : FlattensAll h limit depth (v :: vs) out out
  | cons {depth : Float} {v : Value} {vs : List Value} {out mid out' : Array Value}
    (hroom : out.size ≤ limit) (hv : Flattens h limit depth v out mid)
    (hvs : FlattensAll h limit depth vs mid out') : FlattensAll h limit depth (v :: vs) out out'

end

/-- **An array that a run enters**: it comes to it while the list is no longer than the limit. -/
inductive Meets (h : Heap) (limit : Nat) : Float → List Value → Array Value → Value → Prop
  | here {depth : Float} {v : Value} {vs : List Value} {items out : Array Value}
    (hroom : out.size ≤ limit) (hitems : h.items? v = some items) (hdepth : depth ≥ 1) :
    Meets h limit depth (v :: vs) out v
  | inside {depth : Float} {v w : Value} {vs : List Value} {items out : Array Value}
    (hroom : out.size ≤ limit) (hitems : h.items? v = some items) (hdepth : depth ≥ 1)
    (hmeets : Meets h limit (depth - 1) items.toList out w) : Meets h limit depth (v :: vs) out w
  | later {depth : Float} {v w : Value} {vs : List Value} {out mid : Array Value}
    (hroom : out.size ≤ limit) (hv : Flattens h limit depth v out mid)
    (hmeets : Meets h limit depth vs mid w) : Meets h limit depth (v :: vs) out w

/-- An array that adds nothing however deep it is entered: there are only arrays in it, down to
empty ones. -/
inductive Heap.IsHollow (h : Heap) : Value → Prop
  | mk {v : Value} {items : Array Value} (hitems : h.items? v = some items)
    (hall : ∀ w ∈ items, h.IsHollow w) : IsHollow h v

/-- A value with only hollow arrays in front. -/
inductive Heap.Fronts (h : Heap) : List Value → Value → Prop
  | head {w : Value} {vs : List Value} : Fronts h (w :: vs) w
  | tail {v w : Value} {vs : List Value} (hv : h.IsHollow v) (hvs : h.Fronts vs w) :
    Fronts h (v :: vs) w

/-- **A value that an array comes to before it adds anything.** -/
def Heap.Sinks (h : Heap) (v w : Value) : Prop :=
  ∃ items, h.items? v = some items ∧ h.Fronts items.toList w

section

variable {h : Heap} {limit : Nat} {depth : Float} {v w : Value} {vs : List Value}
  {out out' mid : Array Value} {items : Array Value}

/-! ## What runs add -/

mutual

/-- A value that is flattened takes no item away. -/
theorem Flattens.size_le : ∀ {depth : Float} {v : Value} {out out' : Array Value},
    Flattens h limit depth v out out' → out.size ≤ out'.size
  | _, _, out, _, .push _ => by
    rw [Array.size_push]
    exact Nat.le_succ _
  | _, _, _, _, .enter _ _ hall => hall.size_le

/-- Values that are flattened take no item away. -/
theorem FlattensAll.size_le : ∀ {depth : Float} {vs : List Value} {out out' : Array Value},
    FlattensAll h limit depth vs out out' → out.size ≤ out'.size
  | _, _, _, _, .nil | _, _, _, _, .full _ => le_rfl
  | _, _, _, _, .cons _ hv hvs => hv.size_le.trans hvs.size_le

end

mutual

/-- **What adds nothing is hollow**, and leaves the list as it was. -/
theorem Flattens.hollow : ∀ {depth : Float} {v : Value} {out out' : Array Value},
    Flattens h limit depth v out out' → out.size ≤ limit → out'.size ≤ out.size →
      h.IsHollow v ∧ out' = out
  | _, _, out, _, .push _, _, hsize => by
    rw [Array.size_push] at hsize
    omega
  | _, _, _, _, .enter hitems _ hall, hroom, hsize => by
    obtain ⟨hhollow, heq⟩ := hall.hollow hroom hsize
    exact ⟨.mk hitems fun w hw => hhollow w (Array.mem_toList_iff.mpr hw), heq⟩

/-- Values that give no items are hollow, each of them. -/
theorem FlattensAll.hollow : ∀ {depth : Float} {vs : List Value} {out out' : Array Value},
    FlattensAll h limit depth vs out out' → out.size ≤ limit → out'.size ≤ out.size →
      (∀ v ∈ vs, h.IsHollow v) ∧ out' = out
  | _, _, _, _, .nil, _, _ => ⟨nofun, rfl⟩
  | _, _, _, _, .full hfull, hroom, _ => absurd hroom (Nat.not_le.mpr hfull)
  | _, _, _, _, .cons _ hv hvs, hroom, hsize => by
    have hmid := hv.size_le
    have hout := hvs.size_le
    obtain ⟨hhead, rfl⟩ := hv.hollow hroom (by omega)
    obtain ⟨htail, heq⟩ := hvs.hollow hroom hsize
    exact ⟨List.forall_mem_cons.mpr ⟨hhead, htail⟩, heq⟩

end

/-- If no value gives an item, all of them give none. -/
theorem FlattensAll.eq_of_forall (hrun : FlattensAll h limit depth vs out out')
    (hvs : ∀ v ∈ vs, ∀ out out', Flattens h limit depth v out out' → out' = out) : out' = out := by
  induction vs generalizing out with
  | nil =>
    cases hrun
    rfl
  | cons v vs ih =>
    cases hrun with
    | full => rfl
    | cons _ hv hrest =>
      rw [ih hrest fun w hw => hvs w (List.mem_cons_of_mem v hw)]
      exact hvs v List.mem_cons_self _ _ hv

/-- A hollow array leaves the list as it was. -/
theorem Heap.IsHollow.eq_of_flattens (hv : h.IsHollow v) (hdepth : Number.IsEndless depth)
    (hrun : Flattens h limit depth v out out') : out' = out := by
  induction hv generalizing depth out out' with
  | mk hitems _ ih =>
    cases hrun with
    | push hnone =>
      rcases hnone with hnone | hlow
      · rw [hitems] at hnone
        cases hnone
      · exact absurd hdepth.ge hlow
    | enter hsome _ hall =>
      cases hitems.symm.trans hsome
      exact hall.eq_of_forall fun w hw _ _ => ih w (Array.mem_toList_iff.mp hw) hdepth.sub_one

/-! ## Where there is no end -/

/-- **Whatever comes down to an array that comes back to itself.** -/
def Heap.IsSinking (h : Heap) (v : Value) : Prop :=
  ∃ w, Relation.ReflTransGen h.Sinks v w ∧ Relation.TransGen h.Sinks w w

/-- What sinks does so into what sinks again. -/
theorem Heap.IsSinking.exists_sinks (hv : h.IsSinking v) : ∃ w, h.Sinks v w ∧ h.IsSinking w := by
  obtain ⟨w, hvw, hcycle⟩ := hv
  rcases hvw.cases_head with rfl | ⟨u, hu, huw⟩
  · obtain ⟨u, hu, hback⟩ := Relation.TransGen.head'_iff.mp hcycle
    exact ⟨u, hu, v, hback, hcycle⟩
  · exact ⟨u, hu, w, huw, hcycle⟩

mutual

/-- **There is no run over an array that sinks without end.** -/
theorem Flattens.not_isSinking : ∀ {depth : Float} {v : Value} {out out' : Array Value},
    Flattens h limit depth v out out' → Number.IsEndless depth → out.size ≤ limit →
      ¬ h.IsSinking v
  | _, _, _, _, .push hnone, hdepth, _, hv => by
    obtain ⟨w, ⟨_, hitems, -⟩, -⟩ := hv.exists_sinks
    rcases hnone with hnone | hlow
    · rw [hitems] at hnone
      cases hnone
    · exact hlow hdepth.ge
  | _, _, _, _, .enter hitems _ hall, hdepth, hroom, hv => by
    obtain ⟨w, ⟨_, hsome, hfront⟩, hw⟩ := hv.exists_sinks
    cases hitems.symm.trans hsome
    exact hall.not_isSinking hdepth.sub_one hroom w hfront hw

/-- Without a bound on the depth, values that are flattened do not sink. -/
theorem FlattensAll.not_isSinking : ∀ {depth : Float} {vs : List Value} {out out' : Array Value},
    FlattensAll h limit depth vs out out' → Number.IsEndless depth → out.size ≤ limit →
      ∀ w, h.Fronts vs w → ¬ h.IsSinking w
  | _, _, _, _, .full hfull, _, hroom, _, _, _ => absurd hroom (Nat.not_le.mpr hfull)
  | _, _, _, _, .cons _ hv _, hdepth, hroom, _, .head, hw => hv.not_isSinking hdepth hroom hw
  | _, _, _, _, .cons _ hv hvs, hdepth, hroom, w, .tail hu hfront, hw => by
    obtain rfl := hu.eq_of_flattens hdepth hv
    exact hvs.not_isSinking hdepth hroom w hfront hw

end

mutual

/-- A run has one result only. -/
theorem Flattens.unique : ∀ {depth : Float} {v : Value} {out out' mid : Array Value},
    Flattens h limit depth v out out' → Flattens h limit depth v out mid → mid = out'
  | _, _, _, _, _, .push _, .push _ => rfl
  | _, _, _, _, _, .push hnone, .enter hitems hdepth _ => by
    rcases hnone with hnone | hlow
    · rw [hitems] at hnone
      cases hnone
    · exact absurd hdepth hlow
  | _, _, _, _, _, .enter hitems hdepth _, .push hnone => by
    rcases hnone with hnone | hlow
    · rw [hitems] at hnone
      cases hnone
    · exact absurd hdepth hlow
  | _, _, _, _, _, .enter hitems _ hall, .enter hitems' _ hall' => by
    cases hitems.symm.trans hitems'
    exact hall.unique hall'

/-- Values are flattened in one way only. -/
theorem FlattensAll.unique : ∀ {depth : Float} {vs : List Value} {out out' mid : Array Value},
    FlattensAll h limit depth vs out out' → FlattensAll h limit depth vs out mid → mid = out'
  | _, _, _, _, _, .nil, .nil | _, _, _, _, _, .full _, .full _ => rfl
  | _, _, _, _, _, .full hfull, .cons hroom _ _ | _, _, _, _, _, .cons hroom _ _, .full hfull =>
    absurd hroom (Nat.not_le.mpr hfull)
  | _, _, _, _, _, .cons _ hv hvs, .cons _ hv' hvs' => by
    cases hv.unique hv'
    exact hvs.unique hvs'

end

/-- **A run over values is a run over each array that it meets.** -/
theorem Meets.exists_flattens (hmeets : Meets h limit depth vs out w)
    (hdepth : Number.IsEndless depth) (hrun : FlattensAll h limit depth vs out out') :
    ∃ depth' o o', Number.IsEndless depth' ∧ o.size ≤ limit ∧ Flattens h limit depth' w o o' := by
  induction hmeets generalizing out' with
  | here hroom =>
    cases hrun with
    | full hfull => exact absurd hroom (Nat.not_le.mpr hfull)
    | cons _ hv => exact ⟨_, _, _, hdepth, hroom, hv⟩
  | inside hroom hitems hge _ ih =>
    cases hrun with
    | full hfull => exact absurd hroom (Nat.not_le.mpr hfull)
    | cons _ hv =>
      cases hv with
      | push hnone =>
        rcases hnone with hnone | hlow
        · rw [hitems] at hnone
          cases hnone
        · exact absurd hge hlow
      | enter hsome _ hall =>
        cases hitems.symm.trans hsome
        exact ih hdepth.sub_one hall
  | later hroom hv _ ih =>
    cases hrun with
    | full hfull => exact absurd hroom (Nat.not_le.mpr hfull)
    | cons _ hv' hvs =>
      cases hv.unique hv'
      exact ih hdepth hvs

/-! ## Runs with a bound -/

variable {fuel room : Nat} {around : List ObjectId}

/-- What was collected from each value was collected from all of them. -/
theorem flattensAll_of_flattenList {item : Value → Array Value → Option (Array Value)}
    (hitem : ∀ v ∈ vs, ∀ out out', item v out = some out' → Flattens h limit depth v out out')
    (hrun : flattenList limit item vs out = some out') : FlattensAll h limit depth vs out out' := by
  induction vs generalizing out with
  | nil =>
    cases hrun
    exact .nil
  | cons v vs ih =>
    rw [flattenList] at hrun
    split at hrun
    · rename_i hfull
      cases hrun
      exact .full hfull
    · rename_i hroom
      obtain ⟨mid, hmid, hrest⟩ := Option.bind_eq_some_iff.mp hrun
      exact .cons (Nat.not_lt.mp hroom) (hitem v List.mem_cons_self _ _ hmid)
        (ih (fun w hw => hitem w (List.mem_cons_of_mem v hw)) hrest)

/-- An array is entered while levels are left, and one more array may be. -/
theorem flattenItem_enter (hitems : h.items? v = some items) (hdepth : depth ≥ 1) :
    flattenItem h limit (fuel + 1) depth v out =
      flattenList limit (flattenItem h limit fuel (depth - 1)) items.toList out := by
  conv_lhs => unfold flattenItem
  rw [hitems, decide_eq_true hdepth]

theorem flattenItem_zero (hitems : h.items? v = some items) (hdepth : depth ≥ 1) :
    flattenItem h limit 0 depth v out = none := by
  unfold flattenItem
  rw [hitems, decide_eq_true hdepth]

/-- What is no array, or lies too deep, is collected itself. -/
theorem flattenItem_push (hv : h.items? v = none ∨ ¬ depth ≥ 1) :
    flattenItem h limit fuel depth v out = some (out.push v) := by
  unfold flattenItem
  rcases hv with hnone | hlow
  · rw [hnone]
  · rw [decide_eq_false hlow]
    cases h.items? v <;> rfl

/-- A value is collected itself or entered. -/
theorem pushed_or_entered (h : Heap) (depth : Float) (v : Value) :
    (h.items? v = none ∨ ¬ depth ≥ 1) ∨ ∃ items, h.items? v = some items ∧ depth ≥ 1 := by
  by_cases hdepth : depth ≥ 1
  · cases hitems : h.items? v with
    | none => exact .inl (.inl rfl)
    | some items => exact .inr ⟨items, rfl, hdepth⟩
  · exact .inl (.inr hdepth)

/-- What does not run into the bound is a run. -/
theorem flattens_of_flattenItem (hrun : flattenItem h limit fuel depth v out = some out') :
    Flattens h limit depth v out out' := by
  induction fuel generalizing depth v out out' with
  | zero =>
    rcases pushed_or_entered h depth v with hpush | ⟨items, hitems, hdepth⟩
    · cases (flattenItem_push hpush).symm.trans hrun
      exact .push hpush
    · cases (flattenItem_zero hitems hdepth).symm.trans hrun
  | succ fuel ih =>
    rcases pushed_or_entered h depth v with hpush | ⟨items, hitems, hdepth⟩
    · cases (flattenItem_push hpush).symm.trans hrun
      exact .push hpush
    · exact .enter hitems hdepth (flattensAll_of_flattenList (fun _ _ _ _ hitem => ih hitem)
        ((flattenItem_enter hitems hdepth).symm.trans hrun))

/-! ## The bound is never reached -/

/-- A run over values goes on with one more. -/
theorem FlattensAll.concat (hrun : FlattensAll h limit depth vs out mid) (hroom : mid.size ≤ limit)
    (hv : Flattens h limit depth v mid out') : FlattensAll h limit depth (vs ++ [v]) out out' := by
  induction vs generalizing out with
  | nil =>
    cases hrun
    exact .cons hroom hv .nil
  | cons u us ih =>
    cases hrun with
    | full hfull => exact absurd hroom (Nat.not_le.mpr hfull)
    | cons hroom' hu hus => exact .cons hroom' hu (ih hus)

/-- **A list of values comes to an end where each of them does**, behind those in front of it. -/
theorem exists_flattenList {item : Value → Array Value → Option (Array Value)}
    (hitem : ∀ v out out', item v out = some out' → Flattens h limit depth v out out')
    (hnext : ∀ front v rest mid, vs = front ++ v :: rest → FlattensAll h limit depth front out mid →
      mid.size ≤ limit → ∃ out', item v mid = some out') :
    ∃ out', flattenList limit item vs out = some out' := by
  have hall (rest : List Value) : ∀ front mid, vs = front ++ rest →
      FlattensAll h limit depth front out mid →
        ∃ out', flattenList limit item rest mid = some out' := by
    induction rest with
    | nil => exact fun _ mid _ _ => ⟨mid, rfl⟩
    | cons v rest ih =>
      intro front mid hlist hfront
      rw [flattenList]
      split
      · exact ⟨mid, rfl⟩
      · rename_i hroom
        obtain ⟨next, hv⟩ := hnext front v rest mid hlist hfront (Nat.not_lt.mp hroom)
        obtain ⟨out', hrest⟩ := ih (front ++ [v]) next (by simp [hlist])
          (hfront.concat (Nat.not_lt.mp hroom) (hitem v mid next hv))
        exact ⟨out', by rw [hv, Option.bind_some, hrest]⟩
  exact hall vs [] out rfl .nil

/-- **Levels that have an end** are as many as they count. -/
theorem exists_flattenItem_of_levels (hdepth : ¬ Number.IsEndless depth)
    (hfuel : Number.toCount Number.maxCount depth ≤ fuel) :
    ∃ out', flattenItem h limit fuel depth v out = some out' := by
  induction fuel generalizing depth v out with
  | zero =>
    rcases pushed_or_entered h depth v with hpush | ⟨items, hitems, hge⟩
    · exact ⟨_, flattenItem_push hpush⟩
    · have hlt := Number.toCount_lt_of_not_isEndless hge hdepth
      omega
  | succ fuel ih =>
    rcases pushed_or_entered h depth v with hpush | ⟨items, hitems, hge⟩
    · exact ⟨_, flattenItem_push hpush⟩
    · have hlt := Number.toCount_lt_of_not_isEndless hge hdepth
      rw [flattenItem_enter hitems hge]
      refine exists_flattenList (fun _ _ _ hrun => flattens_of_flattenItem hrun)
        fun _ _ _ _ _ _ _ => ih (fun hless => hdepth (.of_sub_one hge hless)) (by omega)

/-- What is met behind some values is met behind them and those before. -/
theorem Meets.append {front : List Value} (hfront : FlattensAll h limit depth front out mid)
    (hroom : mid.size ≤ limit) (hmeets : Meets h limit depth vs mid w) :
    Meets h limit depth (front ++ vs) out w := by
  induction front generalizing out with
  | nil =>
    cases hfront
    exact hmeets
  | cons u us ih =>
    cases hfront with
    | full hfull => exact absurd hroom (Nat.not_le.mpr hfull)
    | cons hroom' hu hus => exact .later hroom' hu (ih hus)

/-- What is met in one value is met in a list that starts with it. -/
theorem Meets.of_singleton (hmeets : Meets h limit depth [v] out w) (vs : List Value) :
    Meets h limit depth (v :: vs) out w := by
  cases hmeets with
  | here hroom hitems hdepth => exact .here hroom hitems hdepth
  | inside hroom hitems hdepth hinside => exact .inside hroom hitems hdepth hinside
  | later _ _ hnone => cases hnone

/-- A value behind hollow ones is in front. -/
theorem Heap.fronts_append {front : List Value} (hfront : ∀ u ∈ front, h.IsHollow u) :
    h.Fronts (front ++ v :: vs) v := by
  induction front with
  | nil => exact .head
  | cons u us ih =>
    obtain ⟨hu, hus⟩ := List.forall_mem_cons.mp hfront
    exact .tail hu (ih hus)

/-- **Levels without an end** are no more than there are arrays for each length of the list, as long
as no array comes back to itself: where nothing is added on the way, all arrays are different. -/
theorem exists_flattenItem_of_meets (hdepth : Number.IsEndless depth) (ht : Trail h room around)
    (haround : ∀ id ∈ around, Relation.TransGen h.Sinks (.object id) v) (hroom : out.size ≤ limit)
    (hmeets : ∀ w, Meets h limit depth [v] out w → ¬ Relation.TransGen h.Sinks w w)
    (hfuel : (limit - out.size) * (h.size + 1) + room ≤ fuel) :
    ∃ out', flattenItem h limit fuel depth v out = some out' := by
  induction fuel using Nat.strong_induction_on generalizing depth room around v out with
  | h fuel ih =>
    rcases pushed_or_entered h depth v with hpush | ⟨items, hitems, hge⟩
    · exact ⟨_, flattenItem_push hpush⟩
    obtain ⟨id, hid, rfl⟩ := Heap.items?_eq_some hitems
    have hnew : id ∉ around := fun hmem => hmeets _ (.here hroom hitems hge) (haround id hmem)
    obtain ⟨room, rfl, ht'⟩ := ht.enter hid hnew
    obtain ⟨fuel, rfl⟩ : ∃ n, fuel = n + 1 := ⟨fuel - 1, by omega⟩
    rw [flattenItem_enter hitems hge]
    refine exists_flattenList (fun _ _ _ hrun => flattens_of_flattenItem hrun)
      fun front u rest mid hlist hfront hmid => ?_
    have hinside (w : Value) (hw : Meets h limit (depth - 1) [u] mid w) :
        ¬ Relation.TransGen h.Sinks w w :=
      hmeets w (.inside hroom hitems hge (hlist ▸ (hw.of_singleton rest).append hfront hmid))
    rcases Nat.lt_or_ge out.size mid.size with hgrown | hsame
    · -- Something was added: all arrays may come again.
      refine ih fuel (Nat.lt_succ_self fuel) hdepth.sub_one (.start h) nofun hmid hinside ?_
      have hless : (limit - mid.size + 1) * (h.size + 1) ≤ (limit - out.size) * (h.size + 1) :=
        Nat.mul_le_mul_right _ (by omega)
      rw [Nat.succ_mul] at hless
      omega
    · obtain ⟨hhollow, rfl⟩ := hfront.hollow hroom hsame
      have hsinks : h.Sinks (.object id) u := ⟨items, hitems, hlist ▸ Heap.fronts_append hhollow⟩
      exact ih fuel (Nat.lt_succ_self fuel) hdepth.sub_one ht'
        (List.forall_mem_cons.mpr ⟨.single hsinks, fun a ha => (haround a ha).tail hsinks⟩) hmid
        hinside (by omega)

/-! ## When flattening comes to an end -/

/-- **A run that stalls**: its levels have no end, and it meets an array that comes back to itself
before it adds anything. -/
def Heap.Stalls (h : Heap) (limit : Nat) (depth : Float) (vs : List Value) : Prop :=
  Number.IsEndless depth ∧
    ∃ w, Meets h limit depth vs #[] w ∧ Relation.TransGen h.Sinks w w

/-- Values that are flattened do not stall. -/
theorem not_stalls_of_flattensAll (hrun : FlattensAll h limit depth vs #[] out) :
    ¬ h.Stalls limit depth vs := by
  rintro ⟨hdepth, w, hmeets, hcycle⟩
  obtain ⟨_, _, _, hdepth', hroom, hw⟩ := hmeets.exists_flattens hdepth hrun
  exact hw.not_isSinking hdepth' hroom ⟨w, .refl, hcycle⟩

/-- Values that do not stall are flattened. -/
theorem exists_flatten_of_not_stalls (hstalls : ¬ h.Stalls limit depth items.toList) :
    ∃ out, flatten h limit depth items = some out := by
  have hroom : (limit + 2) * (h.size + 1) ≤ flattenRoom h limit depth := Nat.le_add_right _ _
  refine exists_flattenList (fun _ _ _ hrun => flattens_of_flattenItem hrun)
    fun front u rest mid hlist hfront hmid => ?_
  by_cases hdepth : Number.IsEndless depth
  · refine exists_flattenItem_of_meets hdepth (.start h) nofun hmid (fun w hw hcycle => ?_) ?_
    · exact hstalls ⟨hdepth, w, hlist ▸ (hw.of_singleton rest).append hfront hmid, hcycle⟩
    · have hless : (limit - mid.size + 1) * (h.size + 1) ≤ (limit + 2) * (h.size + 1) :=
        Nat.mul_le_mul_right _ (by omega)
      rw [Nat.succ_mul] at hless
      omega
  · exact exists_flattenItem_of_levels hdepth (Nat.le_add_left _ _)

theorem flattensAll_of_flatten (hrun : flatten h limit depth items = some out) :
    FlattensAll h limit depth items.toList #[] out :=
  flattensAll_of_flattenList (fun _ _ _ _ hitem => flattens_of_flattenItem hitem) hrun

/-- **The elements become one list just where the run does not stall**, and the bound on the arrays
inside one another makes no difference. -/
theorem flatten_eq_some_iff :
    flatten h limit depth items = some out ↔ FlattensAll h limit depth items.toList #[] out := by
  refine ⟨flattensAll_of_flatten, fun hrun => ?_⟩
  obtain ⟨out', hout'⟩ := exists_flatten_of_not_stalls (not_stalls_of_flattensAll hrun)
  rw [hout', hrun.unique (flattensAll_of_flatten hout')]

/-- **Values are flattened if and only if they do not stall.** -/
theorem exists_flattensAll_iff :
    (∃ out, FlattensAll h limit depth items.toList #[] out) ↔
      ¬ h.Stalls limit depth items.toList := by
  refine ⟨fun ⟨_, hrun⟩ => not_stalls_of_flattensAll hrun, fun hstalls => ?_⟩
  obtain ⟨out, hout⟩ := exists_flatten_of_not_stalls hstalls
  exact ⟨out, flattensAll_of_flatten hout⟩

end

/-- The levels that an argument asks for. -/
def Heap.levels (h : Heap) (limit : Nat) (args : List Value) : Float :=
  if (argument args 0).isUndefined then 1 else h.number limit (argument args 0)

section

variable {m : Machine} {id : ObjectId} {items out : Array Value} {depth : Float} {line : Nat}

namespace Exec

/-- A run of values is what the method collects. -/
theorem flattened_of_run
    (hrun : FlattensAll m.heap m.limits.maxLength depth items.toList #[] out) :
    flattened items depth m = .ok out m := by
  unfold flattened
  rw [bind_of_ok (show heap m = .ok m.heap m from rfl),
    bind_of_ok (show ceiling m = .ok m.limits.maxLength m from rfl), flatten_eq_some_iff.mpr hrun]
  rfl

theorem checkArrayLength_of_le {n : Nat} (hfits : n ≤ m.limits.maxLength) :
    checkArrayLength n line m = .ok () m := by
  change
    (if n > m.limits.maxLength then raise .rangeError _ line else Pure.pure () : Exec Unit) m = _
  rw [if_neg (Nat.not_lt.mpr hfits)]
  rfl

theorem checkArrayLength_of_gt {n : Nat} (hlong : n > m.limits.maxLength) :
    checkArrayLength n line m = raise .rangeError "Invalid array length" line m := by
  change
    (if n > m.limits.maxLength then raise .rangeError _ line else Pure.pure () : Exec Unit) m = _
  rw [if_pos hlong]

/-- The collected items become an array, unless there are too many. -/
theorem makeFlat_of_run
    (hrun : FlattensAll m.heap m.limits.maxLength depth items.toList #[] out) :
    out.size ≤ m.limits.maxLength ∧ makeFlat items depth line m =
        .ok (.object m.heap.size) { m with heap := m.heap.add (.array out) none } ∨
      out.size > m.limits.maxLength ∧
        makeFlat items depth line m = raise .rangeError "Invalid array length" line m := by
  unfold makeFlat
  rw [bind_of_ok (flattened_of_run hrun)]
  rcases Nat.lt_or_ge m.limits.maxLength out.size with hlong | hfits
  · exact .inr ⟨hlong, bind_of_error (checkArrayLength_of_gt hlong)⟩
  · exact .inl ⟨hfits, bind_of_ok (checkArrayLength_of_le hfits)⟩

/-- Values that stall are never flattened. -/
theorem makeFlat_of_stalls (hstalls : m.heap.Stalls m.limits.maxLength depth items.toList) :
    makeFlat items depth line m = .error .exhausted m := by
  have hnone : flatten m.heap m.limits.maxLength depth items = none := by
    rw [Option.eq_none_iff_forall_ne_some]
    intro out hout
    exact exists_flattensAll_iff.mp ⟨out, flattensAll_of_flatten hout⟩ hstalls
  refine bind_of_error (x := flattened items depth) ?_
  unfold flattened
  rw [bind_of_ok (show heap m = .ok m.heap m from rfl),
    bind_of_ok (show ceiling m = .ok m.limits.maxLength m from rfl), hnone]
  rfl

end Exec

/-- `flat` flattens the items of its receiver to the depth that it is given. -/
theorem Evaluator.callMethod_flat (ev : Evaluator) (args : List Value) (line : Nat)
    (hid : m.heap.body? id = some (.array items)) :
    ev.callMethod (.object id) "flat" args line m =
      Exec.makeFlat items (m.heap.levels m.limits.maxLength args) line m := by
  have hitems : (m.heap.items? (.object id)).getD #[] = items := by rw [Heap.items?, hid]; rfl
  have hmethod : ev.arrayMethod id "flat" args line m =
      (if (argument args 0).isUndefined then
        Exec.makeFlat ((m.heap.items? (.object id)).getD #[]) 1 line
      else Exec.number (argument args 0) >>= fun depth =>
        Exec.makeFlat ((m.heap.items? (.object id)).getD #[]) depth line : Exec Value) m := rfl
  refine (Exec.bind_of_ok (x := Exec.body? id) (a := m.heap.body? id) rfl).trans ?_
  rw [hid]
  refine hmethod.trans ?_
  rw [hitems, Heap.levels]
  split
  · rfl
  · exact Exec.bind_of_ok rfl

/-- **When `flat` comes to an end.**  It does just where the run over the elements does not stall,
and then gives a new array of all that the run added, or a RangeError if that is more than the
ceiling.  Where the run stalls there is no result at all. -/
theorem Evaluator.flat_ends_iff (ev : Evaluator) (args : List Value) (line : Nat)
    (hid : m.heap.body? id = some (.array items)) :
    ((∃ out, FlattensAll m.heap m.limits.maxLength (m.heap.levels m.limits.maxLength args)
        items.toList #[] out ∧
      (out.size ≤ m.limits.maxLength ∧ ev.callMethod (.object id) "flat" args line m =
          .ok (.object m.heap.size) { m with heap := m.heap.add (.array out) none } ∨
        out.size > m.limits.maxLength ∧ ev.callMethod (.object id) "flat" args line m =
          Exec.raise .rangeError "Invalid array length" line m)) ↔
      ¬ m.heap.Stalls m.limits.maxLength (m.heap.levels m.limits.maxLength args) items.toList) ∧
    (m.heap.Stalls m.limits.maxLength (m.heap.levels m.limits.maxLength args) items.toList →
      ev.callMethod (.object id) "flat" args line m = .error .exhausted m) := by
  rw [callMethod_flat ev args line hid]
  refine ⟨⟨fun ⟨out, hrun, _⟩ => exists_flattensAll_iff.mp ⟨out, hrun⟩, fun hstalls => ?_⟩,
    Exec.makeFlat_of_stalls⟩
  obtain ⟨out, hrun⟩ := exists_flattensAll_iff.mpr hstalls
  exact ⟨out, hrun, Exec.makeFlat_of_run hrun⟩

end

/-- A machine with an array of two arrays that are the same, which lies in a third one. -/
def nestedUse : Machine :=
  { Machine.initial .default with
    heap := ⟨#[⟨.array #[.object 1, .object 1], none, none, false⟩,
      ⟨.array #[.string "x"], none, none, false⟩,
      ⟨.array #[.null, .object 0, .object 1], none, none, false⟩]⟩ }

/-- The same machine with a new array. -/
def flattenedUse (out : Array Value) : Machine :=
  { nestedUse with heap := nestedUse.heap.add (.array out) none }

theorem not_isEndless_two : ¬ Number.IsEndless 2 := fun h => absurd (h 2) (by decide)

/-- Two levels are flattened, and there is nothing below them. -/
theorem nestedUse_flat_ends :
    nestedUse.heap.body? 2 = some (.array #[.null, .object 0, .object 1]) ∧
      ∃ out, FlattensAll nestedUse.heap nestedUse.limits.maxLength 2
          [.null, .object 0, .object 1] #[] out ∧
        (Evaluator.bounded 1).callMethod (.object 2) "flat" [.number 2] 1 nestedUse =
          .ok (.object 3) (flattenedUse out) ∧
        out = #[.null, .string "x", .string "x", .string "x"] := by
  have hid : nestedUse.heap.body? 2 = some (.array #[.null, .object 0, .object 1]) := rfl
  obtain ⟨out, hrun, hend⟩ := (Evaluator.flat_ends_iff (.bounded 1) [.number 2] 1 hid).1.mpr
    fun hstalls => not_isEndless_two hstalls.1
  have hflat : (Evaluator.bounded 1).callMethod (.object 2) "flat" [.number 2] 1 nestedUse =
      .ok (.object 3) (flattenedUse #[.null, .string "x", .string "x", .string "x"]) := rfl
  obtain ⟨-, hout⟩ | ⟨-, hout⟩ := hend
  · refine ⟨hid, out, hrun, hout, ?_⟩
    have hmachine : flattenedUse out = flattenedUse _ :=
      (EStateM.Result.ok.inj (hout.symm.trans hflat)).2
    have hbody : some (Body.array out) = some (.array _) :=
      congrArg (fun m => m.heap.body? 3) hmachine
    exact Body.array.inj (Option.some.inj hbody)
  · cases hout.symm.trans hflat

/-- A machine with an array whose only element is the array itself. -/
def selfArrayUse : Machine :=
  { Machine.initial .default with heap := ⟨#[⟨.array #[.object 0], none, none, false⟩]⟩ }

/-- **An array in itself is flattened without end** if there is no end of levels. -/
theorem selfArrayUse_never_flat :
    (¬ ∀ (h : Heap) (limit : Nat) (depth : Float) (items : Array Value),
      ∃ out, FlattensAll h limit depth items.toList #[] out) ∧
    (Evaluator.bounded 1).callMethod (.object 0) "flat" [.number Number.infinity] 1 selfArrayUse =
      .error .exhausted selfArrayUse := by
  have hsinks : selfArrayUse.heap.Sinks (.object 0) (.object 0) := ⟨#[.object 0], rfl, .head⟩
  have hstalls : selfArrayUse.heap.Stalls selfArrayUse.limits.maxLength Number.infinity
      [.object 0] :=
    ⟨Number.isEndless_infinity, .object 0, .here (Nat.zero_le _) rfl Number.isEndless_infinity.ge,
      .single hsinks⟩
  refine ⟨fun hall => ?_, ?_⟩
  · exact exists_flattensAll_iff.mp (hall _ _ _ #[.object 0]) hstalls
  · have hid : selfArrayUse.heap.body? 0 = some (.array #[.object 0]) := rfl
    rw [Evaluator.callMethod_flat _ _ _ hid]
    exact Exec.makeFlat_of_stalls hstalls

end ScriptTrace
