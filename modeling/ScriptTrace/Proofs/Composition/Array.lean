import ScriptTrace.Proofs.Composition.Promise

/-!
# Proofs/Composition/Array — methods of arrays

Callbacks are the only places where a method of an array asks the evaluator.
-/

namespace ScriptTrace

namespace Plain

variable {l : Layer} {W : World}

theorem relativeArgument {v : Value} {n missing : Nat} :
    Plain l W (Exec.relativeArgument v n missing) Any :=
  .ite (fun _ => .pure trivial) fun _ => .map number fun _ _ => trivial

/-- The new items of an array take the place of the old ones, unless it is frozen. -/
theorem replaceItems {id : ObjectId} {method : String} {items : Array Value} {line : Nat}
    (hid : .object id ∈ W) (hi : Within W items) :
    Plain l W (Exec.replaceItems id method items line) Any := by
  refine write fun h _ => .withHeap ?_
  split
  · rename_i o ho
    refine .ite (fun _ => .misuse rfl) fun hopen => ?_
    split
    · exact .items hid hi ho hopen
    · exact .misuse rfl
  · exact .skip

/-- To join texts reads the heap and changes nothing. -/
theorem joinTexts {id : ObjectId} {separator : String} {line : Nat} :
    ∀ {first : Bool} {out : String} {vs : List Value},
      Plain l W (Exec.joinTexts id separator line first out vs) Any
  | _, _, [] => .pure trivial
  | _, _, v :: vs => by
    have hrest (out : String) : Plain l W (do
        Exec.checkStringLength out.utf8ByteSize line
        Exec.joinTexts id separator line false out vs) Any :=
      .bind checkStringLength fun _ _ => joinTexts
    unfold Exec.joinTexts
    refine .ite (fun _ => ?_) fun _ => .bind text fun _ _ => ?_
    all_goals exact .bind (P := Any) (.pure trivial) fun out _ => hrest out

/-- What arrays and values give together comes from them. -/
theorem concatAll {line : Nat} : ∀ {out : Array Value} {vs : List Value}, Within W out →
    Within W vs → Plain l W (Exec.concatAll line out vs) (Within W)
  | _, [], ho, _ => .pure ho
  | out, v :: vs, ho, hvs => by
    obtain ⟨hv, hvs⟩ := within_cons.mp hvs
    refine withHeap fun h hh => ?_
    split
    · rename_i items hi
      refine .bind checkArrayLength fun _ _ => concatAll ?_ hvs
      exact within_arrayAppend.mpr ⟨ho, within_some.mp (hi ▸ hh.items?)⟩
    · exact concatAll (ho.push hv) hvs

theorem callback {args : List Value} {method : String} {line : Nat} (ha : Within W args) :
    Plain l W (Exec.callback args method line) (Within W) := by
  refine .bind isCallable fun c _ => .ite (fun _ => .pure (ha.argument 0)) fun _ => ?_
  exact .bind inspect fun _ _ => never (misuse rfl)

theorem announcedLength {v : Value} : Plain l W (Exec.announcedLength v) Any :=
  .map number fun _ _ => trivial

/-- The items that `Array.from` takes come from its source. -/
theorem sourceItems {source : Value} {line : Nat} :
    Plain l W (Exec.sourceItems source line) (Within W) := by
  unfold Exec.sourceItems
  split
  · exact iterate
  · refine .bind body? fun b hb => ?_
    split
    · exact .pure hb
    · rename_i props
      split
      · exact .pure (within_toArray.mpr within_nil)
      · refine .bind announcedLength fun n _ => .bind checkArrayLength fun _ _ => .pure ?_
        refine within_toArray.mpr (within_list.mpr fun v hv => ?_)
        obtain ⟨i, -, rfl⟩ := List.mem_map.mp hv
        have hp : Within W (props.get? (toString i)) := Within.propsGet? hb
        cases h : props.get? (toString i) with
        | none => exact within_undefined
        | some v => exact within_some.mp (h ▸ hp)
    · exact .pure (within_toArray.mpr within_nil)
  · exact .pure (within_toArray.mpr within_nil)

end Plain

/-! ## Flattening -/

section

variable {W : World} {h : Heap} {limit : Nat}

/-- If what each item gives is known, so is what all of them give. -/
theorem within_flattenList {item : Value → Array Value → Option (Array Value)}
    (hitem : ∀ v out out', Within W v → Within W out → item v out = some out' → Within W out') :
    ∀ {vs : List Value} {out out' : Array Value}, Within W vs → Within W out →
      flattenList limit item vs out = some out' → Within W out'
  | [], _, _, _, ho, h => Option.some.inj h ▸ ho
  | v :: vs, out, out', hvs, ho, h => by
    obtain ⟨hv, hvs⟩ := within_cons.mp hvs
    unfold flattenList at h
    split at h
    · exact Option.some.inj h ▸ ho
    · obtain ⟨mid, hmid, h⟩ := Option.bind_eq_some_iff.mp h
      exact within_flattenList hitem hvs (hitem v out mid hv ho hmid) h

/-- What `flat` takes out of arrays lies on the heap already. -/
theorem within_flattenItem (hh : Within W h) : ∀ {fuel : Nat} {depth : Float} {v : Value}
    {out out' : Array Value}, Within W v → Within W out →
      flattenItem h limit fuel depth v out = some out' → Within W out'
  | fuel, depth, v, out, out', hv, ho, hf => by
    unfold flattenItem at hf
    split at hf
    · rename_i items fuel hi _
      have hitems : Within W items := within_some.mp (hi ▸ hh.items?)
      exact within_flattenList (fun _ _ _ hv ho hf => within_flattenItem hh hv ho hf)
        (within_toList.mpr hitems) ho hf
    · cases hf
    · exact Option.some.inj hf ▸ ho.push hv

theorem within_flatten {depth : Float} {items all : Array Value} (hh : Within W h)
    (hi : Within W items) (hf : flatten h limit depth items = some all) : Within W all :=
  within_flattenList (fun _ _ _ hv ho hf => within_flattenItem hh hv ho hf)
    (within_toList.mpr hi) (within_toArray.mpr within_nil) hf

end

namespace Action

variable {l : Layer} {W : World}

/-! ## Sorting -/

/-- A comparison only calls the comparator. -/
theorem order {comparator : Option Value} {line : Nat} {a b : Value}
    (hc : Within W comparator) (ha : Within W a) (hb : Within W b) :
    Action l W (fun ev => ev.order comparator line a b) Free := by
  unfold Evaluator.order
  split
  · exact .pure trivial
  · exact .pure trivial
  · exact .pure trivial
  · split
    · refine .bind (apply hc within_undefined ?_) fun _ _ v _ => ?_
      · exact within_cons.mpr ⟨ha, within_cons.mpr ⟨hb, within_nil⟩⟩
      · exact .seq .number fun _ _ => .pure trivial
    · exact .seq .text fun _ _ => .seq .text fun _ _ => .pure trivial

/-- The items behind which a value belongs are compared with it one by one. -/
theorem insertSorted {comparator : Option Value} {line : Nat} {v : Value} :
    ∀ {W : World} {before : List Value}, Within W comparator → Within W v → Within W before →
      Action l W (fun ev => ev.insertSorted comparator line v before) Within
  | _, [], _, hv, _ => .pure (within_cons.mpr ⟨hv, within_nil⟩)
  | W, last :: before, hc, hv, hb => by
    obtain ⟨hlast, hbefore⟩ := within_cons.mp hb
    unfold Evaluator.insertSorted
    refine .bind (order hc hlast hv) fun W₁ h₁ o _ => .ite (fun _ => ?_) fun _ => ?_
    · refine .map (insertSorted (hc.mono h₁) (hv.mono h₁) (hbefore.mono h₁)) fun W₂ h₂ _ h => ?_
      exact within_cons.mpr ⟨hlast.mono (h₁.trans h₂), h⟩
    · exact .pure ((within_cons.mpr ⟨hv, hb⟩).mono h₁)

/-- The values are put among the sorted ones one by one. -/
theorem sortFrom {comparator : Option Value} {line : Nat} :
    ∀ {W : World} {sorted vs : List Value}, Within W comparator → Within W sorted → Within W vs →
      Action l W (fun ev => ev.sortFrom comparator line sorted vs) Within
  | _, _, [], _, hs, _ => .pure (within_reverse.mpr hs)
  | W, sorted, v :: vs, hc, hs, hvs => by
    obtain ⟨hv, hvs⟩ := within_cons.mp hvs
    unfold Evaluator.sortFrom
    exact .bind (insertSorted hc hv hs) fun W₁ h₁ _ h => sortFrom (hc.mono h₁) h (hvs.mono h₁)

/-- To sort gives back the same values. -/
theorem sorted {items : Array Value} {comparator : Value} {line : Nat} (hi : Within W items)
    (hc : Within W comparator) :
    Action l W (fun ev => ev.sorted items comparator line) Within := by
  refine .seq .isCallable fun c _ => .ite (fun _ => ?_) fun _ => .ite (fun _ => ?_) fun _ => ?_
  · exact .map (sortFrom (within_some.mpr hc) within_nil hi) fun _ _ _ h => within_toArray.mpr h
  · exact .map (sortFrom within_none within_nil hi) fun _ _ _ h => within_toArray.mpr h
  · exact .never (.misuse rfl)

/-! ## Callbacks -/

/-- **Going through the elements**: `next` may do whatever the rest may. -/
theorem eachItem {β : Type} {id : ObjectId} {f : Value} {line : Nat} {done : Exec β}
    {next : Value → Nat → Value → Exec β → Exec β} {Q : World → β → Prop}
    (hdone : ∀ W, Action l W (fun _ => done) Q)
    (hnext : ∀ W v n answer (rest : Evaluator → Exec β), Within W v → Within W answer →
      Action l W rest Q → Action l W (fun ev => next v n answer (rest ev)) Q) :
    ∀ {W : World} {n : Nat} {vs : List Value}, .object id ∈ W → Within W f → Within W vs →
      Action l W (fun ev => ev.eachItem id f line done next n vs) Q
  | W, _, [], _, _, _ => hdone W
  | W, n, v :: vs, hid, hf, hvs => by
    obtain ⟨hv, hvs⟩ := within_cons.mp hvs
    unfold Evaluator.eachItem
    have hargs : Within W [v, .count n, .object id] := by simp [hv, hid]
    refine .bind (apply hf within_undefined hargs) fun W₁ h₁ answer ha => ?_
    exact hnext W₁ v n answer _ (hv.mono h₁) ha
      (eachItem hdone hnext (h₁ hid) (hf.mono h₁) (hvs.mono h₁))

section

variable {id : ObjectId} {f : Value} {line : Nat} {items : List Value}

theorem mapItems (hid : .object id ∈ W) (hf : Within W f) (hi : Within W items) :
    Action l W (fun ev => ev.mapItems id f line items) Within :=
  eachItem (fun _ => .pure within_nil)
    (fun _ _ _ _ _ _ ha hrest => .map hrest fun _ h _ hr => within_cons.mpr ⟨ha.mono h, hr⟩)
    hid hf hi

theorem filterItems (hid : .object id ∈ W) (hf : Within W f) (hi : Within W items) :
    Action l W (fun ev => ev.filterItems id f line items) Within := by
  refine eachItem (fun _ => .pure within_nil) (fun W v n answer rest hv _ hrest => ?_) hid hf hi
  refine .ite (fun _ => ?_) fun _ => hrest
  exact .map hrest fun _ h _ hr => within_cons.mpr ⟨hv.mono h, hr⟩

theorem findItem? (hid : .object id ∈ W) (hf : Within W f) (hi : Within W items) :
    Action l W (fun ev => ev.findItem? id f line items) fun W' found =>
      Within W' (found.map Prod.fst) := by
  refine eachItem (Q := fun W' (found : Option (Value × Nat)) => Within W' (found.map Prod.fst))
    (fun _ => .pure within_none) (fun W v n answer rest hv _ hrest => ?_) hid hf hi
  exact .ite (fun _ => .pure hv) fun _ => hrest

theorem someItem {wanted : Bool} (hid : .object id ∈ W) (hf : Within W f)
    (hi : Within W items) : Action l W (fun ev => ev.someItem id f wanted line items) Free := by
  refine eachItem (fun _ => .pure trivial) (fun _ _ _ _ _ _ _ hrest => ?_) hid hf hi
  exact .ite (fun _ => .pure trivial) fun _ => hrest

end

/-- The function is called for one item after the other. -/
theorem mapPlaces {f : Value} {line : Nat} : ∀ {W : World} {n : Nat} {vs : List Value},
    Within W f → Within W vs → Action l W (fun ev => ev.mapPlaces f line n vs) Within
  | _, _, [], _, _ => .pure within_nil
  | W, n, v :: vs, hf, hvs => by
    obtain ⟨hv, hvs⟩ := within_cons.mp hvs
    unfold Evaluator.mapPlaces
    have hargs : Within W [v, .count n] := by simp [hv]
    refine .bind (apply hf within_undefined hargs) fun W₁ h₁ answer ha => ?_
    refine .map (mapPlaces (hf.mono h₁) (hvs.mono h₁)) fun W₂ h₂ _ h => ?_
    exact within_cons.mpr ⟨ha.mono h₂, h⟩

/-- The function is called with what came of the items before. -/
theorem reduceItems {id : ObjectId} {f : Value} {line : Nat} :
    ∀ {W : World} {n : Nat} {acc : Value} {vs : List Value}, .object id ∈ W → Within W f →
      Within W acc → Within W vs →
        Action l W (fun ev => ev.reduceItems id f line n acc vs) Within
  | _, _, _, [], _, _, ha, _ => .pure ha
  | W, n, acc, v :: vs, hid, hf, ha, hvs => by
    obtain ⟨hv, hvs⟩ := within_cons.mp hvs
    unfold Evaluator.reduceItems
    have hargs : Within W [acc, v, .count n, .object id] := by simp [ha, hv, hid]
    refine .bind (apply hf within_undefined hargs) fun W₁ h₁ acc ha => ?_
    exact reduceItems (h₁ hid) (hf.mono h₁) ha (hvs.mono h₁)

/-! ## Methods -/

/-- Replacing the elements of an array and giving a result that is known before. -/
theorem replaceThen {id : ObjectId} {method : String} {items : Array Value} {line : Nat}
    {v : Value} (hid : .object id ∈ W) (hi : Within W items) (hv : Within W v) :
    Action l W (fun _ => Exec.replaceItems id method items line >>= fun _ => Pure.pure v) Within :=
  .seq (.replaceItems hid hi) fun _ _ => .pure hv

theorem splice {id : ObjectId} {items inserted : Array Value} {start removed line : Nat}
    (hid : .object id ∈ W) (hi : Within W items) (hins : Within W inserted) :
    Action l W (fun _ => Exec.splice id items start removed inserted line) Within := by
  refine .seq .checkArrayLength fun _ _ => .seq (.replaceItems hid ?_) fun _ _ =>
    makeArray (hi.extract _ _)
  exact within_arrayAppend.mpr ⟨within_arrayAppend.mpr ⟨hi.extract _ _, hins⟩, hi.extract _ _⟩

theorem makeFlat {items : Array Value} {depth : Float} {line : Nat} (hi : Within W items) :
    Action l W (fun _ => Exec.makeFlat items depth line) Within := by
  refine .seq (.elementary (.flattened hi)) fun all hall => ?_
  exact .seq .checkArrayLength fun _ _ => makeArray hall

/-- **A method of an array** asks the evaluator for callbacks only. -/
theorem arrayMethod {id : ObjectId} {method : String} {args : List Value} {line : Nat}
    (hid : .object id ∈ W) (ha : Within W args) :
    Action l W (fun ev => ev.arrayMethod id method args line) Within := by
  refine .seq (.elementary .heap) fun h hh => ?_
  have hitems : Within W ((h.items? (.object id)).getD #[]) := by
    cases hi : h.items? (.object id) with
    | none => exact within_toArray.mpr within_nil
    | some items => exact within_some.mp (hi ▸ hh.items?)
  generalize (h.items? (.object id)).getD #[] = items at hitems
  have hfirst : Within W (argument args 0) := ha.argument 0
  have hargs : Within W args.toArray := within_toArray.mpr ha
  dsimp only
  split
  · refine .seq .checkArrayLength fun _ _ => ?_
    exact replaceThen hid (within_arrayAppend.mpr ⟨hitems, hargs⟩) within_count
  · exact replaceThen hid hitems.pop hitems.backD
  · exact replaceThen hid (hitems.extract _ _) (hitems.getD 0)
  · refine .seq .checkArrayLength fun _ _ => ?_
    exact replaceThen hid (within_arrayAppend.mpr ⟨hargs, hitems⟩) within_count
  · refine .seq .relativeArgument fun start _ => ?_
    split
    · exact .seq (P := Any) (.pure trivial) fun _ _ =>
        splice hid hitems (within_toArray.mpr (ha.drop 2))
    · exact .seq .number fun _ _ => .seq (P := Any) (.pure trivial) fun _ _ =>
        splice hid hitems (within_toArray.mpr (ha.drop 2))
  · exact replaceThen hid hitems.reverse (within_object.mpr hid)
  · refine .seq .relativeArgument fun start _ => .seq .relativeArgument fun stop _ => ?_
    exact replaceThen hid (hitems.overwrite hfirst _) (within_object.mpr hid)
  · refine .bind (sorted hitems hfirst) fun W₁ h₁ sorted hs => ?_
    exact replaceThen (h₁ hid) hs (within_object.mpr (h₁ hid))
  · exact .seq .relativeArgument fun start _ => .seq .relativeArgument fun stop _ =>
      makeArray (hitems.extract _ _)
  · exact .seq (.concatAll hitems ha) fun all hall => .seq .checkArrayLength fun _ _ =>
      makeArray hall
  · refine .ite (fun _ => .seq (P := Any) (.pure trivial) fun _ _ => ?_) fun _ =>
      .seq .text fun _ _ => ?_
    all_goals exact .seq .joinTexts fun _ _ => .pure within_string
  · exact .seq .joinTexts fun _ _ => .pure within_string
  · refine .seq .relativeArgument fun start _ => ?_
    split
    all_goals first | exact .pure within_count | exact .pure within_number
  · split
    all_goals first | exact .pure within_count | exact .pure within_number
  · exact .pure within_bool
  · refine .seq .number fun x _ => .pure ?_
    cases h : (elementPlace? items.size x).bind (items[·]?) with
    | none => exact within_undefined
    | some v =>
      obtain ⟨i, -, hv⟩ := Option.bind_eq_some_iff.mp h
      exact hitems.of_memArray (Array.mem_of_getElem? hv)
  · refine .ite (fun _ => ?_) fun _ => .seq .number fun _ _ => makeFlat hitems
    exact .seq (P := Any) (.pure trivial) fun _ _ => makeFlat hitems
  · exact .seq (.callback ha) fun f hf => .bind (.discard (mapItems hid hf hitems))
      fun _ _ _ _ => .pure within_undefined
  · refine .seq (.callback ha) fun f hf => .bind (mapItems hid hf hitems) fun _ _ answers h => ?_
    exact makeArray (within_toArray.mpr h)
  · refine .seq (.callback ha) fun f hf => .bind (filterItems hid hf hitems) fun _ _ kept h => ?_
    exact makeArray (within_toArray.mpr h)
  · refine .seq (.callback ha) fun f hf => .map (findItem? hid hf hitems) fun _ _ found h => ?_
    cases found with
    | none => exact within_undefined
    | some found => exact h
  · refine .seq (.callback ha) fun f hf => .map (findItem? hid hf hitems) fun _ _ found h => ?_
    cases found with
    | none => exact within_number
    | some found => exact within_count
  · exact .seq (.callback ha) fun f hf => .map (someItem hid hf hitems) fun _ _ _ _ => within_bool
  · exact .seq (.callback ha) fun f hf => .map (someItem hid hf hitems) fun _ _ _ _ => within_bool
  · refine .seq (.callback ha) fun f hf => ?_
    split
    · rename_i initial hinitial
      exact reduceItems hid hf (ha.of_mem (List.mem_of_getElem? hinitial))
        (within_toList.mpr hitems)
    · rename_i v vs _ hvs
      obtain ⟨hv, hvs⟩ := within_cons.mp (hvs ▸ within_toList.mpr hitems)
      exact reduceItems hid hf hv hvs
    · exact .never (.misuse rfl)
  · exact .never (.misuse rfl)

theorem arrayFrom {args : List Value} {line : Nat} (ha : Within W args) :
    Action l W (fun ev => ev.arrayFrom args line) Within := by
  refine .seq .sourceItems fun items hi => .seq .isCallable fun c _ => ?_
  refine .ite (fun _ => ?_) fun _ => makeArray hi
  exact .bind (mapPlaces (ha.argument 1) (within_toList.mpr hi)) fun _ _ _ h => makeArray h

theorem newArray {args : List Value} {line : Nat} (ha : Within W args) :
    Action l W (fun _ => Exec.newArray args line) Within := by
  unfold Exec.newArray
  split
  · exact .seq .arrayLength fun n _ => makeArray (within_replicate within_undefined)
  · exact makeArray (within_toArray.mpr ha)

end Action

end ScriptTrace
