import Mathlib.Data.List.Forall2
import ScriptTrace.Proofs.Reading
import ScriptTrace.Proofs.Traversal.Trail

/-!
# Proofs/Traversal/Picture — what is shown of a value

A picture is a finite tree: objects are opened, left out with only their kind shown, or marked as
circular.  Every value of a heap without dangling names has a picture, however its objects hold one
another, and the text of that picture is what a console shows (`exists_depicts`).  The rules of
`Depicts` tell by the objects around a value what its picture is; they hold at each place inside a
picture, with the objects that are opened around that place (`Depicts.of_holds`).
-/

namespace ScriptTrace

/-! ## Objects and what is inside them -/

/-- An error of the language by its class; errors are shown by name and message only. -/
def HeapObject.isError (o : HeapObject) : Bool :=
  match o.body with
  | .plain _ => o.className.any isErrorClass
  | _ => false

/-- **Objects that hold data**: arrays and plain objects that are not empty. -/
def HeapObject.isFilled (o : HeapObject) : Bool :=
  match o.body with
  | .plain props => !props.isEmpty
  | .array items => !items.isEmpty
  | _ => false

/-- The values that are shown inside an object when it is opened. -/
def HeapObject.shown (o : HeapObject) : List Value :=
  match o.body with
  | .plain props => if o.isError then [] else props.entries.map Prod.snd
  | .array items => (items.take Inspect.itemLimit).toList
  | .promise record =>
    match record.state with
    | .pending => []
    | .fulfilled v | .rejected v => [v]
  | _ => []

/-- The world of the objects that are in a heap. -/
def Heap.world (h : Heap) : World := {e | ∀ id, e = .object id → id < h.size}

/-- The object that a value names is in the heap. -/
abbrev Heap.Knows (h : Heap) (v : Value) : Prop := Within h.world v

/-- **A heap without dangling names**: all objects that its objects name are in it. -/
abbrev Heap.IsLive (h : Heap) : Prop := Within h.world h

@[simp] theorem Heap.object_mem_world {h : Heap} {id : ObjectId} :
    Entity.object id ∈ h.world ↔ id < h.size :=
  ⟨fun hid => hid id rfl, fun hid other heq => by cases heq; exact hid⟩

theorem Heap.knows_object {h : Heap} {id : ObjectId} : h.Knows (.object id) ↔ id < h.size :=
  within_object.trans Heap.object_mem_world

theorem Heap.exists_of_lt_size {h : Heap} {id : ObjectId} (hid : id < h.size) :
    ∃ o, h.get? id = some o := ⟨_, Array.getElem?_eq_getElem hid⟩

namespace Inspect

/-- The text of an opened object around the texts of what is inside it. -/
def framed (h : Heap) (o : HeapObject) (inside : List String) : String :=
  match o.body with
  | .plain props =>
    let members := List.zipWith (fun e t => key e.1 ++ ": " ++ t) props.entries inside
    match o.className with
    | some c => if isErrorClass c then errorText c props else plainText (some c) members
    | none => plainText none members
  | .array items => if items.isEmpty then "[]" else arrayText inside items.size
  | .promise record =>
    match record.state with
    | .pending => "Promise \x7b <pending> \x7d"
    | .fulfilled _ => "Promise \x7b " ++ String.join inside ++ " \x7d"
    | .rejected _ => "Promise \x7b <rejected> " ++ String.join inside ++ " \x7d"
  | _ => bodyText h (fun _ => "") o

end Inspect

/-! ## Pictures -/

/-- **What is shown of a value.** -/
inductive Picture where
  /-- A value that is no object, by its text. -/
  | word (text : String)
  /-- The mark of an object inside itself. -/
  | circular (id : ObjectId)
  /-- An object by its kind alone. -/
  | kind (id : ObjectId)
  /-- An object and what is shown of the values inside it. -/
  | opened (id : ObjectId) (inside : List Picture)

namespace Picture

/-- The object that is shown. -/
def object? : Picture → Option ObjectId
  | .word _ => none
  | .circular id | .kind id | .opened id _ => some id

mutual

/-- The text of a picture. -/
def text (h : Heap) : Picture → String
  | .word t => t
  | .circular _ => "[Circular]"
  | .kind id => ((h.get? id).bind Inspect.collapsed?).getD ""
  | .opened id inside => ((h.get? id).map fun o => Inspect.framed h o (texts h inside)).getD ""

/-- The texts of the items of a picture. -/
def texts (h : Heap) : List Picture → List String
  | [] => []
  | p :: ps => text h p :: texts h ps

end

/-- **A picture inside another one**, with the objects that are opened around it, the innermost
first. -/
inductive Holds : Picture → List ObjectId → Picture → Prop
  | self (p : Picture) : Holds p [] p
  | inside {id : ObjectId} {ps : List Picture} {p q : Picture} {around : List ObjectId} (hp : p ∈ ps)
    (hq : Holds p around q) : Holds (.opened id ps) (around ++ [id]) q

end Picture

mutual

/-- **The picture of a value inside some objects.**  An object inside itself is marked; one
with more than two objects around it is left out, unless it is empty or an error; all others
are opened. -/
inductive Depicts (h : Heap) : List ObjectId → Value → Picture → Prop
  | word {around : List ObjectId} {v : Value} (hv : v.objectId? = none) :
    Depicts h around v (.word (h.inspect v))
  | circular {around : List ObjectId} {id : ObjectId} (hid : id ∈ around) :
    Depicts h around (.object id) (.circular id)
  | kind {around : List ObjectId} {id : ObjectId} {o : HeapObject} (hid : id ∉ around)
    (ho : h.get? id = some o) (hdeep : 2 < around.length) (hfilled : o.isFilled = true)
    (herror : o.isError = false) : Depicts h around (.object id) (.kind id)
  | opened {around : List ObjectId} {id : ObjectId} {o : HeapObject} {inside : List Picture}
    (hid : id ∉ around) (ho : h.get? id = some o)
    (hopen : around.length ≤ 2 ∨ o.isFilled = false ∨ o.isError = true)
    (hinside : DepictsAll h (id :: around) o.shown inside) :
    Depicts h around (.object id) (.opened id inside)

/-- The pictures of some values, one behind the other. -/
inductive DepictsAll (h : Heap) : List ObjectId → List Value → List Picture → Prop
  | nil {around : List ObjectId} : DepictsAll h around [] []
  | cons {around : List ObjectId} {v : Value} {vs : List Value} {p : Picture} {ps : List Picture}
    (hv : Depicts h around v p) (hvs : DepictsAll h around vs ps) :
    DepictsAll h around (v :: vs) (p :: ps)

end

section

variable {h : Heap} {around : List ObjectId} {v : Value} {vs : List Value} {p q : Picture}
  {ps : List Picture} {o : HeapObject}

/-- Each picture of several is the picture of a value. -/
theorem DepictsAll.exists_of_mem (hps : DepictsAll h around vs ps) (hp : p ∈ ps) :
    ∃ v, Depicts h around v p := by
  induction ps generalizing vs with
  | nil => cases hp
  | cons q ps ih =>
    cases hps with
    | cons hv hvs =>
      rcases List.mem_cons.mp hp with rfl | hp
      · exact ⟨_, hv⟩
      · exact ih hvs hp

/-- **The rules hold at each place inside a picture.** -/
theorem Depicts.of_holds {inner : List ObjectId} (hp : Depicts h around v p)
    (hq : p.Holds inner q) : ∃ w, Depicts h (inner ++ around) w q := by
  induction hq generalizing around v with
  | self => exact ⟨v, hp⟩
  | inside hmem _ ih =>
    cases hp with
    | opened _ _ _ hinside =>
      obtain ⟨w, hw⟩ := hinside.exists_of_mem hmem
      rw [List.append_assoc]
      exact ih hw

/-- An object is marked as circular just inside itself. -/
theorem Depicts.circular_iff {id : ObjectId} (hp : Depicts h around v p)
    (hid : p.object? = some id) : p = .circular id ↔ id ∈ around := by
  cases hp with
  | word => cases hid
  | circular hin =>
    cases hid
    exact ⟨fun _ => hin, fun _ => rfl⟩
  | kind hout | opened hout =>
    cases hid
    exact ⟨nofun, fun hin => absurd hin hout⟩

/-- **Filled data deep inside others are not opened**; an error shows nothing that it holds. -/
theorem Depicts.not_filled_of_opened {id : ObjectId} {inside : List Picture}
    (hp : Depicts h around v (.opened id inside)) (hdeep : 2 < around.length) :
    ∃ o, h.get? id = some o ∧ (o.isFilled = false ∨ o.isError = true ∧ inside = []) := by
  cases hp with
  | @opened _ _ o _ _ ho hopen hinside =>
    refine ⟨o, ho, ?_⟩
    rcases hopen with hflat | hempty | herror
    · omega
    · exact .inl hempty
    · refine .inr ⟨herror, ?_⟩
      have hshown : o.shown = [] := by
        unfold HeapObject.shown
        cases hb : o.body with
        | plain props => simp [herror]
        | array | closure | bound | method | promise | resolver =>
          simp [HeapObject.isError, hb] at herror
      rw [hshown] at hinside
      cases hinside
      rfl

/-! ## Every value has a picture -/

/-- Only an error, or an object without contents, is not collapsed. -/
theorem Inspect.collapsed?_eq_none :
    Inspect.collapsed? o = none ↔ o.isFilled = false ∨ o.isError = true := by
  unfold collapsed? HeapObject.isFilled HeapObject.isError
  cases o.body with
  | plain props =>
    dsimp only
    generalize props.isEmpty = e
    cases e with
    | true => simp
    | false =>
      cases o.className with
      | none => simp
      | some c => cases hc : isErrorClass c <;> simp [hc]
  | array items => cases hi : items.isEmpty <;> simp [hi]
  | closure | bound | method | promise | resolver => simp

/-- What an opened object shows depends on the texts of what is inside it. -/
theorem Inspect.bodyText_eq (inner : Value → String) :
    bodyText h inner o = framed h o (o.shown.map inner) := by
  obtain ⟨body, label, className, frozen⟩ := o
  cases body with
  | plain props =>
    cases className with
    | none => simp [bodyText, framed, HeapObject.shown, HeapObject.isError, List.zipWith_map_right]
    | some c =>
      cases herror : isErrorClass c <;>
        simp [bodyText, framed, HeapObject.shown, HeapObject.isError, herror,
          List.zipWith_map_right]
  | array items => rfl
  | closure | bound | method | resolver => rfl
  | promise record =>
    obtain ⟨state, reactions⟩ := record
    cases state with
    | pending => rfl
    | fulfilled v | rejected v => simp [bodyText, framed, HeapObject.shown, String.join]

/-- If each value has a picture, they have pictures together. -/
theorem exists_depictsAll {f : Value → String}
    (hvs : ∀ v ∈ vs, ∃ p, Depicts h around v p ∧ f v = p.text h) :
    ∃ ps, DepictsAll h around vs ps ∧ vs.map f = Picture.texts h ps := by
  induction vs with
  | nil => exact ⟨[], .nil, rfl⟩
  | cons v vs ih =>
    obtain ⟨p, hp, htext⟩ := hvs v List.mem_cons_self
    obtain ⟨ps, hps, htexts⟩ := ih fun w hw => hvs w (List.mem_cons_of_mem v hw)
    refine ⟨p :: ps, .cons hp hps, ?_⟩
    rw [List.map_cons, htext, htexts, Picture.texts]

/-- What a heap without dangling names shows of an object is in the heap. -/
theorem Heap.IsLive.knows_of_mem_shown {id : ObjectId} (hlive : h.IsLive) (ho : h.get? id = some o)
    (hv : v ∈ o.shown) : h.Knows v := by
  have hbody : Within h.world o.body := within_option.mp hlive.get? o ho
  unfold HeapObject.shown at hv
  split at hv
  · rename_i props hb
    rw [hb, within_plainBody, within_props] at hbody
    split at hv
    · cases hv
    · obtain ⟨e, he, rfl⟩ := List.mem_map.mp hv
      exact within_entry.mp (hbody.of_mem he)
  · rename_i items hb
    rw [hb, within_arrayBody] at hbody
    have htake : (items.take Inspect.itemLimit).toList = items.toList.take Inspect.itemLimit := by
      simp
    exact (within_toList.mpr hbody).of_mem (List.mem_of_mem_take (htake ▸ hv))
  · rename_i record hb
    rw [hb, within_promiseBody, within_record] at hbody
    split at hv
    · cases hv
    all_goals
      rename_i hstate
      rw [List.mem_singleton.mp hv]
      simpa only [hstate, within_fulfilled, within_rejected] using hbody.1
  · cases hv

/-- A value that is no object is shown alike at every place. -/
theorem Inspect.textWithin_of_objectId? {fuel : Nat} (hv : v.objectId? = none) :
    textWithin h fuel around v = h.inspect v := by
  cases v with
  | object id => cases hv
  | undefined | null | bool | number | string | function | host | globalThis =>
    unfold Heap.inspect textWithin
    rfl

/-- What is shown of an object that is not around, where there is room for it. -/
theorem Inspect.textWithin_object {fuel : Nat} {id : ObjectId} (hid : id ∉ around)
    (ho : h.get? id = some o) :
    textWithin h (fuel + 1) around (.object id) =
      ((if around.length > depthLimit then collapsed? o else none).getD
        (framed h o (o.shown.map (textWithin h fuel (id :: around))))) := by
  rw [← bodyText_eq]
  conv_lhs => unfold textWithin
  simp only [List.contains_iff_mem, hid, ite_false, ho]
  generalize (if around.length > depthLimit then collapsed? o else none) = short
  cases short with
  | none => rfl
  | some text => rfl

/-- **Each value has a picture, and its text is what is shown.** -/
theorem Inspect.exists_depicts (hlive : h.IsLive) {fuel : Nat} (ht : Trail h fuel around)
    (hv : h.Knows v) : ∃ p, Depicts h around v p ∧ textWithin h fuel around v = p.text h := by
  induction fuel using Nat.strong_induction_on generalizing around v with
  | h fuel ih =>
    cases v with
    | undefined | null | bool | number | string | function | host | globalThis =>
      exact ⟨_, .word rfl, textWithin_of_objectId? rfl⟩
    | object id =>
      by_cases hin : id ∈ around
      · refine ⟨_, .circular hin, ?_⟩
        unfold textWithin
        simp only [List.contains_iff_mem.mpr hin, if_true, Picture.text]
      obtain ⟨room, rfl, ht'⟩ := ht.enter (Heap.knows_object.mp hv) hin
      obtain ⟨o, ho⟩ : ∃ o, h.get? id = some o := Heap.exists_of_lt_size (Heap.knows_object.mp hv)
      rw [textWithin_object hin ho]
      by_cases hshort : 2 < around.length ∧ o.isFilled = true ∧ o.isError = false
      · obtain ⟨hdeep, hfilled, herror⟩ := hshort
        refine ⟨_, .kind hin ho hdeep hfilled herror, ?_⟩
        obtain ⟨t, htext⟩ : ∃ t, collapsed? o = some t :=
          Option.ne_none_iff_exists'.mp fun hnone =>
            (collapsed?_eq_none.mp hnone).elim (by simp [hfilled]) (by simp [herror])
        rw [if_pos (show around.length > depthLimit from hdeep), htext, Picture.text, ho,
          Option.bind_some, htext]
        rfl
      · -- What is opened shows its inside, each value with one object more around it.
        have hopen : around.length ≤ 2 ∨ o.isFilled = false ∨ o.isError = true := by
          rw [not_and_or, not_and_or] at hshort
          simpa using hshort
        obtain ⟨ps, hps, htexts⟩ := exists_depictsAll fun w hw =>
          ih room (Nat.lt_succ_self room) ht' (hlive.knows_of_mem_shown ho hw)
        have hnone : (if around.length > depthLimit then collapsed? o else none) = none := by
          rcases hopen with hflat | hempty
          · exact if_neg (Nat.not_lt.mpr hflat)
          · rw [collapsed?_eq_none.mpr hempty, ite_self]
        refine ⟨_, .opened hin ho hopen hps, ?_⟩
        rw [hnone, htexts, Picture.text, ho]
        rfl

end

end ScriptTrace
