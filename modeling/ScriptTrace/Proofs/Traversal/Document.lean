import Mathlib.Logic.Relation
import ScriptTrace.Proofs.Json.Tree
import ScriptTrace.Proofs.Traversal.Trail

/-!
# Proofs/Traversal/Document — what is written of any value

The document of a value is put together by going into arrays and plain objects.  `Drafts` tells the
walk as it is, without a bound on how deep they lie inside one another; every value has a draft
(`drafts_of_trail`).  A walk that fails has come back to an object that is around, and one that
succeeds has seen all that the value reaches, with nothing inside itself.  So `JSON.stringify` tells
circular values from those that only share what they hold (`stringify_ends`).
-/

namespace ScriptTrace

/-! ## Inside one another -/

/-- **One value holds another one in a document**: as an element or under a key. -/
inductive Heap.Encloses (h : Heap) : Value → Value → Prop
  | item {id : ObjectId} {items : Array Value} {w : Value} (hb : h.body? id = some (.array items))
    (hw : w ∈ items) : Encloses h (.object id) w
  | property {id : ObjectId} {props : Props} {e : String × Value}
    (hb : h.body? id = some (.plain props)) (he : e ∈ props.entries) :
    Encloses h (.object id) e.2

/-- **A value is circular**: something that it reaches, through elements and properties, can reach
itself again. -/
def Heap.IsCircular (h : Heap) (v : Value) : Prop :=
  ∃ w, Relation.ReflTransGen h.Encloses v w ∧ Relation.TransGen h.Encloses w w

/-! ## The walk -/

/-- The document of a value that is no data. -/
def leafDocument (h : Heap) (v : Value) : Option Json :=
  match v with
  | .undefined | .function _ => none
  | .null => some .null
  | .bool b => some (.bool b)
  | .number x => some (documentOfNumber x)
  | .string s => some (.string s)
  | .host o => if o.isCallable then none else some (.object [])
  | .globalThis => some (.object [])
  | .object id => if h.isPromise id then some (.object []) else none

mutual

/-- **What is written of a value**, with the objects around it and the estimated length of all that
was written before. -/
inductive Drafts (h : Heap) (limit : Nat) : List ObjectId → Value → Nat → Draft → Prop
  | tooLong {around : List ObjectId} {v : Value} {size : Nat}
    (hlong : size + estimatedLength v > limit) :
    Drafts h limit around v size (.error .tooLong)
  | leaf {around : List ObjectId} {v : Value} {size : Nat}
    (hfits : size + estimatedLength v ≤ limit) (hnew : ∀ id, v = .object id → id ∉ around)
    (hdata : ∀ id b, v = .object id → h.body? id = some b → b.isData = false) :
    Drafts h limit around v size (.ok (leafDocument h v, size + estimatedLength v))
  | circular {around : List ObjectId} {id : ObjectId} {size : Nat} (hfits : size + 1 ≤ limit)
    (hid : id ∈ around) : Drafts h limit around (.object id) size (.error .circular)
  | array {around : List ObjectId} {id : ObjectId} {items : Array Value} {size : Nat}
    {r : Except Unwritable (List Json × Nat)} (hfits : size + 1 ≤ limit) (hid : id ∉ around)
    (hb : h.body? id = some (.array items))
    (hall : DraftsItems h limit (id :: around) items.toList (size + 1) r) :
    Drafts h limit around (.object id) size (r.map fun p => (some (.array p.1), p.2))
  | plain {around : List ObjectId} {id : ObjectId} {props : Props} {size : Nat}
    {r : Except Unwritable (List (String × Json) × Nat)} (hfits : size + 1 ≤ limit)
    (hid : id ∉ around) (hb : h.body? id = some (.plain props))
    (hall : DraftsProps h limit (id :: around) props.entries (size + 1) r) :
    Drafts h limit around (.object id) size (r.map fun p => (some (.object p.1), p.2))

/-- What is written of elements one behind the other. -/
inductive DraftsItems (h : Heap) (limit : Nat) :
    List ObjectId → List Value → Nat → Except Unwritable (List Json × Nat) → Prop
  | nil {around : List ObjectId} {size : Nat} : DraftsItems h limit around [] size (.ok ([], size))
  | fails {around : List ObjectId} {v : Value} {vs : List Value} {size : Nat} {e : Unwritable}
    (hv : Drafts h limit around v size (.error e)) :
    DraftsItems h limit around (v :: vs) size (.error e)
  | cons {around : List ObjectId} {v : Value} {vs : List Value} {size size' : Nat}
    {j : Option Json} {r : Except Unwritable (List Json × Nat)}
    (hv : Drafts h limit around v size (.ok (j, size')))
    (hvs : DraftsItems h limit around vs size' r) :
    DraftsItems h limit around (v :: vs) size (r.map fun p => (j.getD .null :: p.1, p.2))

/-- What is written of properties one behind the other; those without a document are left out. -/
inductive DraftsProps (h : Heap) (limit : Nat) : List ObjectId → List (String × Value) → Nat →
    Except Unwritable (List (String × Json) × Nat) → Prop
  | nil {around : List ObjectId} {size : Nat} : DraftsProps h limit around [] size (.ok ([], size))
  | fails {around : List ObjectId} {k : String} {v : Value} {es : List (String × Value)}
    {size : Nat} {e : Unwritable} (hv : Drafts h limit around v size (.error e)) :
    DraftsProps h limit around ((k, v) :: es) size (.error e)
  | omitted {around : List ObjectId} {k : String} {v : Value} {es : List (String × Value)}
    {size size' : Nat} {r : Except Unwritable (List (String × Json) × Nat)}
    (hv : Drafts h limit around v size (.ok (none, size')))
    (hes : DraftsProps h limit around es size' r) :
    DraftsProps h limit around ((k, v) :: es) size r
  | cons {around : List ObjectId} {k : String} {v : Value} {es : List (String × Value)}
    {size size' : Nat} {j : Json} {r : Except Unwritable (List (String × Json) × Nat)}
    (hv : Drafts h limit around v size (.ok (some j, size')))
    (hes : DraftsProps h limit around es (size' + k.utf8ByteSize + 3) r) :
    DraftsProps h limit around ((k, v) :: es) size (r.map fun p => ((k, j) :: p.1, p.2))

end

section

variable {h : Heap} {limit fuel size : Nat} {around : List ObjectId} {v w : Value}
  {vs : List Value} {es : List (String × Value)} {id : ObjectId} {out : Draft}

/-! ## Every value has a draft -/

/-- What follows a step that gave something, in the shape that the rules have. -/
theorem bind_pure_eq_map {α β : Type} (r : Except Unwritable α) (f : α → β) :
    (r >>= fun a => pure (f a)) = r.map f := by
  cases r <;> rfl

/-- If each item is drafted, so are all of them. -/
theorem draftsItems_of_forall {item : Value → Nat → Draft}
    (hitem : ∀ v ∈ vs, ∀ size, Drafts h limit around v size (item v size)) :
    DraftsItems h limit around vs size (documentsOfItems item vs size) := by
  induction vs generalizing size with
  | nil => exact .nil
  | cons v vs ih =>
    have hv := hitem v List.mem_cons_self size
    have hvs (size : Nat) : DraftsItems h limit around vs size (documentsOfItems item vs size) :=
      ih fun w hw => hitem w (List.mem_cons_of_mem v hw)
    rw [documentsOfItems]
    cases hdraft : item v size with
    | error e => exact .fails (hdraft ▸ hv)
    | ok p =>
      change DraftsItems h limit around (v :: vs) size (documentsOfItems item vs p.2 >>= fun q =>
        pure (p.1.getD .null :: q.1, q.2))
      rw [bind_pure_eq_map]
      exact .cons (hdraft ▸ hv) (hvs p.2)

/-- If each property is drafted, so are all of them. -/
theorem draftsProps_of_forall {item : Value → Nat → Draft}
    (hitem : ∀ e ∈ es, ∀ size, Drafts h limit around e.2 size (item e.2 size)) :
    DraftsProps h limit around es size (documentsOfProps item es size) := by
  induction es generalizing size with
  | nil => exact .nil
  | cons e es ih =>
    have hv := hitem e List.mem_cons_self size
    have hes (size : Nat) : DraftsProps h limit around es size (documentsOfProps item es size) :=
      ih fun f hf => hitem f (List.mem_cons_of_mem e hf)
    obtain ⟨k, v⟩ := e
    rw [documentsOfProps]
    cases hdraft : item v size with
    | error e => exact .fails (hdraft ▸ hv)
    | ok p =>
      obtain ⟨_ | j, size'⟩ := p
      · exact .omitted (hdraft ▸ hv) (hes size')
      · change DraftsProps h limit around ((k, v) :: es) size
          (documentsOfProps item es (size' + k.utf8ByteSize + 3) >>= fun q =>
            pure ((k, j) :: q.1, q.2))
        rw [bind_pure_eq_map]
        exact .cons (hdraft ▸ hv) (hes _)

/-- **The walk comes to an end**: objects inside one another that are all different are no more than
the heap has. -/
theorem drafts_of_trail (ht : Trail h fuel around) :
    Drafts h limit around v size (documentWithin h limit fuel around v size) := by
  induction fuel using Nat.strong_induction_on generalizing around v size with
  | h fuel ih =>
    unfold documentWithin
    by_cases hlong : size + estimatedLength v > limit
    · rw [if_pos hlong]
      exact .tooLong hlong
    rw [if_neg hlong]
    have hfits := Nat.not_lt.mp hlong
    cases v with
    | undefined | null | bool | number | string | function | globalThis =>
      exact .leaf hfits (fun _ hv => by cases hv) (fun _ _ hv => by cases hv)
    | host o =>
      exact .leaf hfits (fun _ hv => by cases hv) (fun _ _ hv => by cases hv)
    | object id =>
      dsimp only
      by_cases hin : id ∈ around
      · rw [if_pos (List.contains_iff_mem.mpr hin)]
        exact .circular hfits hin
      rw [if_neg fun hmem => hin (List.contains_iff_mem.mp hmem)]
      have hleaf (hdata : ∀ b, h.body? id = some b → b.isData = false) :
          Drafts h limit around (.object id) size
            (.ok (if h.isPromise id then some (.object []) else none, size + 1)) :=
        .leaf hfits (fun _ hv => by cases hv; exact hin)
          fun other b hv hb => by cases hv; exact hdata b hb
      rw [Heap.isPromise] at hleaf
      cases hb : h.body? id with
      | none =>
        rw [hb] at hleaf
        exact hleaf (by simp)
      | some b =>
        rw [hb] at hleaf
        cases b with
        | closure | bound | method | promise | resolver =>
          exact hleaf (by rintro _ ⟨⟩; rfl)
        | array items =>
          obtain ⟨room, rfl, ht'⟩ := ht.enter (Heap.lt_size_of_body? hb) hin
          change Drafts h limit around (.object id) size
            (documentsOfItems (documentWithin h limit room (id :: around)) items.toList (size + 1) >>=
              fun p => pure (some (.array p.1), p.2))
          rw [bind_pure_eq_map]
          exact .array hfits hin hb (draftsItems_of_forall fun _ _ _ =>
            ih room (Nat.lt_succ_self room) ht')
        | plain props =>
          obtain ⟨room, rfl, ht'⟩ := ht.enter (Heap.lt_size_of_body? hb) hin
          change Drafts h limit around (.object id) size
            (documentsOfProps (documentWithin h limit room (id :: around)) props.entries (size + 1) >>=
              fun p => pure (some (.object p.1), p.2))
          rw [bind_pure_eq_map]
          exact .plain hfits hin hb (draftsProps_of_forall fun _ _ _ =>
            ih room (Nat.lt_succ_self room) ht')

/-! ## Walks that succeed -/

/-- Nothing that a value reaches is one of some objects, or lies inside itself. -/
def Heap.Clear (h : Heap) (around : List ObjectId) (v : Value) : Prop :=
  ∀ w, Relation.ReflTransGen h.Encloses v w →
    (∀ id ∈ around, w ≠ .object id) ∧ ¬ Relation.TransGen h.Encloses w w

/-- What is neither list nor object encloses nothing. -/
theorem Heap.not_encloses_of_isData
    (hdata : ∀ id b, v = .object id → h.body? id = some b → b.isData = false) :
    ¬ h.Encloses v w := by
  rintro (hb | hb) <;> cases hdata _ _ rfl hb

/-- What encloses nothing is clear of what is around it. -/
theorem Heap.Clear.leaf (hnew : ∀ id, v = .object id → id ∉ around)
    (hnone : ∀ w, ¬ h.Encloses v w) : h.Clear around v := by
  intro w hw
  obtain rfl : v = w := by
    rcases hw.cases_head with heq | ⟨u, hu, -⟩
    · exact heq
    · exact absurd hu (hnone u)
  refine ⟨fun id hid heq => hnew id heq hid, fun hcycle => ?_⟩
  obtain ⟨u, hu, -⟩ := Relation.TransGen.head'_iff.mp hcycle
  exact hnone u hu

/-- What is clear of an object has nothing in it that is around the object. -/
theorem Heap.Clear.enter (hid : id ∉ around)
    (hinside : ∀ u, h.Encloses (.object id) u → h.Clear (id :: around) u) :
    h.Clear around (.object id) := by
  intro w hw
  rcases hw.cases_head with rfl | ⟨u, hu, huw⟩
  · refine ⟨fun other hother heq => ?_, fun hcycle => ?_⟩
    · cases heq
      exact hid hother
    · obtain ⟨u, hu, hback⟩ := Relation.TransGen.head'_iff.mp hcycle
      exact (hinside u hu _ hback).1 id List.mem_cons_self rfl
  · obtain ⟨hother, hcycle⟩ := hinside u hu w huw
    exact ⟨fun x hx => hother x (List.mem_cons_of_mem id hx), hcycle⟩

/-- An array encloses its items alone. -/
theorem Heap.Encloses.mem_items {items : Array Value} (hw : h.Encloses (.object id) w)
    (hb : h.body? id = some (.array items)) : w ∈ items := by
  cases hw with
  | item hb' hw =>
    cases hb.symm.trans hb'
    exact hw
  | property hb' => cases hb.symm.trans hb'

/-- An object encloses the values of its properties alone. -/
theorem Heap.Encloses.exists_entry {props : Props} (hw : h.Encloses (.object id) w)
    (hb : h.body? id = some (.plain props)) : ∃ e ∈ props.entries, e.2 = w := by
  cases hw with
  | item hb' => cases hb.symm.trans hb'
  | property hb' he =>
    cases hb.symm.trans hb'
    exact ⟨_, he, rfl⟩

mutual

/-- **A walk that succeeds has seen all that the value reaches**, without any circle. -/
theorem Drafts.clear : ∀ {around : List ObjectId} {v : Value} {size : Nat} {out : Draft}
    {r : Option Json × Nat}, Drafts h limit around v size out → out = .ok r → h.Clear around v
  | _, _, _, _, _, .leaf _ hnew hdata, _ =>
    .leaf hnew fun _ => Heap.not_encloses_of_isData hdata
  | _, _, _, _, _, .array (r := .ok _) _ hid hb hall, _ => .enter hid fun u hu =>
    hall.clear rfl u (Array.mem_toList_iff.mpr (hu.mem_items hb))
  | _, _, _, _, _, .plain (r := .ok _) _ hid hb hall, _ => .enter hid fun u hu => by
    obtain ⟨e, he, rfl⟩ := hu.exists_entry hb
    exact hall.clear rfl e he

/-- Items that are written are clear of what is around them. -/
theorem DraftsItems.clear : ∀ {around : List ObjectId} {vs : List Value} {size : Nat}
    {out : Except Unwritable (List Json × Nat)} {r : List Json × Nat},
    DraftsItems h limit around vs size out → out = .ok r → ∀ v ∈ vs, h.Clear around v
  | _, _, _, _, _, .nil, _ => fun _ hv => by cases hv
  | _, _, _, _, _, .cons (r := .ok _) hv hvs, _ =>
    List.forall_mem_cons.mpr ⟨hv.clear rfl, hvs.clear rfl⟩

/-- Properties that are written are clear of what is around them. -/
theorem DraftsProps.clear : ∀ {around : List ObjectId} {es : List (String × Value)} {size : Nat}
    {out : Except Unwritable (List (String × Json) × Nat)} {r : List (String × Json) × Nat},
    DraftsProps h limit around es size out → out = .ok r → ∀ e ∈ es, h.Clear around e.2
  | _, _, _, _, _, .nil, _ => fun _ he => by cases he
  | _, _, _, _, _, .omitted hv hes, hout => List.forall_mem_cons.mpr ⟨hv.clear rfl, hes.clear hout⟩
  | _, _, _, _, _, .cons (r := .ok _) hv hes, _ =>
    List.forall_mem_cons.mpr ⟨hv.clear rfl, hes.clear rfl⟩

end

/-! ## Walks that fail -/

/-- What is enclosed is reached from everything around it. -/
theorem Heap.Encloses.reached (hw : h.Encloses (.object id) w)
    (haround : ∀ other ∈ around, Relation.TransGen h.Encloses (.object other) (.object id)) :
    ∀ other ∈ id :: around, Relation.TransGen h.Encloses (.object other) w :=
  List.forall_mem_cons.mpr ⟨.single hw, fun other hother => (haround other hother).tail hw⟩

/-- What encloses a circular value is circular. -/
theorem Heap.IsCircular.of_encloses (hvw : h.Encloses v w) (hw : h.IsCircular w) :
    h.IsCircular v := by
  obtain ⟨u, hwu, hcycle⟩ := hw
  exact ⟨u, .head hvw hwu, hcycle⟩

mutual

/-- **A walk that fails has gone in a circle**, where each object around reaches the value. -/
theorem Drafts.isCircular : ∀ {around : List ObjectId} {v : Value} {size : Nat} {out : Draft},
    Drafts h limit around v size out → out = .error .circular →
      (∀ id ∈ around, Relation.TransGen h.Encloses (.object id) v) → h.IsCircular v
  | _, .object id, _, _, .circular _ hid, _, haround => ⟨.object id, .refl, haround id hid⟩
  | _, _, _, _, .array (r := .error _) _ _ hb hall, hout, haround => by
    have hmem {u : Value} (hu : u ∈ _) := Heap.Encloses.item hb (Array.mem_toList_iff.mp hu)
    obtain ⟨u, hu, hcircular⟩ := hall.isCircular (by cases hout; rfl) fun u hu =>
      (hmem hu).reached haround
    exact hcircular.of_encloses (hmem hu)
  | _, _, _, _, .plain (r := .error _) _ _ hb hall, hout, haround => by
    obtain ⟨e, he, hcircular⟩ := hall.isCircular (by cases hout; rfl) fun e he =>
      (Heap.Encloses.property hb he).reached haround
    exact hcircular.of_encloses (.property hb he)

/-- If items are refused as circular, one of them is. -/
theorem DraftsItems.isCircular : ∀ {around : List ObjectId} {vs : List Value} {size : Nat}
    {out : Except Unwritable (List Json × Nat)},
    DraftsItems h limit around vs size out → out = .error .circular →
      (∀ v ∈ vs, ∀ id ∈ around, Relation.TransGen h.Encloses (.object id) v) →
      ∃ v ∈ vs, h.IsCircular v
  | _, _, _, _, .fails hv, hout, haround =>
    ⟨_, List.mem_cons_self, hv.isCircular (by cases hout; rfl) (haround _ List.mem_cons_self)⟩
  | _, _, _, _, .cons (r := .error _) _ hvs, hout, haround => by
    obtain ⟨w, hw, hcircular⟩ := hvs.isCircular (by cases hout; rfl) fun w hw =>
      haround w (List.mem_cons_of_mem _ hw)
    exact ⟨w, List.mem_cons_of_mem _ hw, hcircular⟩

/-- If properties are refused as circular, one of them is. -/
theorem DraftsProps.isCircular : ∀ {around : List ObjectId} {es : List (String × Value)}
    {size : Nat} {out : Except Unwritable (List (String × Json) × Nat)},
    DraftsProps h limit around es size out → out = .error .circular →
      (∀ e ∈ es, ∀ id ∈ around, Relation.TransGen h.Encloses (.object id) e.2) →
      ∃ e ∈ es, h.IsCircular e.2
  | _, _, _, _, .fails hv, hout, haround =>
    ⟨_, List.mem_cons_self, hv.isCircular (by cases hout; rfl) (haround _ List.mem_cons_self)⟩
  | _, _, _, _, .omitted _ hes, hout, haround => by
    obtain ⟨e, he, hcircular⟩ := hes.isCircular hout fun e he =>
      haround e (List.mem_cons_of_mem _ he)
    exact ⟨e, List.mem_cons_of_mem _ he, hcircular⟩
  | _, _, _, _, .cons (r := .error _) _ hes, hout, haround => by
    obtain ⟨e, he, hcircular⟩ := hes.isCircular (by cases hout; rfl) fun e he =>
      haround e (List.mem_cons_of_mem _ he)
    exact ⟨e, List.mem_cons_of_mem _ he, hcircular⟩

end

/-! ## Stringify -/

/-- **The walk over a value is exact about circles**: where it is not cut short, it fails just for
circular values. -/
theorem documentOf_ends :
    (∃ out, Drafts h limit [] v 0 out ∧ documentOf h limit v = out.map Prod.fst) ∧
      (documentOf h limit v ≠ .error .tooLong →
        (documentOf h limit v = .error .circular ↔ h.IsCircular v)) := by
  have hdraft : Drafts h limit [] v 0 (documentWithin h limit h.size [] v 0) :=
    drafts_of_trail (.start h)
  refine ⟨⟨_, hdraft, rfl⟩, ?_⟩
  unfold documentOf
  cases hout : documentWithin h limit h.size [] v 0 with
  | error e =>
    cases e with
    | tooLong => exact fun hlong => absurd rfl hlong
    | circular => exact fun _ => ⟨fun _ => hdraft.isCircular hout nofun, fun _ => rfl⟩
  | ok r =>
    refine fun _ => ⟨nofun, fun ⟨w, hw, hcycle⟩ => ?_⟩
    exact absurd hcycle (hdraft.clear hout w hw).2

end

namespace Exec

variable {m : Machine}

/-- **What becomes of a call of `JSON.stringify`.**  The walk over its argument comes to an
end.  It is given up at the ceiling; or the argument is circular, which is a TypeError; or it
is not, and then the call gives `undefined` or a text that is no longer than the ceiling,
unless that text is. -/
theorem stringify_ends (args : List Value) (line : Nat) :
    (∃ out, Drafts m.heap m.limits.maxLength [] (argument args 0) 0 out ∧
      documentOf m.heap m.limits.maxLength (argument args 0) = out.map Prod.fst) ∧
    (documentOf m.heap m.limits.maxLength (argument args 0) = .error .tooLong ∧
        stringify args line m = raise .rangeError "Invalid string length" line m ∨
      m.heap.IsCircular (argument args 0) ∧
        documentOf m.heap m.limits.maxLength (argument args 0) = .error .circular ∧
        stringify args line m =
          raise .typeError "Converting circular structure to JSON" line m ∨
      ¬ m.heap.IsCircular (argument args 0) ∧
        ∃ document, documentOf m.heap m.limits.maxLength (argument args 0) = .ok document ∧
        (document = none ∧ stringify args line m = .ok .undefined m ∨
          (∃ s, s.utf8ByteSize ≤ m.limits.maxLength ∧ stringify args line m = .ok (.string s) m) ∨
          stringify args line m = raise .rangeError "Invalid string length" line m)) := by
  obtain ⟨hwalk, hexact⟩ : _ ∧ _ := documentOf_ends
  refine ⟨hwalk, ?_⟩
  unfold stringify
  rw [bind_of_ok (show heap m = .ok m.heap m from rfl),
    bind_of_ok (show ceiling m = .ok m.limits.maxLength m from rfl)]
  cases hdoc : documentOf m.heap m.limits.maxLength (argument args 0) with
  | error e =>
    rw [hdoc] at hexact
    cases e with
    | tooLong => exact .inl ⟨rfl, rfl⟩
    | circular => exact .inr (.inl ⟨(hexact nofun).mp rfl, rfl, rfl⟩)
  | ok document =>
    rw [hdoc] at hexact
    refine .inr (.inr ⟨fun hcircular => ?_, document, rfl, ?_⟩)
    · cases (hexact nofun).mpr hcircular
    cases document with
    | none => exact .inl ⟨rfl, rfl⟩
    | some j =>
      right
      dsimp only
      generalize (if (indentOf (argument args 2)).isEmpty then j.compact
        else j.indented (indentOf (argument args 2))) = text
      rcases Nat.lt_or_ge m.limits.maxLength text.utf8ByteSize with hlong | hfits
      · exact .inr (bind_of_error (checkStringLength_of_gt hlong))
      · exact .inl ⟨text, hfits, bind_of_ok (checkStringLength_of_le hfits)⟩

end Exec

end ScriptTrace
