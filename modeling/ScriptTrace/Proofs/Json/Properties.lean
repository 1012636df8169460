import ScriptTrace.Proofs.Json.Shape
import ScriptTrace.Proofs.Traversal.Document

/-!
# Proofs/Json/Properties — the properties of an object through its text

    {7: v, f: undefined, b: w}   ──stringify──▸   text   ──parse──▸   {7: v', b: w'}

Properties whose value has no place in a document are left out; all others come back under their
keys and in their order, whatever they hold (`Evaluator.parse_stringify_props`).  A tree comes back
as the same tree of new objects, and a finite number as a number.
-/

namespace ScriptTrace

/-- **Whether a value has a place in a document**: `undefined` and functions have none. -/
def Heap.isWritten (h : Heap) (v : Value) : Bool :=
  match v with
  | .undefined => false
  | .object id => (h.body? id).any fun b => !b.isCallable
  | v => !h.isCallable v

section

variable {h h' : Heap} {limit size size' : Nat} {around : List ObjectId} {v : Value} {out : Draft}
  {r : Option Json × Nat} {least : ObjectId}

/-! ## What is written -/

/-- What is neither list nor object has a document if it is written. -/
theorem isSome_leafDocument
    (hdata : ∀ id b, v = .object id → h.body? id = some b → b.isData = false) :
    (leafDocument h v).isSome = h.isWritten v := by
  cases v with
  | undefined | null | bool | number | string | function | globalThis => rfl
  | host o =>
    change (if o.isCallable then none else some (Json.object [])).isSome = !o.isCallable
    cases o.isCallable <;> rfl
  | object id =>
    change (if h.isPromise id then some (Json.object []) else none).isSome =
      (h.body? id).any fun b => !b.isCallable
    unfold Heap.isPromise
    cases hb : h.body? id with
    | none => rfl
    | some b =>
      cases b with
      | plain | array => cases hdata id _ rfl hb
      | closure | bound | method | promise | resolver => rfl

/-- A value has a document just if it has a place in one. -/
theorem Drafts.isSome_eq (hv : Drafts h limit around v size out) (hout : out = .ok r) :
    r.1.isSome = h.isWritten v := by
  cases hv with
  | tooLong | circular => cases hout
  | leaf _ _ hdata =>
    cases hout
    exact isSome_leafDocument hdata
  | @array _ _ _ _ r _ _ hb =>
    cases r with
    | error => cases hout
    | ok p =>
      cases hout
      rw [Heap.isWritten, hb]
      rfl
  | @plain _ _ _ _ r _ _ hb =>
    cases r with
    | error => cases hout
    | ok p =>
      cases hout
      rw [Heap.isWritten, hb]
      rfl

mutual

/-- **The document of a tree is the one that the tree belongs to.** -/
theorem Drafts.eq_of_isTree : ∀ {j : Json} {v : Value} {around : List ObjectId} {size : Nat}
    {out : Draft} {r : Option Json × Nat}, h.IsTree least j v → Drafts h limit around v size out →
      out = .ok r → r.1 = some j
  | .null, _, _, _, _, _, hv, hd, hout | .bool _, _, _, _, _, _, hv, hd, hout
  | .string _, _, _, _, _, _, hv, hd, hout => by
    rw [Heap.IsTree] at hv
    subst hv
    cases hd with
    | tooLong => cases hout
    | leaf =>
      cases hout
      rfl
  | .integer _, _, _, _, _, _, hv, hd, hout => by
    rw [Heap.IsTree] at hv
    obtain ⟨hn, x, rfl, hx⟩ := hv
    cases hd with
    | tooLong => cases hout
    | leaf =>
      cases hout
      exact congrArg some (documentOfNumber_eq hn hx)
  | .real _, _, _, _, _, _, hv, _, _ => by
    rw [Heap.IsTree] at hv
    exact hv.elim
  | .array js, _, _, _, _, _, hv, hd, hout => by
    rw [Heap.IsTree] at hv
    obtain ⟨id, items, rfl, -, hb, hjs⟩ := hv
    cases hd with
    | tooLong | circular => cases hout
    | leaf _ _ hdata => cases hdata id _ rfl hb
    | plain _ _ hb' => cases hb.symm.trans hb'
    | @array _ _ _ _ r _ _ hb' hall =>
      cases hb.symm.trans hb'
      cases r with
      | error => cases hout
      | ok p =>
        cases hout
        exact congrArg (some ∘ Json.array) (hall.eq_of_areTrees hjs rfl)
  | .object ms, _, _, _, _, _, hv, hd, hout => by
    rw [Heap.IsTree] at hv
    obtain ⟨id, props, rfl, -, hb, hms⟩ := hv
    cases hd with
    | tooLong | circular => cases hout
    | leaf _ _ hdata => cases hdata id _ rfl hb
    | array _ _ hb' => cases hb.symm.trans hb'
    | @plain _ _ _ _ r _ _ hb' hall =>
      cases hb.symm.trans hb'
      cases r with
      | error => cases hout
      | ok p =>
        cases hout
        exact congrArg (some ∘ Json.object) (hall.eq_of_areMembers hms rfl)

/-- Items that are trees are written as these trees. -/
theorem DraftsItems.eq_of_areTrees : ∀ {js : List Json} {vs : List Value} {around : List ObjectId}
    {size : Nat} {out : Except Unwritable (List Json × Nat)} {r : List Json × Nat},
    DraftsItems h limit around vs size out → h.AreTrees least js vs → out = .ok r → r.1 = js
  | [], _, _, _, _, _, hd, rfl, hout => by
    cases hd
    cases hout
    rfl
  | _ :: _, _, _, _, _, _, hd, ⟨_, _, rfl, hv, hvs⟩, hout => by
    cases hd with
    | fails => cases hout
    | @cons _ _ _ _ _ _ r hd hds =>
      cases r with
      | error => cases hout
      | ok p =>
        cases hout
        obtain rfl := hd.eq_of_isTree hv rfl
        exact congrArg _ (hds.eq_of_areTrees hvs rfl)

/-- Properties that are trees are written as these trees. -/
theorem DraftsProps.eq_of_areMembers : ∀ {ms : List (String × Json)} {es : List (String × Value)}
    {around : List ObjectId} {size : Nat} {out : Except Unwritable (List (String × Json) × Nat)}
    {r : List (String × Json) × Nat},
    DraftsProps h limit around es size out → h.AreMembers least ms es → out = .ok r → r.1 = ms
  | [], _, _, _, _, _, hd, rfl, hout => by
    cases hd
    cases hout
    rfl
  | (_, _) :: _, _, _, _, _, _, hd, ⟨(_, _), _, rfl, ⟨rfl, hv⟩, hes⟩, hout => by
    cases hd with
    | fails => cases hout
    | omitted hd => cases hd.eq_of_isTree hv rfl
    | @cons _ _ _ _ _ _ _ r hd hds =>
      cases r with
      | error => cases hout
      | ok p =>
        cases hout
        obtain rfl := Option.some.inj (hd.eq_of_isTree hv rfl)
        exact congrArg _ (hds.eq_of_areMembers hes rfl)

end

/-- A value and its document, wherever it was written. -/
def Heap.IsDocument (h : Heap) (limit : Nat) (v : Value) (j : Json) : Prop :=
  ∃ around size size', Drafts h limit around v size (.ok (some j, size'))

/-- **The members that are written for properties**: each property that has a place in a document,
under its key. -/
theorem DraftsProps.members : ∀ {es : List (String × Value)} {around : List ObjectId} {size : Nat}
    {out : Except Unwritable (List (String × Json) × Nat)} {r : List (String × Json) × Nat},
    DraftsProps h limit around es size out → out = .ok r →
      List.Forall₂ (fun e m => m.1 = e.1 ∧ h.IsDocument limit e.2 m.2)
        (es.filter fun e => h.isWritten e.2) r.1
  | [], _, _, _, _, .nil, hout => by
    cases hout
    exact .nil
  | (_, _) :: _, _, _, _, _, .omitted hv hes, hout => by
    have hnone := hv.isSome_eq rfl
    rw [List.filter_cons_of_neg (by rw [← hnone]; exact Bool.false_ne_true)]
    exact hes.members hout
  | (_, _) :: _, _, _, _, _, .cons (r := .ok _) hv hes, hout => by
    have hsome := hv.isSome_eq rfl
    cases hout
    rw [List.filter_cons_of_pos (by rw [← hsome]; rfl)]
    exact .cons ⟨rfl, _, _, _, hv⟩ (hes.members rfl)

/-- The document of an object has the members that are written for its properties. -/
theorem Drafts.members {id : ObjectId} {props : Props} {j : Json}
    (hd : Drafts h limit around (.object id) size out) (hb : h.body? id = some (.plain props))
    (hout : out = .ok (some j, size')) :
    ∃ ms, j = .object ms ∧ List.Forall₂ (fun e m => m.1 = e.1 ∧ h.IsDocument limit e.2 m.2)
      (props.entries.filter fun e => h.isWritten e.2) ms := by
  cases hd with
  | tooLong | circular => cases hout
  | leaf _ _ hdata => cases hdata id _ rfl hb
  | array _ _ hb' => cases hb.symm.trans hb'
  | @plain _ _ _ _ r _ _ hb' hall =>
    cases hb.symm.trans hb'
    cases r with
    | error => cases hout
    | ok p =>
      cases hout
      exact ⟨_, rfl, hall.members rfl⟩

/-! ## There and back -/

/-- A finite number is written as a number. -/
theorem isSome_jsonText? {x : Float} (hx : Number.isFinite x = true) :
    (Number.jsonText? x).isSome = true := by
  have hless : x.abs < Float.ofBits 0x7ff0000000000000 := of_decide_eq_true hx
  have hinf : (Float.ofBits 0x7ff0000000000000).toModel.unpack = .infinity .positive := rfl
  rw [Number.lt_iff, hinf] at hless
  unfold Number.jsonText?
  rw [Number.binary_eq_ofParts]
  have habs : x.abs.toModel.unpack = (Float.Model.pack x.toModel.unpack.abs).unpack := rfl
  rw [habs] at hless
  cases hunpack : x.toModel.unpack with
  | zero | finite => rfl
  | notANumber =>
    rw [hunpack] at hless
    exact absurd hless (by decide)
  | infinity sign =>
    rw [hunpack] at hless
    cases sign <;> exact absurd hless (by decide)

theorem documentOfNumber_of_isFinite {x : Float} (hx : Number.isFinite x = true) :
    (∃ n, documentOfNumber x = .integer n) ∨ documentOfNumber x = .real x := by
  unfold documentOfNumber
  split
  · exact .inl ⟨_, rfl⟩
  · exact .inr rfl

/-- **What comes back of a value**: of a tree the same tree of new objects, of a finite number a
number. -/
structure ComesBack (h h' : Heap) (least : ObjectId) (v w : Value) : Prop where
  tree : ∀ j, h.IsTree 0 j v → h'.IsTree least j w
  number : ∀ x, v = .number x → Number.isFinite x = true → ∃ y, w = .number y

/-- What is read again has the shape of what was written. -/
theorem ComesBack.of_sameShape {j j' : Json} {w : Value} (hv : h.IsDocument limit v j)
    (hj : Json.SameShape j j') (hw : h'.IsMade least j' w) : ComesBack h h' least v w := by
  obtain ⟨around, size, size', hd⟩ := hv
  constructor
  · intro t ht
    obtain rfl := Option.some.inj (hd.eq_of_isTree ht rfl)
    obtain rfl := hj.eq_of_exact ht.exact
    exact hw.tree ht.exact
  · rintro x rfl hx
    refine hw.number ?_
    cases hd with
    | leaf =>
      obtain ⟨n, hdoc⟩ | hdoc := documentOfNumber_of_isFinite hx
      · rw [hdoc] at hj
        cases hj with
        | integer hnumber => exact hnumber
      · rw [hdoc] at hj
        cases hj with
        | real hnumber => exact hnumber (isSome_jsonText? hx)

/-- Property by property, through the members that were written and those that were read. -/
theorem comesBack_of_members {es es' : List (String × Value)} {ms ms' : List (String × Json)}
    (hes : List.Forall₂ (fun e m => m.1 = e.1 ∧ h.IsDocument limit e.2 m.2) es ms)
    (hms : List.Forall₂ Json.SameMember ms ms')
    (hes' : List.Forall₂ (h'.IsMadeMember least) ms' es') :
    List.Forall₂ (fun e e' => e'.1 = e.1 ∧ ComesBack h h' least e.2 e'.2) es es' := by
  induction hes generalizing ms' es' with
  | nil =>
    cases hms
    cases hes'
    exact .nil
  | cons he _ ih =>
    cases hms with
    | cons hm hms =>
      cases hes' with
      | cons he' hes' =>
        cases hm with
        | mk k hshape =>
          exact .cons ⟨he'.1.trans he.1, .of_sameShape he.2 hshape he'.2⟩ (ih hms hes')

/-- Members that are written for trees are written without loss. -/
theorem exact_of_trees {es : List (String × Value)} {ms : List (String × Json)} {n : Nat}
    (hes : List.Forall₂ (fun e m => m.1 = e.1 ∧ h.IsDocument limit e.2 m.2) es ms)
    (htrees : ∀ e ∈ es, ∃ j, h.IsTree 0 j e.2 ∧ j.depth ≤ n) :
    Json.ExactMembers ms ∧ Json.membersDepth ms ≤ n := by
  induction hes with
  | nil => exact ⟨trivial, Nat.zero_le _⟩
  | @cons e m es ms he _ ih =>
    obtain ⟨htree, hmore⟩ := List.forall_mem_cons.mp htrees
    obtain ⟨t, ht, hdepth⟩ := htree
    obtain ⟨hexact, hless⟩ := ih hmore
    obtain ⟨k, j⟩ := m
    obtain ⟨around, size, size', hd⟩ := he.2
    obtain rfl := Option.some.inj (hd.eq_of_isTree ht rfl)
    exact ⟨⟨ht.exact, hexact⟩, Nat.max_le.mpr ⟨hdepth, hless⟩⟩

end

namespace Exec

variable {m m₁ m₂ m₃ : Machine} {args : List Value} {line : Nat} {text : String}

/-- A text that is written is that of a document of the argument. -/
theorem document_of_stringify (h : stringify args line m = .ok (.string text) m₁) :
    ∃ j indent, documentOf m.heap m.limits.maxLength (argument args 0) = .ok (some j) ∧
      (∀ s ∈ indent, s = indentOf (argument args 2)) ∧ text = Json.textAt indent 0 j := by
  unfold stringify at h
  rw [bind_of_ok (show heap m = .ok m.heap m from rfl),
    bind_of_ok (show ceiling m = .ok m.limits.maxLength m from rfl)] at h
  cases hdoc : documentOf m.heap m.limits.maxLength (argument args 0) with
  | error e =>
    rw [hdoc] at h
    cases e <;> cases h
  | ok document =>
    rw [hdoc] at h
    cases document with
    | none => cases h
    | some j =>
      obtain ⟨indent, hindent, htext⟩ := exists_indent (argument args 2) j
      dsimp only at h
      rw [htext] at h
      obtain ⟨_, _, -, h⟩ := bind_eq_ok h
      cases h
      exact ⟨j, indent, rfl, hindent, rfl⟩

/-- **The text of an object** has a member for each of its properties that is written, in their
order. -/
theorem members_of_stringify {id : ObjectId} {props : Props} (hv : argument args 0 = .object id)
    (hprops : m.heap.body? id = some (.plain props))
    (h : stringify args line m = .ok (.string text) m₁) :
    ∃ ms indent, (∀ s ∈ indent, s = indentOf (argument args 2)) ∧
      text = Json.textAt indent 0 (.object ms) ∧
      List.Forall₂ (fun e f => f.1 = e.1 ∧ m.heap.IsDocument m.limits.maxLength e.2 f.2)
        (props.entries.filter fun e => m.heap.isWritten e.2) ms ∧
      ms.Pairwise fun f f' => Precedes f.1 f'.1 := by
  obtain ⟨j, indent, hdoc, hindent, rfl⟩ := document_of_stringify h
  obtain ⟨out, hdraft, hout⟩ := (@documentOf_ends m.heap m.limits.maxLength (argument args 0)).1
  rw [hdoc] at hout
  rw [hv] at hdraft
  cases out with
  | error => cases hout
  | ok r =>
    obtain ⟨document, size⟩ := r
    cases hout
    obtain ⟨ms, rfl, hms⟩ := hdraft.members hprops rfl
    exact ⟨ms, indent, hindent, rfl, hms, Heap.ordered_congr
      (Json.keys_eq_of_forall₂ hms fun _ _ he => he.1).symm
      (props.ordered.sublist List.filter_sublist)⟩

/-- Of a text that is read its document is made. -/
theorem parseDocument_of_read {j : Json} (hread : Json.read text = .ok j) :
    parseDocument [.string text] line m₂ = makeDocument j m₂ := by
  refine (bind_of_ok (show Exec.text (.string text) m₂ = .ok text m₂ from rfl)).trans ?_
  rw [hread]

/-- What is read is made of the document of a text. -/
theorem document_of_parse {v : Value} (h : parseDocument [.string text] line m₂ = .ok v m₃) :
    ∃ j, Json.read text = .ok j ∧ makeDocument j m₂ = .ok v m₃ := by
  cases hread : Json.read text with
  | error e =>
    rw [parseDocument, bind_of_ok (show Exec.text (argument [.string text] 0) m₂ =
      .ok text m₂ from rfl), hread] at h
    cases h
  | ok j => exact ⟨j, rfl, (parseDocument_of_read hread).symm.trans h⟩

end Exec

/-- **Properties come back from their text** in their order and under their keys, without those
whose value has no place in a document: whenever an object is written and its text read, that makes
new objects, of which one has the properties that were written, and changes nothing else. -/
theorem Evaluator.parse_stringify_props (ev ev' : Evaluator) {args : List Value} {line line' : Nat}
    {id : ObjectId} {props : Props} {text : String} {m m₁ m₂ m₃ : Machine} {v : Value}
    (hv : argument args 0 = .object id) (hprops : m.heap.body? id = some (.plain props))
    (hindent : argument args 2 = .undefined ∨ ∃ x, argument args 2 = .number x)
    (hwrite : ev.callHost .stringify args line m = .ok (.string text) m₁)
    (hread : ev'.callHost .parse [.string text] line' m₂ = .ok v m₃) :
    ∃ id' props' h', v = .object id' ∧ m₃ = { m₂ with heap := h' } ∧ m₂.heap.Extends h' ∧
      m₂.heap.size ≤ id' ∧ h'.body? id' = some (.plain props') ∧
      List.Forall₂ (fun e e' => e'.1 = e.1 ∧ ComesBack m.heap h' m₂.heap.size e.2 e'.2)
        (props.entries.filter fun e => m.heap.isWritten e.2) props'.entries := by
  obtain ⟨ms, indent, hblank, rfl, hms, hordered⟩ := Exec.members_of_stringify hv hprops hwrite
  obtain ⟨j', hj', hmake⟩ := Exec.document_of_parse hread
  have hshape : Json.SameShape (.object ms) j' :=
    Json.sameShape_of_read (fun s hs => hblank s hs ▸ Exec.blank_indentOf hindent) hj'
  cases hshape with
  | @object _ ms' hmembers =>
    have hms' := hmembers (hordered.imp Json.ne_of_precedes)
    obtain ⟨_, h', heq, hh, id', es, rfl, hid, hb, hes⟩ :=
      Exec.makeObject_makes (@Exec.makeMembers_makes _ ms' m₂ (Nat.le_refl _)) (Nat.le_refl _)
    cases heq.symm.trans hmake
    refine ⟨id', _, h', rfl, rfl, hh, hid, hb, ?_⟩
    have hkeys : ms.map Prod.fst = es.map Prod.fst :=
      (Json.keys_eq_of_forall₂ hms' fun _ _ hm => hm.key_eq).symm.trans
        (Json.keys_eq_of_forall₂ hes fun _ _ he => he.1).symm
    rw [Props.entries_ofList (Heap.ordered_congr hkeys hordered)]
    exact comesBack_of_members hms hms' hes

/-- The text is read if what was written is trees of at most 127 levels, those of the object
included. -/
theorem Evaluator.parse_of_trees (ev ev' : Evaluator) {args : List Value} {line line' : Nat}
    {id : ObjectId} {props : Props} {text : String} {m m₁ : Machine} (m₂ : Machine)
    (hv : argument args 0 = .object id) (hprops : m.heap.body? id = some (.plain props))
    (hindent : argument args 2 = .undefined ∨ ∃ x, argument args 2 = .number x)
    (hwrite : ev.callHost .stringify args line m = .ok (.string text) m₁)
    (htrees : ∀ e ∈ props.entries, m.heap.isWritten e.2 = true →
      ∃ j, m.heap.IsTree 0 j e.2 ∧ j.depth ≤ 126) :
    ∃ v m₃, ev'.callHost .parse [.string text] line' m₂ = .ok v m₃ := by
  obtain ⟨ms, indent, hblank, rfl, hms, hordered⟩ := Exec.members_of_stringify hv hprops hwrite
  obtain ⟨hexact, hdepth⟩ := exact_of_trees hms fun e he =>
    htrees e (List.mem_filter.mp he).1 (List.mem_filter.mp he).2
  have hread : Json.read (Json.textAt indent 0 (.object ms)) = .ok (.object ms) :=
    Json.read_textAt (fun s hs => hblank s hs ▸ Exec.blank_indentOf hindent) ⟨hexact, hordered⟩
      (Nat.succ_le_succ hdepth)
  obtain ⟨v, h', hmake, -⟩ := @Exec.makeDocument_makes _ (.object ms) m₂ (Nat.le_refl _)
  exact ⟨v, { m₂ with heap := h' }, (Exec.parseDocument_of_read hread).trans hmake⟩

end ScriptTrace
