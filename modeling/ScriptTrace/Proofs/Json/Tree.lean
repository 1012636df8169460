import ScriptTrace.Proofs.Closed
import ScriptTrace.Proofs.Json.Text
import ScriptTrace.Proofs.Numbers
import ScriptTrace.Proofs.Traversal.Trail

/-!
# Proofs/Json/Tree — values come back from their documents

A value is a finite tree if following it into arrays and plain objects comes to an end at primitive
values (`Heap.IsTree`); an object may stand at several places of the tree.  What is written for a
tree is its document, and reading the document makes objects of the same tree that were not there
before.
-/

namespace ScriptTrace

/-! ## Properties in order -/

namespace Props

theorem contains_eq_false {p : Props} {key : String} (h : ∀ e ∈ p.entries, e.1 ≠ key) :
    p.contains key = false :=
  List.any_eq_false.mpr fun e he heq => h e he (of_decide_eq_true heq)

/-- An index behind smaller ones goes to the end. -/
theorem insertIndex_eq {index : Nat} {key : String} {value : Value} {es : List (String × Value)}
    (hk : Number.indexOf? key = some index) (h : ∀ e ∈ es, Precedes e.1 key) :
    insertIndex index key value es = es ++ [(key, value)] := by
  induction es with
  | nil => rfl
  | cons e es ih =>
    obtain ⟨he, hes⟩ := List.forall_mem_cons.mp h
    have hall : ¬ (Number.indexOf? e.1).all (index < ·) = true := by
      unfold Precedes at he
      rw [hk] at he
      cases hi : Number.indexOf? e.1 with
      | none =>
        rw [hi] at he
        exact he.elim
      | some i =>
        rw [hi] at he
        exact fun hlt => Nat.lt_asymm he (of_decide_eq_true hlt)
    unfold insertIndex
    rw [if_neg hall, ih hes]
    rfl

/-- A key behind all others goes to the end. -/
theorem entries_set {p : Props} {key : String} {value : Value}
    (h : ∀ e ∈ p.entries, Precedes e.1 key) :
    (p.set key value).entries = p.entries ++ [(key, value)] := by
  have hnew : ¬ p.contains key = true := by
    rw [contains_eq_false fun e he => Json.ne_of_precedes (h e he)]
    exact Bool.false_ne_true
  unfold set
  rw [dif_neg hnew]
  split
  · exact insertIndex_eq ‹_› h
  · rfl

/-- **Properties that are in order already stay as they are.** -/
theorem entries_ofList {es : List (String × Value)} (h : es.Pairwise fun e f => Precedes e.1 f.1) :
    (ofList es).entries = es := by
  have hfold : ∀ (es : List (String × Value)) (p : Props),
      (p.entries ++ es).Pairwise (fun e f => Precedes e.1 f.1) →
        (es.foldl (fun p e => p.set e.1 e.2) p).entries = p.entries ++ es := by
    intro es
    induction es with
    | nil => exact fun p _ => (List.append_nil _).symm
    | cons e es ih =>
      intro p h
      have hset : (p.set e.1 e.2).entries = p.entries ++ [e] :=
        entries_set fun f hf => (List.pairwise_append.mp h).2.2 f hf e List.mem_cons_self
      rw [List.foldl_cons, ih _ (by rwa [hset, List.append_assoc]), hset, List.append_assoc]
      rfl
  exact hfold es empty h

end Props

/-! ## Trees -/

namespace Heap

/-- **A heap that holds another one**: the objects of that one are there as they were. -/
structure Extends (h h' : Heap) : Prop where
  size_le : h.size ≤ h'.size
  get?_eq : ∀ id < h.size, h'.get? id = h.get? id

namespace Extends

variable {h h' h'' : Heap}

theorem refl (h : Heap) : h.Extends h := ⟨Nat.le_refl _, fun _ _ => rfl⟩

theorem trans (h₁ : h.Extends h') (h₂ : h'.Extends h'') : h.Extends h'' where
  size_le := Nat.le_trans h₁.size_le h₂.size_le
  get?_eq id hid := (h₂.get?_eq id (Nat.lt_of_lt_of_le hid h₁.size_le)).trans (h₁.get?_eq id hid)

/-- A heap with one more object extends the one before. -/
theorem add (h : Heap) (body : Body) (className : Option String) :
    h.Extends (h.add body className) where
  size_le := by
    change h.objects.size ≤ (h.objects.push _).size
    rw [Array.size_push]
    exact Nat.le_succ _
  get?_eq id hid := by
    change (h.objects.push _)[id]? = h.objects[id]?
    rw [Array.getElem?_push_lt hid, Array.getElem?_eq_getElem hid]

/-- An object stays as it is when the heap is extended. -/
theorem body? (hh : h.Extends h') {id : ObjectId} {b : Body} (hb : h.body? id = some b) :
    h'.body? id = some b := by
  obtain ⟨o, ho, rfl⟩ := Option.map_eq_some_iff.mp hb
  have hid : id < h.size := (Array.getElem?_eq_some_iff.mp ho).1
  rw [Heap.body?, hh.get?_eq id hid, ho]
  rfl

end Extends

mutual

/-- **A value that is a finite tree** of `null`, booleans, texts, integers of at most 53 bits,
arrays and plain objects, all objects in it numbered from `least` on. -/
def IsTree (h : Heap) (least : ObjectId) : Json → Value → Prop
  | .null, v => v = .null
  | .bool b, v => v = .bool b
  | .integer n, v => n.natAbs < 2 ^ 53 ∧ ∃ x, v = .number x ∧ (x == Float.ofInt n) = true
  | .real _, _ => False
  | .string s, v => v = .string s
  | .array js, v => ∃ id items, v = .object id ∧ least ≤ id ∧ h.body? id = some (.array items) ∧
      AreTrees h least js items.toList
  | .object ms, v => ∃ id props, v = .object id ∧ least ≤ id ∧ h.body? id = some (.plain props) ∧
      AreMembers h least ms props.entries

/-- Values are, one by one, the trees of documents. -/
def AreTrees (h : Heap) (least : ObjectId) : List Json → List Value → Prop
  | [], vs => vs = []
  | j :: js, vs => ∃ v vs', vs = v :: vs' ∧ IsTree h least j v ∧ AreTrees h least js vs'

/-- The same keys in the same order, each with a tree. -/
def AreMembers (h : Heap) (least : ObjectId) : List (String × Json) → List (String × Value) → Prop
  | [], es => es = []
  | m :: ms, es => ∃ e es', es = e :: es' ∧ IsMember h least m e ∧ AreMembers h least ms es'

/-- A property is the tree of a member under its key. -/
def IsMember (h : Heap) (least : ObjectId) : String × Json → String × Value → Prop
  | (k, j), e => e.1 = k ∧ IsTree h least j e.2

end

section

variable {h h' : Heap} {least least' : ObjectId}

mutual

/-- A tree stays a tree while objects are added. -/
theorem IsTree.mono (hh : h.Extends h') (hle : least' ≤ least) :
    ∀ {j : Json} {v : Value}, h.IsTree least j v → h'.IsTree least' j v
  | .null, _, hv | .bool _, _, hv | .integer _, _, hv | .string _, _, hv => by
    rw [IsTree] at hv ⊢
    exact hv
  | .real _, _, hv => by
    rw [IsTree] at hv
    exact hv.elim
  | .array js, _, hv => by
    rw [IsTree] at hv ⊢
    obtain ⟨id, items, rfl, hid, hb, hjs⟩ := hv
    exact ⟨id, items, rfl, Nat.le_trans hle hid, hh.body? hb, AreTrees.mono hh hle hjs⟩
  | .object ms, _, hv => by
    rw [IsTree] at hv ⊢
    obtain ⟨id, props, rfl, hid, hb, hms⟩ := hv
    exact ⟨id, props, rfl, Nat.le_trans hle hid, hh.body? hb, AreMembers.mono hh hle hms⟩

/-- Values stay trees when the heap is extended. -/
theorem AreTrees.mono (hh : h.Extends h') (hle : least' ≤ least) :
    ∀ {js : List Json} {vs : List Value}, h.AreTrees least js vs → h'.AreTrees least' js vs
  | [], _, hvs => hvs
  | _ :: _, _, ⟨v, vs', heq, hv, hvs⟩ =>
    ⟨v, vs', heq, IsTree.mono hh hle hv, AreTrees.mono hh hle hvs⟩

/-- Properties stay trees when the heap is extended. -/
theorem AreMembers.mono (hh : h.Extends h') (hle : least' ≤ least) :
    ∀ {ms : List (String × Json)} {es : List (String × Value)},
      h.AreMembers least ms es → h'.AreMembers least' ms es
  | [], _, hes => hes
  | _ :: _, _, ⟨e, es', heq, he, hes⟩ =>
    ⟨e, es', heq, IsMember.mono hh hle he, AreMembers.mono hh hle hes⟩

theorem IsMember.mono (hh : h.Extends h') (hle : least' ≤ least) :
    ∀ {m : String × Json} {e : String × Value}, h.IsMember least m e → h'.IsMember least' m e
  | (_, _), _, ⟨hk, hv⟩ => ⟨hk, IsTree.mono hh hle hv⟩

end

/-- The keys of a tree are those of its object. -/
theorem AreMembers.keys_eq : ∀ {ms : List (String × Json)} {es : List (String × Value)},
    h.AreMembers least ms es → ms.map Prod.fst = es.map Prod.fst
  | [], _, rfl => rfl
  | (_, _) :: _, _, ⟨e, es', rfl, ⟨hk, _⟩, hes⟩ => by
    rw [List.map_cons, List.map_cons, AreMembers.keys_eq hes, hk]

/-- Keys are in order as far as their names are. -/
theorem ordered_congr {α β : Type} {es : List (String × α)} {fs : List (String × β)}
    (h : es.map Prod.fst = fs.map Prod.fst) (hes : es.Pairwise fun e f => Precedes e.1 f.1) :
    fs.Pairwise fun e f => Precedes e.1 f.1 :=
  List.pairwise_map.mp (h ▸ List.pairwise_map.mpr hes)

mutual

/-- **Trees are written without loss.** -/
theorem IsTree.exact : ∀ {j : Json} {v : Value}, h.IsTree least j v → j.Exact
  | .null, _, _ | .bool _, _, _ | .string _, _, _ => trivial
  | .integer _, _, hv => by
    rw [IsTree] at hv
    exact hv.1
  | .real _, _, hv => by
    rw [IsTree] at hv
    exact hv.elim
  | .array js, _, hv => by
    rw [IsTree] at hv
    obtain ⟨id, items, rfl, -, -, hjs⟩ := hv
    exact AreTrees.exact hjs
  | .object ms, _, hv => by
    rw [IsTree] at hv
    obtain ⟨id, props, rfl, -, -, hms⟩ := hv
    exact ⟨AreMembers.exact hms, ordered_congr hms.keys_eq.symm props.ordered⟩

theorem AreTrees.exact : ∀ {js : List Json} {vs : List Value},
    h.AreTrees least js vs → Json.ExactItems js
  | [], _, _ => trivial
  | _ :: _, _, ⟨_, _, _, hv, hvs⟩ => ⟨IsTree.exact hv, AreTrees.exact hvs⟩

theorem AreMembers.exact : ∀ {ms : List (String × Json)} {es : List (String × Value)},
    h.AreMembers least ms es → Json.ExactMembers ms
  | [], _, _ => trivial
  | (_, _) :: _, _, ⟨_, _, _, ⟨_, hv⟩, hes⟩ => ⟨IsTree.exact hv, AreMembers.exact hes⟩

end

end

end Heap

/-! ## Writing -/

/-- A whole number is written as an integer. -/
theorem documentOfNumber_eq {x : Float} {n : Int} (hn : n.natAbs < 2 ^ 53)
    (hx : (x == Float.ofInt n) = true) : documentOfNumber x = .integer n := by
  obtain ⟨hwhole, hmax, hint⟩ := Number.of_beq_ofInt hn hx
  unfold documentOfNumber
  rw [if_pos (by rw [hwhole, Bool.true_and]; exact decide_eq_true hmax), hint]

/-- **Writing gives a draft**, unless it gets too long. -/
def Writes {α : Type} (x : Except Unwritable (α × Nat)) (a : α) : Prop :=
  (∃ size, x = .ok (a, size)) ∨ x = .error .tooLong

namespace Writes

variable {α β : Type} {x : Except Unwritable (α × Nat)} {a : α}

theorem pure {size : Nat} : Writes (Pure.pure (a, size)) a := .inl ⟨size, rfl⟩

theorem bind {k : α × Nat → Except Unwritable (β × Nat)} {b : β} (hx : Writes x a)
    (hk : ∀ size, Writes (k (a, size)) b) : Writes (x >>= k) b := by
  obtain ⟨size, rfl⟩ | rfl := hx
  · exact hk size
  · exact .inr rfl

/-- Whatever is written, its estimated length is looked at first. -/
theorem checked {n limit : Nat} (hx : Writes x a) :
    Writes (if n > limit then throw .tooLong >>= fun _ : PUnit => x else x) a := by
  split
  · exact .inr rfl
  · exact hx

end Writes

section

variable {h : Heap} {least limit : Nat}

mutual

/-- A value is one tree only. -/
theorem Heap.IsTree.unique : ∀ {j j' : Json} {v : Value}, h.IsTree least j v → h.IsTree least j' v →
    j = j'
  | .null, j', v, hv, hv' | .bool _, j', v, hv, hv' | .string _, j', v, hv, hv' => by
    rw [Heap.IsTree] at hv
    subst hv
    cases j' <;> simp [Heap.IsTree] at hv' ⊢
    all_goals exact hv'
  | .integer n, j', v, hv, hv' => by
    rw [Heap.IsTree] at hv
    obtain ⟨hn, x, rfl, hx⟩ := hv
    cases j' with
    | integer n' =>
      rw [Heap.IsTree] at hv'
      obtain ⟨hn', y, hy, hx'⟩ := hv'
      cases hy
      rw [← (Number.of_beq_ofInt hn hx).2.2, ← (Number.of_beq_ofInt hn' hx').2.2]
    | _ => simp [Heap.IsTree] at hv'
  | .real _, _, _, hv, _ => by
    rw [Heap.IsTree] at hv
    exact hv.elim
  | .array js, j', v, hv, hv' => by
    rw [Heap.IsTree] at hv
    obtain ⟨id, items, rfl, -, hb, hjs⟩ := hv
    cases j' with
    | array js' =>
      rw [Heap.IsTree] at hv'
      obtain ⟨id', items', heq, -, hb', hjs'⟩ := hv'
      cases heq
      cases hb.symm.trans hb'
      rw [Heap.AreTrees.unique hjs hjs']
    | object ms =>
      rw [Heap.IsTree] at hv'
      obtain ⟨id', props, heq, -, hb', -⟩ := hv'
      cases heq
      cases hb.symm.trans hb'
    | _ => simp [Heap.IsTree] at hv'
  | .object ms, j', v, hv, hv' => by
    rw [Heap.IsTree] at hv
    obtain ⟨id, props, rfl, -, hb, hms⟩ := hv
    cases j' with
    | object ms' =>
      rw [Heap.IsTree] at hv'
      obtain ⟨id', props', heq, -, hb', hms'⟩ := hv'
      cases heq
      cases hb.symm.trans hb'
      rw [Heap.AreMembers.unique hms hms']
    | array js =>
      rw [Heap.IsTree] at hv'
      obtain ⟨id', items, heq, -, hb', -⟩ := hv'
      cases heq
      cases hb.symm.trans hb'
    | _ => simp [Heap.IsTree] at hv'

/-- Values are the trees of one list of documents only. -/
theorem Heap.AreTrees.unique : ∀ {js js' : List Json} {vs : List Value},
    h.AreTrees least js vs → h.AreTrees least js' vs → js = js'
  | [], [], _, _, _ => rfl
  | [], _ :: _, _, rfl, ⟨_, _, heq, _⟩ => by cases heq
  | _ :: _, [], _, ⟨_, _, heq, _⟩, rfl => by cases heq
  | _ :: _, _ :: _, _, ⟨_, _, rfl, hv, hvs⟩, ⟨_, _, heq, hv', hvs'⟩ => by
    cases heq
    rw [Heap.IsTree.unique hv hv', Heap.AreTrees.unique hvs hvs']

/-- Properties are the trees of one list of members only. -/
theorem Heap.AreMembers.unique : ∀ {ms ms' : List (String × Json)} {es : List (String × Value)},
    h.AreMembers least ms es → h.AreMembers least ms' es → ms = ms'
  | [], [], _, _, _ => rfl
  | [], _ :: _, _, rfl, ⟨_, _, heq, _⟩ => by cases heq
  | _ :: _, [], _, ⟨_, _, heq, _⟩, rfl => by cases heq
  | (_, _) :: _, (_, _) :: _, _, ⟨_, _, rfl, ⟨rfl, hv⟩, hes⟩, ⟨_, _, heq, ⟨rfl, hv'⟩, hes'⟩ => by
    cases heq
    rw [Heap.IsTree.unique hv hv', Heap.AreMembers.unique hes hes']

end

/-- **The way to a document inside others**: the objects on it are different ones, as many as were
entered, and the tree of each is larger than what is inside. -/
structure Way (h : Heap) (least : ObjectId) (fuel : Nat) (around : List ObjectId) (n : Nat) :
    Prop where
  nodup : around.Nodup
  room : fuel + around.length = h.size
  outer : ∀ id ∈ around, id < h.size ∧ ∃ j, h.IsTree least j (.object id) ∧ n < sizeOf j

namespace Way

variable {fuel n : Nat} {around : List ObjectId}

theorem start (h : Heap) (n : Nat) : Way h least h.size [] n where
  nodup := .nil
  room := rfl
  outer := nofun

/-- No object is inside itself. -/
theorem not_contains (hw : Way h least fuel around n) {j : Json} {id : ObjectId}
    (hj : h.IsTree least j (.object id)) (hn : sizeOf j ≤ n) : around.contains id = false := by
  rw [← Bool.not_eq_true, List.contains_iff_mem]
  intro hmem
  obtain ⟨-, j', hj', hlt⟩ := hw.outer id hmem
  rw [hj.unique hj'] at hn
  omega

theorem trail (hw : Way h least fuel around n) : Trail h fuel around :=
  ⟨hw.nodup, fun id hid => (hw.outer id hid).1, hw.room⟩

/-- The way into an object; there is room for one more. -/
theorem enter (hw : Way h least fuel around n) {j : Json} {id : ObjectId} {b : Body}
    (hj : h.IsTree least j (.object id)) (hn : sizeOf j ≤ n) (hb : h.body? id = some b) {n' : Nat}
    (hn' : n' < sizeOf j) : ∃ fuel', fuel = fuel' + 1 ∧ Way h least fuel' (id :: around) n' := by
  have hnew : id ∉ around := by
    rw [← List.contains_iff_mem, hw.not_contains hj hn]
    exact Bool.false_ne_true
  have hid := Heap.lt_size_of_body? hb
  obtain ⟨fuel', hfuel, htrail⟩ := hw.trail.enter hid hnew
  refine ⟨fuel', hfuel, htrail.nodup, htrail.total, fun a ha => ?_⟩
  obtain rfl | ha := List.mem_cons.mp ha
  · exact ⟨hid, j, hj, hn'⟩
  · obtain ⟨hlt, j', hj', hless⟩ := hw.outer a ha
    exact ⟨hlt, j', hj', by omega⟩

theorem mono (hw : Way h least fuel around n) {n' : Nat} (hn : n' ≤ n) :
    Way h least fuel around n' :=
  ⟨hw.nodup, hw.room, fun id hid =>
    ⟨(hw.outer id hid).1, (hw.outer id hid).2.imp fun _ hj => ⟨hj.1, by omega⟩⟩⟩

end Way

end

section

variable {h : Heap} {least limit : Nat}

mutual

/-- **A tree is written as its document**, wherever it stands. -/
theorem documentWithin_writes : ∀ {j : Json} {v : Value} {fuel : Nat} {around : List ObjectId}
    {n : Nat},
    h.IsTree least j v → Way h least fuel around n → sizeOf j ≤ n → ∀ size : Nat,
      Writes (documentWithin h limit fuel around v size) (some j)
  | .null, _, _, _, _, hv, _, _, _ | .bool _, _, _, _, _, hv, _, _, _
  | .string _, _, _, _, _, hv, _, _, _ => by
    rw [Heap.IsTree] at hv
    subst hv
    unfold documentWithin
    exact .checked .pure
  | .integer _, _, _, _, _, hv, _, _, _ => by
    rw [Heap.IsTree] at hv
    obtain ⟨hn, x, rfl, hx⟩ := hv
    unfold documentWithin
    dsimp only
    rw [documentOfNumber_eq hn hx]
    exact .checked .pure
  | .real _, _, _, _, _, hv, _, _, _ => by
    rw [Heap.IsTree] at hv
    exact hv.elim
  | .array js, _, fuel, around, n, hv, hw, hn, size => by
    have hv' := hv
    rw [Heap.IsTree] at hv'
    obtain ⟨id, items, rfl, -, hb, hjs⟩ := hv'
    have hless : sizeOf js < sizeOf (Json.array js) := by simp
    obtain ⟨fuel, rfl, hin⟩ := hw.enter hv hn hb hless
    unfold documentWithin
    dsimp only
    rw [hw.not_contains hv hn, hb]
    exact .checked ((documentsOfItems_writes hjs hin (Nat.le_refl _) _).bind fun _ => .pure)
  | .object ms, _, fuel, around, n, hv, hw, hn, size => by
    have hv' := hv
    rw [Heap.IsTree] at hv'
    obtain ⟨id, props, rfl, -, hb, hms⟩ := hv'
    have hless : sizeOf ms < sizeOf (Json.object ms) := by simp
    obtain ⟨fuel, rfl, hin⟩ := hw.enter hv hn hb hless
    unfold documentWithin
    dsimp only
    rw [hw.not_contains hv hn, hb]
    exact .checked ((documentsOfProps_writes hms hin (Nat.le_refl _) _).bind fun _ => .pure)

/-- Items that are trees are written as these trees. -/
theorem documentsOfItems_writes : ∀ {js : List Json} {vs : List Value} {fuel : Nat}
    {around : List ObjectId} {n : Nat}, h.AreTrees least js vs → Way h least fuel around n →
      sizeOf js ≤ n → ∀ size : Nat,
        Writes (documentsOfItems (documentWithin h limit fuel around) vs size) js
  | [], _, _, _, _, rfl, _, _, _ => .pure
  | _ :: _, _, _, _, _, ⟨_, _, rfl, hv, hvs⟩, hw, hn, size => by
    rw [List.cons.sizeOf_spec] at hn
    exact (documentWithin_writes hv hw (by omega) size).bind fun size =>
      (documentsOfItems_writes hvs hw (by omega) size).bind fun _ => .pure

/-- Properties that are trees are written as these trees. -/
theorem documentsOfProps_writes : ∀ {ms : List (String × Json)} {es : List (String × Value)}
    {fuel : Nat} {around : List ObjectId} {n : Nat}, h.AreMembers least ms es →
      Way h least fuel around n → sizeOf ms ≤ n → ∀ size : Nat,
        Writes (documentsOfProps (documentWithin h limit fuel around) es size) ms
  | [], _, _, _, _, rfl, _, _, _ => .pure
  | (_, _) :: _, _, _, _, _, ⟨_, _, rfl, ⟨rfl, hv⟩, hes⟩, hw, hn, size => by
    rw [List.cons.sizeOf_spec, Prod.mk.sizeOf_spec] at hn
    exact (documentWithin_writes hv hw (by omega) size).bind fun size =>
      (documentsOfProps_writes hes hw (by omega) _).bind fun _ => .pure

end

/-- **A tree has its document**, unless that gets too long. -/
theorem documentOf_tree (limit : Nat) {j : Json} {v : Value} (hv : h.IsTree least j v) :
    documentOf h limit v = .ok (some j) ∨ documentOf h limit v = .error .tooLong := by
  have hwrites : Writes (documentWithin h limit h.size [] v 0) (some j) :=
    documentWithin_writes hv (.start h _) (Nat.le_refl _) 0
  obtain ⟨size, hok⟩ | herr := hwrites
  · exact .inl (by rw [documentOf, hok]; rfl)
  · exact .inr (by rw [documentOf, herr]; rfl)

end

/-! ## Reading -/

namespace Exec

variable {α β : Type} {m : Machine}

/-- **An action that only makes objects**: it ends well, and all it does to the machine is to add to
the heap. -/
def Builds (m : Machine) (x : Exec α) (P : Heap → α → Prop) : Prop :=
  ∃ a h, x m = .ok a { m with heap := h } ∧ m.heap.Extends h ∧ P h a

namespace Builds

variable {x : Exec α} {k : α → Exec β} {P : Heap → α → Prop} {Q : Heap → β → Prop} {a : α}

theorem pure (h : P m.heap a) : Builds m (Pure.pure a) P := ⟨a, m.heap, rfl, .refl _, h⟩

theorem bind (hx : Builds m x P)
    (hk : ∀ a h, m.heap.Extends h → P h a → Builds { m with heap := h } (k a) Q) :
    Builds m (x >>= k) Q := by
  obtain ⟨a, h, heq, hh, ha⟩ := hx
  obtain ⟨b, h', heq', hh', hb⟩ := hk a h hh ha
  exact ⟨b, h', (bind_of_ok heq).trans heq', hh.trans hh', hb⟩

theorem make (body : Body) :
    Builds m (Exec.make body) fun h v => m.heap.Extends h ∧ v = .object m.heap.size ∧
      h.body? m.heap.size = some body :=
  ⟨_, m.heap.add body none, rfl, .add .., .add .., rfl, by rw [Heap.body?_add, if_pos rfl]⟩

theorem imp {x : Exec α} {P Q : Heap → α → Prop} (hx : Builds m x P) (hPQ : ∀ h a, P h a → Q h a) :
    Builds m x Q := by
  obtain ⟨a, h, heq, hh, ha⟩ := hx
  exact ⟨a, h, heq, hh, hPQ h a ha⟩

end Builds

end Exec

/-- **What is made of a document**: its tree, if it was written without loss, and a number of a
number. -/
structure Heap.IsMade (h : Heap) (least : ObjectId) (j : Json) (v : Value) : Prop where
  tree : j.Exact → h.IsTree least j v
  number : j.IsNumber → ∃ x, v = .number x

/-- What is made of a member has its key. -/
def Heap.IsMadeMember (h : Heap) (least : ObjectId) (m : String × Json) (e : String × Value) :
    Prop :=
  e.1 = m.1 ∧ h.IsMade least m.2 e.2

section

variable {h h' : Heap} {least : ObjectId}

theorem Heap.IsMade.mono (hh : h.Extends h') {j : Json} {v : Value} (hv : h.IsMade least j v) :
    h'.IsMade least j v := ⟨fun hj => (hv.tree hj).mono hh (Nat.le_refl _), hv.number⟩

theorem Heap.areTrees_of_isMade {js : List Json} {vs : List Value}
    (hvs : List.Forall₂ (h.IsMade least) js vs) (hjs : Json.ExactItems js) :
    h.AreTrees least js vs := by
  induction hvs with
  | nil => exact rfl
  | cons hv _ ih => exact ⟨_, _, rfl, hv.tree hjs.1, ih hjs.2⟩

/-- Properties that were made of exact members are their trees. -/
theorem Heap.areMembers_of_isMade {ms : List (String × Json)} {es : List (String × Value)}
    (hes : List.Forall₂ (h.IsMadeMember least) ms es) (hms : Json.ExactMembers ms) :
    h.AreMembers least ms es := by
  induction hes with
  | nil => exact rfl
  | @cons m _ _ _ he _ ih =>
    obtain ⟨k, j⟩ := m
    exact ⟨_, _, rfl, ⟨he.1, he.2.tree hms.1⟩, ih hms.2⟩

end

namespace Exec

variable {m : Machine} {least : ObjectId}

/-- An object is made of what is made of its members. -/
theorem makeObject_makes {ms : List (String × Json)}
    (hms : Builds m (makeMembers ms) fun h es => List.Forall₂ (h.IsMadeMember least) ms es)
    (hle : least ≤ m.heap.size) :
    Builds m (makeDocument (.object ms)) fun h v => ∃ id es, v = .object id ∧ least ≤ id ∧
      h.body? id = some (.plain (.ofList es)) ∧ List.Forall₂ (h.IsMadeMember least) ms es := by
  refine hms.bind fun es h hh hes => ?_
  obtain ⟨v, h', heq, hh', -, rfl, hb⟩ :=
    Builds.make (m := { m with heap := h }) (.plain (.ofList es))
  exact ⟨_, h', heq, hh', _, es, rfl, Nat.le_trans hle hh.size_le, hb,
    hes.imp fun _ _ he => ⟨he.1, he.2.mono hh'⟩⟩

mutual

/-- **Reading makes new objects only**, for every document. -/
theorem makeDocument_makes : ∀ {j : Json} {m : Machine}, least ≤ m.heap.size →
    Builds m (makeDocument j) fun h v => h.IsMade least j v
  | .null, _, _ | .bool _, _, _ | .string _, _, _ => .pure ⟨fun _ => rfl, fun hn => hn.elim⟩
  | .integer _, _, _ =>
    .pure ⟨fun hj => ⟨hj, _, rfl, Number.beq_ofInt_self hj⟩, fun _ => ⟨_, rfl⟩⟩
  | .real _, _, _ => .pure ⟨fun hj => hj.elim, fun _ => ⟨_, rfl⟩⟩
  | .array items, m, hle => by
    refine (makeItems_makes hle).bind fun vs h hh hvs => ?_
    obtain ⟨v, h', heq, hh', hle', rfl, hb⟩ :=
      Builds.make (m := { m with heap := h }) (.array vs.toArray)
    have hfirst := Nat.le_trans hle hh.size_le
    refine ⟨_, h', heq, hh', fun hj => ?_, fun hn => hn.elim⟩
    exact ⟨_, _, rfl, hfirst, hb, (Heap.areTrees_of_isMade hvs hj).mono hh' (Nat.le_refl _)⟩
  | .object members, m, hle => by
    refine (makeObject_makes (makeMembers_makes hle) hle).imp fun h v hv => ?_
    obtain ⟨id, es, rfl, hid, hb, hes⟩ := hv
    refine ⟨fun hj => ⟨id, _, rfl, hid, hb, ?_⟩, fun hn => hn.elim⟩
    rw [Props.entries_ofList
      (Heap.ordered_congr (Json.keys_eq_of_forall₂ hes fun _ _ he => he.1).symm hj.2)]
    exact Heap.areMembers_of_isMade hes hj.1

/-- The values that are made of documents are their trees. -/
theorem makeItems_makes : ∀ {js : List Json} {m : Machine}, least ≤ m.heap.size →
    Builds m (makeItems js) fun h vs => List.Forall₂ (h.IsMade least) js vs
  | [], _, _ => .pure .nil
  | _ :: _, _, hle =>
    (makeDocument_makes hle).bind fun _ _ hh hv =>
      (makeItems_makes (Nat.le_trans hle hh.size_le)).bind fun _ _ hh' hvs =>
        .pure (.cons (hv.mono hh') hvs)

/-- The properties that are made of members are their trees. -/
theorem makeMembers_makes : ∀ {ms : List (String × Json)} {m : Machine}, least ≤ m.heap.size →
    Builds m (makeMembers ms) fun h es => List.Forall₂ (h.IsMadeMember least) ms es
  | [], _, _ => .pure .nil
  | _ :: _, _, hle =>
    (makeMember_makes hle).bind fun _ _ hh he =>
      (makeMembers_makes (Nat.le_trans hle hh.size_le)).bind fun _ _ hh' hes =>
        .pure (.cons ⟨he.1, he.2.mono hh'⟩ hes)

theorem makeMember_makes : ∀ {member : String × Json} {m : Machine}, least ≤ m.heap.size →
    Builds m (makeMember member) fun h e => h.IsMadeMember least member e
  | (_, _), _, hle => (makeDocument_makes hle).bind fun _ _ _ hv => .pure ⟨rfl, hv⟩

end

/-- **Reading makes the tree of a document**, of new objects only. -/
theorem makeDocument_builds {j : Json} (hj : j.Exact) (hle : least ≤ m.heap.size) :
    Builds m (makeDocument j) fun h v => h.IsTree least j v :=
  (makeDocument_makes hle).imp fun _ _ hv => hv.tree hj

/-! ## There and back -/

/-- An indentation that is not a text of its own is made of spaces. -/
theorem blank_indentOf {v : Value} (hv : v = .undefined ∨ ∃ x, v = .number x) :
    ∀ c ∈ (indentOf v).toList, Json.isSpace c = true := by
  intro c hc
  obtain rfl | ⟨x, rfl⟩ := hv
  · exact absurd hc List.not_mem_nil
  · unfold indentOf at hc
    dsimp only at hc
    split at hc
    · rw [String.toList_ofList] at hc
      rw [List.eq_of_mem_replicate hc]
      rfl
    · exact absurd hc List.not_mem_nil

theorem checkStringLength_of_le {n line : Nat} (h : n ≤ m.limits.maxLength) :
    checkStringLength n line m = .ok () m := by
  change
    (if n > m.limits.maxLength then raise .rangeError _ line else Pure.pure () : Exec Unit) m = _
  rw [if_neg (Nat.not_lt.mpr h)]
  rfl

theorem checkStringLength_of_gt {n line : Nat} (h : n > m.limits.maxLength) :
    checkStringLength n line m = raise .rangeError "Invalid string length" line m := by
  change
    (if n > m.limits.maxLength then raise .rangeError _ line else Pure.pure () : Exec Unit) m = _
  rw [if_pos h]

/-- A document is written with the indentation that was asked for. -/
theorem exists_indent (v : Value) (j : Json) :
    ∃ indent : Option String, (∀ s ∈ indent, s = indentOf v) ∧
      (if (indentOf v).isEmpty then j.compact else j.indented (indentOf v)) =
        Json.textAt indent 0 j := by
  split
  · exact ⟨none, nofun, rfl⟩
  · exact ⟨some _, fun _ h => (Option.some.inj h).symm, rfl⟩

/-- **A tree is written as the text of its document**, with the indentation that was asked for, or
it is refused as too long. -/
theorem stringify_tree {args : List Value} (line : Nat) {j : Json}
    (hv : m.heap.IsTree 0 j (argument args 0)) :
    (∃ indent : Option String, (∀ s ∈ indent, s = indentOf (argument args 2)) ∧
      stringify args line m = .ok (.string (j.textAt indent 0)) m) ∨
    stringify args line m = raise .rangeError "Invalid string length" line m := by
  unfold stringify
  rw [bind_of_ok (show heap m = .ok m.heap m from rfl),
    bind_of_ok (show ceiling m = .ok m.limits.maxLength m from rfl)]
  obtain hdoc | hdoc := documentOf_tree m.limits.maxLength hv
  · rw [hdoc]
    dsimp only
    obtain ⟨indent, hindent, htext⟩ := exists_indent (argument args 2) j
    rw [htext]
    by_cases hlen : (Json.textAt indent 0 j).utf8ByteSize > m.limits.maxLength
    · right
      exact bind_of_error (checkStringLength_of_gt hlen)
    · exact .inl ⟨indent, hindent, bind_of_ok (checkStringLength_of_le (Nat.not_lt.mp hlen))⟩
  · rw [hdoc]
    exact .inr rfl

end Exec

/-- **What was written for a tree of at most 127 levels reads as the same tree again**: whenever the
text is read, on whatever machine, that makes objects of the same tree which were not there before
and changes nothing else. -/
theorem Evaluator.parse_stringify (ev ev' : Evaluator) {args : List Value} {line line' : Nat}
    {j : Json} {text : String} {m m₁ : Machine} (m₂ : Machine)
    (hv : m.heap.IsTree 0 j (argument args 0)) (hdepth : j.depth ≤ 127)
    (hindent : argument args 2 = .undefined ∨ ∃ x, argument args 2 = .number x)
    (h : ev.callHost .stringify args line m = .ok (.string text) m₁) :
    ∃ v h', ev'.callHost .parse [.string text] line' m₂ = .ok v { m₂ with heap := h' } ∧
      m₂.heap.Extends h' ∧ h'.IsTree m₂.heap.size j v := by
  change Exec.stringify args line m = _ at h
  obtain ⟨indent, heq, htext⟩ | herr := Exec.stringify_tree line hv
  · cases htext.symm.trans h
    have hblank : Json.Blank indent := fun s hs => heq s hs ▸ Exec.blank_indentOf hindent
    obtain ⟨v, h', hmake, hadd, htree⟩ :=
      Exec.makeDocument_builds (m := m₂) hv.exact (Nat.le_refl _)
    refine ⟨v, h', ?_, hadd, htree⟩
    have hargument : Exec.text (argument [.string (Json.textAt indent 0 j)] 0) m₂ =
        .ok (Json.textAt indent 0 j) m₂ := rfl
    refine (Exec.bind_of_ok hargument).trans ?_
    rw [Json.read_textAt hblank hv.exact hdepth]
    exact hmake
  · cases herr.symm.trans h

/-- An object that stands twice in a list; its keys were set in another order. -/
def sharing : Machine :=
  { Machine.initial .default with
    heap := (Heap.empty.add
      (.plain (.ofList [("b", .number (Float.ofInt 7)), ("1", .null)])) none).add
      (.array #[.object 0, .object 0]) none }

/-- A list of two objects that look the same. -/
def sharingDocument : Json :=
  .array [.object [("1", .null), ("b", .integer 7)], .object [("1", .null), ("b", .integer 7)]]

/-- Two places that share an object make a tree none the less. -/
theorem sharing_isTree : sharing.heap.IsTree 0 sharingDocument (.object 1) := by
  have hmember : sharing.heap.IsTree 0 (.object [("1", .null), ("b", .integer 7)]) (.object 0) :=
    ⟨0, _, rfl, Nat.le_refl _, rfl, ("1", .null), _, rfl, ⟨rfl, rfl⟩,
      ("b", .number (Float.ofInt 7)), _, rfl,
      ⟨rfl, by decide, _, rfl, Number.beq_ofInt_self (by decide)⟩, rfl⟩
  exact ⟨1, _, rfl, Nat.zero_le _, rfl, _, _, rfl, hmember, _, _, rfl, hmember, rfl⟩

set_option maxRecDepth 8000 in
/-- An object that stands at two places comes back as two objects. -/
theorem Evaluator.parse_stringify_sharing : ∃ text v h',
    (Evaluator.bounded 0).callHost .stringify [.object 1, .null, .number 1] 1 sharing =
      .ok (.string text) sharing ∧
    (Evaluator.bounded 0).callHost .parse [.string text] 2 sharing =
      .ok v { sharing with heap := h' } ∧
    sharing.heap.Extends h' ∧ h'.IsTree 2 sharingDocument v := by
  have h : (Evaluator.bounded 0).callHost .stringify [.object 1, .null, .number 1] 1 sharing =
      .ok (.string
        "[\n \x7b\n  \"1\": null,\n  \"b\": 7\n \x7d,\n \x7b\n  \"1\": null,\n  \"b\": 7\n \x7d\n]")
        sharing := rfl
  obtain ⟨v, h', hparse⟩ :=
    Evaluator.parse_stringify _ (.bounded 0) sharing sharing_isTree (by decide) (.inr ⟨1, rfl⟩) h
  exact ⟨_, v, h', h, hparse⟩

end ScriptTrace
