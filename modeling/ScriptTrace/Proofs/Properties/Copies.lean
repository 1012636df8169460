import ScriptTrace.Evaluation.Run
import ScriptTrace.Library.Object
import ScriptTrace.Proofs.Json.Properties
import ScriptTrace.Proofs.Properties.Order

/-!
# Proofs/Properties/Copies — properties made again

    {...o}   const {a, ...r} = o   Object.assign({}, o)   JSON.parse(JSON.stringify(o))

A program copies an object by listing its properties and writing them one behind the other to
an empty one.  As the list is in order already, that gives the same properties again, or those
that were asked for.  The way through a text makes new values, and leaves out those that have
no place in it.
-/

namespace ScriptTrace

/-! ## Spread and rest -/

namespace Evaluator

open Exec Syntax

variable (ev : Evaluator) {scope : ScopeId} {id : ObjectId} {p : Props} {m m₁ : Machine}

theorem ownEntries_plain (hp : m.heap.body? id = some (.plain p)) :
    m.heap.ownEntries (.object id) = p.entries := by
  rw [Heap.ownEntries, hp]

/-- **A literal that spreads an object makes one of the same properties.** -/
theorem evalExpr_spread {e : Expr} (position : Grammar.Position)
    (he : ev.expr scope e m = .ok (.object id) m₁) (hp : m₁.heap.body? id = some (.plain p)) :
    ev.evalExpr scope (.mk (.object [.spread e]) position) m =
      .ok (.object m₁.heap.size) { m₁ with heap := m₁.heap.add (.plain p) none } := by
  have hproperties : ev.properties scope [.spread e] .empty m = .ok p m₁ := by
    unfold Evaluator.properties
    rw [bind_of_ok he, bind_of_ok (show heap m₁ = .ok m₁.heap m₁ from rfl), ownEntries_plain hp]
    exact congrArg (EStateM.Result.ok · m₁) p.ofList_entries
  exact bind_of_ok hproperties

/-- **What a pattern leaves of an object** goes to its last part: the properties that it did not
read, in their order. -/
theorem bindPattern_rest {properties : List PropertyPattern} (rest : Pattern) {mode : BindMode}
    {line : Nat} {used : List String}
    (hused : ev.bindProperties scope (.object id) mode line properties m = .ok used m₁)
    (hp : m₁.heap.body? id = some (.plain p)) :
    ∃ q : Props, q.entries = p.entries.filter (fun e => !used.contains e.1) ∧
      ev.bindPattern scope (.object properties (some rest)) (.object id) mode line m =
        ev.bind scope rest (.object m₁.heap.size) mode line
          { m₁ with heap := m₁.heap.add (.plain q) none } := by
  have hleft : (m₁.heap.ownEntries (.object id)).filter (fun e => !used.contains e.1) =
      p.entries.filter fun e => !used.contains e.1 := by rw [ownEntries_plain hp]
  refine ⟨.ofList (p.entries.filter fun e => !used.contains e.1), p.entries_ofList_filter _, ?_⟩
  rw [← hleft]
  exact bind_of_ok hused

/-- A pattern that reads nothing of an object leaves all of it. -/
theorem bindPattern_whole (rest : Pattern) {mode : BindMode} {line : Nat}
    (hp : m.heap.body? id = some (.plain p)) :
    ev.bindPattern scope (.object [] (some rest)) (.object id) mode line m =
      ev.bind scope rest (.object m.heap.size) mode line
        { m with heap := m.heap.add (.plain p) none } := by
  have hused : ev.bindProperties scope (.object id) mode line [] m = .ok [] m := rfl
  obtain ⟨q, hentries, heq⟩ := ev.bindPattern_rest rest hused hp
  have hall : q.entries = p.entries := hentries.trans (List.filter_eq_self.mpr fun _ _ => rfl)
  rw [heq, Props.ext hall]

end Evaluator

/-! ## `Object.assign` -/

namespace Exec

variable {m : Machine} {target : ObjectId} {o : HeapObject} {p : Props}

theorem get?_modify (h : Heap) (target id : ObjectId) (f : HeapObject → HeapObject) :
    (h.modify target f).get? id = if target = id then (h.get? id).map f else h.get? id :=
  Array.getElem?_modify

/-- Properties are written one behind the other to an object that is not frozen. -/
theorem setMembers_plain (line : Nat) (es : List (String × Value))
    (ho : m.heap.get? target = some o) (hfree : o.frozen = false) (hp : o.body = .plain p) :
    ∃ h, setMembers (.object target) line es m = .ok () { m with heap := h } ∧
      h.get? target = some { o with body := .plain (es.foldl (fun p e => p.set e.1 e.2) p) } ∧
      ∀ id, id ≠ target → h.get? id = m.heap.get? id := by
  induction es generalizing m o p with
  | nil =>
    refine ⟨m.heap, rfl, ?_, fun _ _ => rfl⟩
    rw [ho, List.foldl_nil, ← hp]
  | cons e es ih =>
    obtain ⟨k, v⟩ := e
    have hset : setMember (.object target) k v line m =
        .ok () { m with heap := m.heap.modify target (·.changed (.props (p.set k v))) } := by
      unfold setMember
      dsimp only
      rw [bind_of_ok (show heap m = .ok m.heap m from rfl), ho]
      dsimp only
      rw [hfree, hp]
      rfl
    have hnext : (m.heap.modify target (·.changed (.props (p.set k v)))).get? target =
        some { o with body := .plain (p.set k v) } := by
      rw [get?_modify, if_pos rfl, ho]
      unfold HeapObject.changed
      rw [Option.map_some, hp]
    obtain ⟨h, heq, htarget, hothers⟩ :=
      ih (m := { m with heap := m.heap.modify target (·.changed (.props (p.set k v))) }) hnext hfree
        rfl
    refine ⟨h, (bind_of_ok hset).trans heq, htarget, fun id hid => ?_⟩
    rw [hothers id hid, get?_modify, if_neg (Ne.symm hid)]

end Exec

/-- **`Object.assign` gives an empty object the properties of another one.** -/
theorem Evaluator.assign_empty (ev : Evaluator) (line : Nat) {m : Machine} {target id : ObjectId}
    {o : HeapObject} {p : Props} (ho : m.heap.get? target = some o) (hfree : o.frozen = false)
    (hempty : o.body = .plain .empty) (hp : m.heap.body? id = some (.plain p)) :
    ∃ h, ev.callHost .assign [.object target, .object id] line m =
        .ok (.object target) { m with heap := h } ∧
      h.get? target = some { o with body := .plain p } ∧
      ∀ other, other ≠ target → h.get? other = m.heap.get? other := by
  obtain ⟨h, heq, htarget, hothers⟩ := Exec.setMembers_plain line p.entries ho hfree hempty
  refine ⟨h, ?_, ?_, hothers⟩
  · have hall : Exec.assignAll (.object target) line [.object id] m =
      .ok () { m with heap := h } := by
      unfold Exec.assignAll
      rw [Exec.bind_of_ok (show Exec.heap m = .ok m.heap m from rfl), Evaluator.ownEntries_plain hp]
      exact Exec.bind_of_ok heq
    exact Exec.bind_of_ok hall
  · exact htarget.trans (congrArg (fun q => some { o with body := .plain q }) p.ofList_entries)

/-! ## All of it -/

namespace Props

open Syntax

/-- **Properties keep their order** through changes: of keys that are all different the indices come
first, in ascending order, and the others behind them, as they were put in. -/
structure KeepsOrder (edits : List Edit) : Prop where
  nodup : (after edits).keys.Nodup
  indices : ∃ ns : List Nat, (after edits).keys = ns.map toString ++ (after edits).others ∧
    ns.Pairwise (· < ·) ∧ ∀ n ∈ ns, n < 2 ^ 64
  inserted : ∀ k l, k ≠ l → k ∈ (after edits).others → l ∈ (after edits).others →
    ([k, l].Sublist (after edits).others ↔ InsertedBefore edits k l)
  read : ∀ k v l, ((after edits).set k v).get? l = if l = k then some v else (after edits).get? l
  overwritten : ∀ k v, k ∈ (after edits).keys → ((after edits).set k v).keys = (after edits).keys

/-- **Properties are copied as they are**: by a literal that spreads the object, by a pattern that
leaves all or some of it, by `Object.assign` to an empty object, and through a text, if it is
written and read at all, as far as their values have a place in it. -/
structure IsCopied (p : Props) : Prop where
  remade : ofList p.entries = p
  spread : ∀ (ev : Evaluator) {scope : ScopeId} {e : Expr} (position : Grammar.Position)
    {m m₁ : Machine} {id : ObjectId}, ev.expr scope e m = .ok (.object id) m₁ →
    m₁.heap.body? id = some (.plain p) →
      ev.evalExpr scope (.mk (.object [.spread e]) position) m =
        .ok (.object m₁.heap.size) { m₁ with heap := m₁.heap.add (.plain p) none }
  rest : ∀ (ev : Evaluator) {scope : ScopeId} (rest : Pattern) {mode : BindMode} {line : Nat}
    {m : Machine} {id : ObjectId}, m.heap.body? id = some (.plain p) →
      ev.bindPattern scope (.object [] (some rest)) (.object id) mode line m =
        ev.bind scope rest (.object m.heap.size) mode line
          { m with heap := m.heap.add (.plain p) none }
  left : ∀ (ev : Evaluator) {scope : ScopeId} {properties : List PropertyPattern} (rest : Pattern)
    {mode : BindMode} {line : Nat} {used : List String} {m m₁ : Machine} {id : ObjectId},
    ev.bindProperties scope (.object id) mode line properties m = .ok used m₁ →
    m₁.heap.body? id = some (.plain p) →
      ∃ q : Props, q.entries = p.entries.filter (fun e => !used.contains e.1) ∧
        ev.bindPattern scope (.object properties (some rest)) (.object id) mode line m =
          ev.bind scope rest (.object m₁.heap.size) mode line
            { m₁ with heap := m₁.heap.add (.plain q) none }
  assigned : ∀ (ev : Evaluator) (line : Nat) {m : Machine} {target id : ObjectId} {o : HeapObject},
    m.heap.get? target = some o → o.frozen = false → o.body = .plain .empty →
    m.heap.body? id = some (.plain p) →
      ∃ h, ev.callHost .assign [.object target, .object id] line m =
          .ok (.object target) { m with heap := h } ∧
        h.get? target = some { o with body := .plain p } ∧
        ∀ other, other ≠ target → h.get? other = m.heap.get? other
  parsed : ∀ (ev ev' : Evaluator) {args : List Value} {line line' : Nat} {id : ObjectId}
    {text : String} {m m₁ m₂ m₃ : Machine} {v : Value},
    argument args 0 = .object id → m.heap.body? id = some (.plain p) →
    (argument args 2 = .undefined ∨ ∃ x, argument args 2 = .number x) →
    ev.callHost .stringify args line m = .ok (.string text) m₁ →
    ev'.callHost .parse [.string text] line' m₂ = .ok v m₃ →
      ∃ id' q h', v = .object id' ∧ m₃ = { m₂ with heap := h' } ∧ m₂.heap.Extends h' ∧
        m₂.heap.size ≤ id' ∧ h'.body? id' = some (.plain q) ∧
        List.Forall₂ (fun e e' => e'.1 = e.1 ∧ ComesBack m.heap h' m₂.heap.size e.2 e'.2)
          (p.entries.filter fun e => m.heap.isWritten e.2) q.entries
  parses : ∀ (ev ev' : Evaluator) {args : List Value} {line line' : Nat} {id : ObjectId}
    {text : String} {m m₁ : Machine} (m₂ : Machine),
    argument args 0 = .object id → m.heap.body? id = some (.plain p) →
    (argument args 2 = .undefined ∨ ∃ x, argument args 2 = .number x) →
    ev.callHost .stringify args line m = .ok (.string text) m₁ →
    (∀ e ∈ p.entries, m.heap.isWritten e.2 = true →
      ∃ j, m.heap.IsTree 0 j e.2 ∧ j.depth ≤ 126) →
      ∃ v m₃, ev'.callHost .parse [.string text] line' m₂ = .ok v m₃

end Props

/-- **Properties keep the order of JavaScript** through all changes, and copies have the
same ones. -/
theorem props_keep_order :
    (∀ edits, Props.KeepsOrder edits ∧ (Props.after edits).IsCopied) ∧
      ∀ edits entries, Props.after (edits ++ .clear :: entries.map fun e => .set e.1 e.2) =
        Props.ofList entries := by
  refine ⟨fun edits => ⟨⟨?_, ?_, ?_, ?_, ?_⟩, ⟨?_, ?_, ?_, ?_, ?_, ?_, ?_⟩⟩, Props.after_clear⟩
  · exact (Props.after edits).nodup_keys
  · exact (Props.after edits).exists_keys_eq
  · exact fun k l => Props.before_iff_insertedBefore edits
  · exact (Props.after edits).get?_set
  · exact fun _ _ => Props.keys_set_of_mem
  · exact (Props.after edits).ofList_entries
  · exact fun ev _ _ position _ _ _ => ev.evalExpr_spread position
  · exact fun ev _ rest _ _ _ _ => ev.bindPattern_whole rest
  · exact fun ev _ _ rest _ _ _ _ _ _ => ev.bindPattern_rest rest
  · exact fun ev line _ _ _ _ => ev.assign_empty line
  · exact fun ev ev' _ _ _ _ _ _ _ _ _ _ => ev.parse_stringify_props ev'
  · exact fun ev ev' _ _ _ _ _ _ _ m₂ => ev.parse_of_trees ev' m₂

/-- A key is put in again behind another one, and an index behind both. -/
def indexedEdits : List Props.Edit :=
  [.set "b" .null, .set "a" .null, .erase "b", .set "b" .undefined, .set "7" (.bool true)]

/-- A scope in which `this` is an object with these properties, beside an empty one. -/
def indexedUse : Machine :=
  { Machine.initial .default with
    scopes := Scopes.initial.push ⟨some Scopes.globalId, .block, [], some (.object 0)⟩
    heap := (Heap.empty.add (.plain (Props.after indexedEdits)) none).add (.plain .empty) none }

/-- The text of the object, in which one of its properties has no place. -/
def indexedText : String := "\x7b\"7\":true,\"a\":null\x7d"

/-- Properties with an index, put in, erased and put in again, are copied in all these ways. -/
theorem props_keep_order_indexed :
    (Props.after indexedEdits).keys = ["7", "a", "b"] ∧
    Props.InsertedBefore indexedEdits "a" "b" ∧
    (Evaluator.bounded 2).evalExpr 1 (.mk (.object [.spread (.mk .this ⟨1, 4⟩)]) ⟨1, 1⟩) indexedUse =
      .ok (.object 2) { indexedUse with
        heap := indexedUse.heap.add (.plain (Props.after indexedEdits)) none } ∧
    (Evaluator.bounded 2).bindPattern 1 (.object [] (some (.name "r"))) (.object 0)
        (.declare .const) 1 indexedUse =
      (Evaluator.bounded 2).bind 1 (.name "r") (.object 2) (.declare .const) 1 { indexedUse with
        heap := indexedUse.heap.add (.plain (Props.after indexedEdits)) none } ∧
    (∃ m₁, (Evaluator.bounded 2).bindProperties 1 (.object 0) (.declare .const) 1
        [.mk (.static "a") (.mk (.name "x") none)] indexedUse = .ok ["a"] m₁ ∧
      ∃ q : Props, q.keys = ["7", "b"] ∧
        (Evaluator.bounded 2).bindPattern 1
            (.object [.mk (.static "a") (.mk (.name "x") none)] (some (.name "r"))) (.object 0)
            (.declare .const) 1 indexedUse =
          (Evaluator.bounded 2).bind 1 (.name "r") (.object 2) (.declare .const) 1
            { m₁ with heap := m₁.heap.add (.plain q) none }) ∧
    (∃ h, (Evaluator.bounded 2).callHost .assign [.object 1, .object 0] 1 indexedUse =
        .ok (.object 1) { indexedUse with heap := h } ∧
      h.body? 1 = some (.plain (Props.after indexedEdits))) ∧
    ∃ v m₃, (Evaluator.bounded 2).callHost .stringify [.object 0] 1 indexedUse =
        .ok (.string indexedText) indexedUse ∧
      (Evaluator.bounded 2).callHost .parse [.string indexedText] 1 indexedUse = .ok v m₃ ∧
      ∃ id q, v = .object id ∧ m₃.heap.body? id = some (.plain q) ∧ q.keys = ["7", "a"] := by
  obtain ⟨horder, hcopied⟩ := props_keep_order.1 indexedEdits
  have hothers : (Props.after indexedEdits).others = ["a", "b"] := by decide
  have hbefore : Props.InsertedBefore indexedEdits "a" "b" := by
    refine (horder.inserted "a" "b" (by decide) ?_ ?_).mp ?_ <;> rw [hothers] <;> decide
  have hp : indexedUse.heap.body? 0 = some (.plain (Props.after indexedEdits)) := rfl
  have hthis : (Evaluator.bounded 2).expr 1 (.mk .this ⟨1, 4⟩) indexedUse =
      .ok (.object 0) indexedUse := rfl
  obtain ⟨m₁, hused, hp₁⟩ : ∃ m₁, (Evaluator.bounded 2).bindProperties 1 (.object 0) (.declare .const)
      1 [.mk (.static "a") (.mk (.name "x") none)] indexedUse = .ok ["a"] m₁ ∧
      m₁.heap = indexedUse.heap := ⟨_, rfl, rfl⟩
  obtain ⟨q, hentries, hleft⟩ := hcopied.left _ (.name "r") hused (hp₁ ▸ hp)
  have hempty : indexedUse.heap.get? 1 = some ⟨.plain .empty, none, none, false⟩ := rfl
  obtain ⟨h, hassign, htarget, -⟩ := hcopied.assigned (.bounded 2) 1 hempty rfl rfl hp
  have hwrite : (Evaluator.bounded 2).callHost .stringify [.object 0] 1 indexedUse =
      .ok (.string indexedText) indexedUse := rfl
  have htrees : ∀ e ∈ (Props.after indexedEdits).entries, indexedUse.heap.isWritten e.2 = true →
      ∃ j, indexedUse.heap.IsTree 0 j e.2 ∧ j.depth ≤ 126 := by
    have hentries : (Props.after indexedEdits).entries =
        [("7", .bool true), ("a", .null), ("b", .undefined)] := rfl
    rw [hentries]
    simp only [List.forall_mem_cons]
    refine ⟨fun _ => ⟨.bool true, rfl, Nat.zero_le _⟩, fun _ => ⟨.null, rfl, Nat.zero_le _⟩,
      fun hw => ?_, List.forall_mem_nil _⟩
    cases hw
  obtain ⟨v, m₂, hparse⟩ :=
    hcopied.parses _ (.bounded 2) indexedUse rfl hp (.inl rfl) hwrite htrees
  obtain ⟨id, r, h', rfl, rfl, -, -, hr, hback⟩ :=
    hcopied.parsed _ _ rfl hp (.inl rfl) hwrite hparse
  refine ⟨by decide, hbefore, hcopied.spread _ ⟨1, 1⟩ hthis hp, hcopied.rest _ _ hp,
    ⟨m₁, hused, q, (congrArg (List.map Prod.fst) hentries).trans (by decide), ?_⟩,
    ⟨h, hassign, congrArg (Option.map HeapObject.body) htarget⟩,
    _, _, hwrite, hparse, id, r, rfl, hr,
    (Json.keys_eq_of_forall₂ hback fun _ _ he => he.1).trans (by decide)⟩
  rw [hleft, hp₁]
  rfl

/-- An object with a property that has no place in a text. -/
def undefinedObject : Machine :=
  { Machine.initial .default with
    heap := Heap.empty.add (.plain (.ofList [("a", .undefined)])) none }

/-- A program that copies such an object through its text. -/
def undefinedUse : String :=
  "const o = \x7b a: undefined \x7d; console.log(Object.keys(o).length, " ++
    "Object.keys(JSON.parse(JSON.stringify(o))).length)"

/-- A program that copies a large number through its text. -/
def largeNumberUse : String :=
  "const o = \x7b a: 1.2e27 \x7d; console.log(o.a, JSON.parse(JSON.stringify(o)).a)"

/-- **A text does not keep all properties**, nor all numbers. -/
theorem undefinedUse_loses_property :
    (¬ ∀ {ev : Evaluator} {m m₁ m₂ : Machine} {id id' : ObjectId} {p q : Props} {line : Nat}
      {text : String}, m.heap.body? id = some (.plain p) →
      ev.callHost .stringify [.object id] line m = .ok (.string text) m₁ →
      ev.callHost .parse [.string text] line m₁ = .ok (.object id') m₂ →
      m₂.heap.body? id' = some (.plain q) → q = p) ∧
    ((run .default undefinedUse).consoleTexts, (run .default undefinedUse).error) =
      (["1 0"], none) ∧
    ((run .default largeNumberUse).consoleTexts, (run .default largeNumberUse).error) =
      (["1.2e+27 1.2000000000000001e+27"], none) := by
  refine ⟨fun hall => ?_, by decide +kernel, by decide +kernel⟩
  have hread : Json.read "\x7b\x7d" = .ok (.object []) :=
    @Json.read_textAt none (fun _ h => by cases h) (.object []) ⟨trivial, .nil⟩ (by decide)
  have hparse : (Evaluator.bounded 1).callHost .parse [.string "\x7b\x7d"] 1 undefinedObject =
      .ok (.object 1) { undefinedObject with heap := undefinedObject.heap.add (.plain .empty) none } :=
    Exec.parseDocument_of_read hread
  have heq : Props.empty = .ofList [("a", .undefined)] :=
    @hall (.bounded 1) undefinedObject undefinedObject _ 0 1 _ _ 1 _ rfl rfl hparse rfl
  exact absurd (congrArg (·.entries.length) heq) (by decide)

end ScriptTrace
