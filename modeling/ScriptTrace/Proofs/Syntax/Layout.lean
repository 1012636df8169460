import Mathlib.Order.Interval.Set.Basic
import ScriptTrace.Proofs.Syntax.Excerpt
import ScriptTrace.Proofs.Syntax.Part

/-!
# Proofs/Syntax/Layout — sound parts in their places

A part of a program is sound if it has the shape that the evaluator relies on
(`Node.WellFormed`) and, for a statement, if its place and its excerpt are those of the text and the
statements inside it lie behind it in order (`Node.Placed`).

A value is *laid out* in a range of places if all its parts are sound, its statements lie in the
range one behind the other, and its binding patterns bind.  Each function that puts trees together
keeps that.
-/

namespace ScriptTrace.Syntax

open Grammar (Position)

/-! ## The shape of a part -/

mutual

/-- Whether a pattern binds names only, and writes to no member. -/
def Pattern.Binds : Pattern → Prop
  | .name _ => True
  | .member _ => False
  | .array slots rest => slotsBind slots ∧ restBinds rest
  | .object properties rest => propertiesBind properties ∧ restBinds rest

/-- The targets of the elements of an array pattern bind names. -/
def slotsBind : List Slot → Prop
  | [] => True
  | .hole :: slots => slotsBind slots
  | .filled (.mk target _) :: slots => target.Binds ∧ slotsBind slots

/-- The targets of the properties of an object pattern bind names. -/
def propertiesBind : List PropertyPattern → Prop
  | [] => True
  | .mk _ (.mk target _) :: properties => target.Binds ∧ propertiesBind properties

/-- The target behind the dots of a pattern binds names, if there is one. -/
def restBinds : Option Pattern → Prop
  | none => True
  | some rest => rest.Binds

end

/-- A member of an object, which is no optional access. -/
def Expr.IsMember (e : Expr) : Prop := ∃ object key p, e = .mk (.member object key false) p

/-- A target that has one old value: a name or a member. -/
def Pattern.IsReference : Pattern → Prop
  | .name _ => True
  | .member target => target.IsMember
  | _ => False

/-- **The shape that the evaluator relies on.** -/
def Node.WellFormed : Node → Prop
  | .expr (.update _ _ target) => target.isReference
  | .expr (.assign op target _) => op = .plain ∨ target.IsReference
  | .expr (.template pieces values) => pieces.length = values.length + 1
  | .pattern (.member target) => target.IsMember
  | .binding p => p.Binds
  | .declaration kind ds => kind = .const → ∀ d ∈ ds, d.value.isSome
  | .deed (.try _ handler finalizer) => handler.isSome ∨ finalizer.isSome
  | _ => True

/-! ## The place of a statement -/

namespace Stmt

/-- **The place and the excerpt of a statement are those of the text.** -/
structure Faithful (text : List Char) (s : Stmt) : Prop where
  placed : ∃ before behind, text = before ++ behind ∧ s.position = placeBehind before ∧
    behind ≠ [] ∧ Quotes s.excerpt behind
  excerpt_ne : s.excerpt ≠ ""
  length_excerpt : s.excerpt.length ≤ excerptLimit
  excerpt_line : '\n' ∉ s.excerpt.toList

/-- All of the first statement lies in front of the second. -/
def Before (s t : Stmt) : Prop := ∀ u, .statement u ∈ s.nodes → u.position < t.position

end Stmt

/-- A part of a program at a place in a range. -/
def Node.Placed (text : List Char) (range : Set Position) : Node → Prop
  | .statement s => s.position ∈ range ∧ s.Faithful text ∧
    (∀ u, .statement u ∈ s.node.inside → s.position < u.position) ∧ s.node.row.Pairwise Stmt.Before
  | .function f => f.body.row.Pairwise Stmt.Before
  | _ => True

/-- A part of a tree is well formed and stands at a place of the text. -/
def Node.Sound (text : List Char) (range : Set Position) (node : Node) : Prop :=
  node.WellFormed ∧ node.Placed text range

variable {α β : Type} {text : List Char} {I J K : Set Position}

/-- What stands within a range stands within a larger one. -/
theorem Node.Sound.mono {node : Node} (h : node.Sound text I) (hIJ : I ⊆ J) :
    node.Sound text J := by
  refine ⟨h.1, ?_⟩
  cases node with
  | statement s => exact ⟨hIJ h.2.1, h.2.2⟩
  | function f => exact h.2
  | _ => trivial

@[simp] theorem sound_expr {node : ExprNode} :
    (Node.expr node).Sound text I ↔ (Node.expr node).WellFormed := and_iff_left trivial

@[simp] theorem sound_pattern {p : Pattern} :
    (Node.pattern p).Sound text I ↔ (Node.pattern p).WellFormed := and_iff_left trivial

@[simp] theorem sound_binding {p : Pattern} : (Node.binding p).Sound text I ↔ p.Binds :=
  and_iff_left trivial

@[simp] theorem sound_declaration {kind : DeclarationKind} {ds : List Declarator} :
    (Node.declaration kind ds).Sound text I ↔ (kind = .const → ∀ d ∈ ds, d.value.isSome) :=
  and_iff_left trivial

@[simp] theorem sound_deed {node : StmtNode} :
    (Node.deed node).Sound text I ↔ (Node.deed node).WellFormed := and_iff_left trivial

@[simp] theorem sound_function {f : Function} :
    (Node.function f).Sound text I ↔ f.body.row.Pairwise Stmt.Before := and_iff_right trivial

/-- Only sound parts. -/
def AllSound (text : List Char) (range : Set Position) (parts : List Node) : Prop :=
  ∀ node ∈ parts, node.Sound text range

section

variable {node : Node} {parts others : List Node}

theorem AllSound.mono (h : AllSound text I parts) (hIJ : I ⊆ J) : AllSound text J parts :=
  fun node hnode => (h node hnode).mono hIJ

@[simp] theorem allSound_nil : AllSound text I [] := nofun

@[simp] theorem allSound_cons :
    AllSound text I (node :: parts) ↔ node.Sound text I ∧ AllSound text I parts :=
  List.forall_mem_cons

@[simp] theorem allSound_append :
    AllSound text I (parts ++ others) ↔ AllSound text I parts ∧ AllSound text I others :=
  List.forall_mem_append

@[simp] theorem allSound_flatMap {vs : List α} {list : α → List Node} :
    AllSound text I (vs.flatMap list) ↔ ∀ v ∈ vs, AllSound text I (list v) :=
  List.forall_mem_flatMap

end

/-! ## Values laid out in a range -/

open Parts

/-- **A value with sound parts in their places.** -/
structure Laid (text : List Char) (range : Set Position) [Parts α] (v : α) : Prop where
  sound : AllSound text range (nodes v)
  ordered : (row v).Pairwise Stmt.Before
  binds : ∀ p ∈ binders v, p.Binds

theorem Laid.mono [Parts α] {v : α} (h : Laid text I v) (hIJ : I ⊆ J) : Laid text J v :=
  ⟨h.sound.mono hIJ, h.ordered, h.binds⟩

theorem Stmt.mem_nodes (s : Stmt) : .statement s ∈ s.nodes := by
  cases s
  exact List.mem_cons_self

theorem laid_iff [Parts α] {v : α} :
    Laid text I v ↔ AllSound text I (nodes v) ∧ (row v).Pairwise Stmt.Before ∧
      ∀ p ∈ binders v, p.Binds :=
  ⟨fun h => ⟨h.sound, h.ordered, h.binds⟩, fun h => ⟨h.1, h.2.1, h.2.2⟩⟩

section

variable [Parts α] [Parts β] {v : α}

theorem Laid.position_mem (h : Laid text I v) {s u : Stmt} (hs : s ∈ row v)
    (hu : .statement u ∈ s.nodes) : u.position ∈ I :=
  (h.sound _ (nodes_subset v s hs hu)).2.1

/-- Two values, the second in places behind those of the first. -/
theorem Laid.pair {w : β} (hv : Laid text I v) (hw : Laid text J w)
    (hIJ : ∀ p ∈ I, ∀ q ∈ J, p < q) (hI : I ⊆ K) (hJ : J ⊆ K) : Laid text K (v, w) where
  sound := allSound_append.mpr ⟨hv.sound.mono hI, hw.sound.mono hJ⟩
  ordered := List.pairwise_append.mpr ⟨hv.ordered, hw.ordered, fun _ hs t ht _ hu =>
    hIJ _ (hv.position_mem hs hu) _ (hw.position_mem ht t.mem_nodes)⟩
  binds p hp := (List.mem_append.mp hp).elim (hv.binds p) (hw.binds p)

theorem Laid.fst {w : β} (h : Laid text I (v, w)) : Laid text I v where
  sound := (allSound_append.mp h.sound).1
  ordered := (List.pairwise_append.mp h.ordered).1
  binds p hp := h.binds p (List.mem_append_left _ hp)

theorem Laid.snd {w : β} (h : Laid text I (v, w)) : Laid text I w where
  sound := (allSound_append.mp h.sound).2
  ordered := (List.pairwise_append.mp h.ordered).2.1
  binds p hp := h.binds p (List.mem_append_right _ hp)

theorem laid_cons {vs : List α} : Laid text I (v :: vs) ↔ Laid text I (v, vs) := by
  simp [laid_iff]

@[simp] theorem laid_nil : Laid text I ([] : List α) := by simp [laid_iff]

@[simp] theorem laid_none : Laid text I (none : Option α) := by simp [laid_iff]

@[simp] theorem laid_some : Laid text I (some v) ↔ Laid text I v := by simp [laid_iff]

@[simp] theorem laid_inl : Laid text I (.inl v : α ⊕ β) ↔ Laid text I v := by simp [laid_iff]

@[simp] theorem laid_inr : Laid text I (.inr v : β ⊕ α) ↔ Laid text I v := by simp [laid_iff]

@[simp] theorem laid_ok : Laid text I (.ok v : Built α) ↔ Laid text I v := by simp [laid_iff]

@[simp] theorem laid_pure : Laid text I (pure v : Built α) ↔ Laid text I v := laid_ok

@[simp] theorem laid_error {e : SyntaxError} : Laid text I (.error e : Built α) := by
  simp [laid_iff]

@[simp] theorem laid_fault {f : Fault} {p : Position} : Laid text I (fault f p : Built α) :=
  laid_error

end

/-- Values in which no statement stands directly. -/
class Rowless (α : Type) [Parts α] : Prop where
  row_eq : ∀ v : α, row v = []

namespace Rowless

instance : Rowless Unit := ⟨fun _ => rfl⟩
instance : Rowless Char := ⟨fun _ => rfl⟩
instance : Rowless String := ⟨fun _ => rfl⟩
instance : Rowless Position := ⟨fun _ => rfl⟩
instance : Rowless Infix := ⟨fun _ => rfl⟩
instance : Rowless PrefixOperator := ⟨fun _ => rfl⟩
instance : Rowless Expr := ⟨fun _ => rfl⟩
instance : Rowless Element := ⟨fun _ => rfl⟩
instance : Rowless Property := ⟨fun _ => rfl⟩
instance : Rowless Key := ⟨fun _ => rfl⟩
instance : Rowless Pattern := ⟨fun _ => rfl⟩
instance : Rowless Slot := ⟨fun _ => rfl⟩
instance : Rowless PropertyPattern := ⟨fun _ => rfl⟩
instance : Rowless PatternElement := ⟨fun _ => rfl⟩
instance : Rowless Declarator := ⟨fun _ => rfl⟩
instance : Rowless ForStart := ⟨fun _ => rfl⟩
instance : Rowless SlotPart := ⟨fun _ => rfl⟩
instance : Rowless PropertyPart := ⟨fun _ => rfl⟩
instance : Rowless ParameterPart := ⟨fun _ => rfl⟩
instance : Rowless Suffix := ⟨fun _ => rfl⟩

variable [Parts α] [Parts β]

instance [Rowless α] : Rowless (List α) := ⟨fun vs => by simp [row_eq]⟩

instance [Rowless α] : Rowless (Option α) := ⟨fun v => by cases v <;> simp [row_eq]⟩

instance [Rowless α] : Rowless (Built α) := ⟨fun v => by cases v <;> simp [row_eq]⟩

instance [Rowless α] [Rowless β] : Rowless (α × β) := ⟨fun v => by simp [row_eq]⟩

instance [Rowless α] [Rowless β] : Rowless (α ⊕ β) := ⟨fun v => by cases v <;> simp [row_eq]⟩

end Rowless

@[simp] theorem laid_pair [Parts α] [Parts β] [Rowless α] {v : α} {w : β} :
    Laid text I (v, w) ↔ Laid text I v ∧ Laid text I w := by
  simp only [laid_iff, Parts.nodes, Parts.row, Parts.binders, Rowless.row_eq, allSound_append,
    List.nil_append, List.forall_mem_append, List.Pairwise.nil, true_and]
  tauto

@[simp] theorem laid_cons_iff [Parts α] [Rowless α] {v : α} {vs : List α} :
    Laid text I (v :: vs) ↔ Laid text I v ∧ Laid text I vs := by
  rw [laid_cons, laid_pair]

theorem Laid.bind [Parts β] {x : Built α} {f : α → Built β}
    (h : ∀ v, x = .ok v → Laid text I (f v)) : Laid text I (x >>= f) := by
  cases x with
  | error e => exact laid_error
  | ok v => exact h v rfl

theorem Laid.seq [Parts α] [Parts β] {x : Built α} {f : α → Built β} (hx : Laid text I x)
    (h : ∀ v, Laid text I v → Laid text I (f v)) : Laid text I (x >>= f) :=
  .bind fun v hv => h v (laid_ok.mp (hv ▸ hx))

theorem Laid.through [Parts α] [Parts β] {x : Built α} {f : α → β} (hx : Laid text I x)
    (h : ∀ v, Laid text I v → Laid text I (f v)) : Laid text I (x.map f) := by
  cases x with
  | error e => exact laid_error
  | ok v => exact laid_ok.mpr (h v (laid_ok.mp hx))

theorem Laid.map [Parts β] {x : Built α} {f : α → β} (h : ∀ v, x = .ok v → Laid text I (f v)) :
    Laid text I (x.map f) := by
  cases x with
  | error e => exact laid_error
  | ok v => exact laid_ok.mpr (h v rfl)

/-! ### Several parts -/

theorem bind_eq_ok {x : Built α} {f : α → Built β} {w : β} :
    (x >>= f) = .ok w ↔ ∃ v, x = .ok v ∧ f v = .ok w := by
  cases x with
  | error e => exact ⟨nofun, nofun⟩
  | ok v => exact ⟨fun h => ⟨v, rfl, h⟩, fun ⟨_, hv, h⟩ => by cases hv; exact h⟩

/-- A list is built if each of its parts is. -/
theorem allBuilt_eq_ok {parts : List (Built α)} {vs : List α} :
    allBuilt parts = .ok vs ↔ parts = vs.map .ok := by
  induction parts generalizing vs with
  | nil => cases vs <;> simp [allBuilt, pure, Except.pure]
  | cons part parts ih =>
    simp only [allBuilt] at ih
    simp only [allBuilt, List.mapM_cons, bind_eq_ok, ih, pure, Except.pure, Except.ok.injEq]
    cases vs with
    | nil => simp
    | cons v vs => aesop

/-- A list stands where its parts do. -/
theorem Laid.allBuilt [Parts α] {parts : List (Built α)} (h : Laid text I parts) :
    Laid text I (allBuilt parts) := by
  cases hall : Syntax.allBuilt parts with
  | error e => exact laid_error
  | ok vs =>
    obtain rfl := allBuilt_eq_ok.mp hall
    simpa [laid_iff, List.flatMap_map] using h

theorem optionBuilt_eq_ok {part : Option (Built α)} {v : Option α} :
    optionBuilt part = .ok v ↔ part = v.map .ok := by
  rcases part with _ | _ | w
  · cases v <;> simp [Syntax.optionBuilt]
  · cases v <;> simp [Syntax.optionBuilt, Except.map]
  · cases v <;> simp [Syntax.optionBuilt, Except.map]

theorem Laid.optionBuilt [Parts α] {part : Option (Built α)} (h : Laid text I part) :
    Laid text I (optionBuilt part) := by
  cases part with
  | none => exact laid_ok.mpr laid_none
  | some part => exact .map fun v hv => laid_some.mpr (laid_ok.mp (hv ▸ laid_some.mp h))

/-! ## Literals -/

/-- **A template has one piece more than values.** -/
theorem length_templateParts (parts : List (List Char ⊕ Expr)) :
    (templateParts parts).1.length = (templateParts parts).2.length + 1 := by
  fun_induction templateParts parts with
  | case1 => rfl
  | case2 chars parts piece pieces values h ih => simpa [h] using ih
  | case3 chars parts pieces values _ h ih => simpa [h] using ih
  | case4 value parts pieces values h ih => simpa [h] using ih

theorem nodes_templateParts (parts : List (List Char ⊕ Expr)) :
    nodes (templateParts parts).2 = nodes parts := by
  fun_induction templateParts parts <;> simp_all

/-! ## Targets -/

section

variable {e : Expr} {p : Pattern}

theorem requireReference_eq_ok {u : Unit} : requireReference e = .ok u ↔ e.isReference := by
  simp only [requireReference]
  split <;> simp_all [fault]

/-- An element is sound if its target and its default value are. -/
theorem sound_asElement {target : Built Pattern} {element : PatternElement}
    (h : asElement e target = .ok element) (he : AllSound text I e.nodes)
    (htarget : ∀ p, target = .ok p → AllSound text I p.nodes) :
    AllSound text I element.nodes := by
  unfold asElement at h
  split at h
  · rename_i target value hplain
    cases h
    unfold Expr.plainAssignment? at hplain
    split at hplain
    · cases hplain
      simp_all
    · cases hplain
  · cases target with
    | error => cases h
    | ok p =>
      cases h
      simpa using htarget p rfl

mutual

/-- **An expression read as a target keeps its parts sound**, and becomes a target that can be
written. -/
theorem Expr.sound_toPattern : ∀ (e : Expr) {p : Pattern}, e.toPattern = .ok p →
    AllSound text I e.nodes → AllSound text I p.nodes
  | .mk (.name x) _, _, h, _ => by
    cases h
    simp [Node.WellFormed]
  | .mk (.member object key false) q, _, h, he => by
    cases h
    simpa [Node.WellFormed, Expr.IsMember] using he
  | .mk (.array elements) q, _, h, he => by
    rw [Expr.toPattern] at h
    obtain ⟨⟨slots, rest⟩, htargets, h⟩ := bind_eq_ok.mp h
    cases h
    have hall := sound_elementTargets q elements htargets (by simp_all)
    simp_all [Node.WellFormed]
  | .mk (.object properties) _, _, h, he => by
    rw [Expr.toPattern] at h
    obtain ⟨⟨targets, rest⟩, htargets, h⟩ := bind_eq_ok.mp h
    cases h
    have hall := sound_propertyTargets properties htargets (by simp_all)
    simp_all [Node.WellFormed]
  | .mk (.member _ _ true) _, _, h, _ => by cases h
  | .mk (.number _) _, _, h, _ => by cases h
  | .mk (.string _) _, _, h, _ => by cases h
  | .mk (.bool _) _, _, h, _ => by cases h
  | .mk .null _, _, h, _ => by cases h
  | .mk (.template ..) _, _, h, _ => by cases h
  | .mk .this _, _, h, _ => by cases h
  | .mk (.function _) _, _, h, _ => by cases h
  | .mk (.unary ..) _, _, h, _ => by cases h
  | .mk (.update ..) _, _, h, _ => by cases h
  | .mk (.binary ..) _, _, h, _ => by cases h
  | .mk (.logical ..) _, _, h, _ => by cases h
  | .mk (.assign ..) _, _, h, _ => by cases h
  | .mk (.conditional ..) _, _, h, _ => by cases h
  | .mk (.call ..) _, _, h, _ => by cases h
  | .mk (.new ..) _, _, h, _ => by cases h
  | .mk (.sequence _) _, _, h, _ => by cases h

/-- The targets of sound elements are sound. -/
theorem sound_elementTargets (q : Position) : ∀ (elements : List Element)
    {slots : List Slot} {rest : Option Pattern}, elementTargets q elements = .ok (slots, rest) →
    AllSound text I (elementsNodes elements) →
    AllSound text I (slotsNodes slots ++ restNodes rest)
  | [], _, _, h, _ => by
    cases h
    simp
  | [.spread source], _, _, h, he => by
    rw [elementTargets] at h
    obtain ⟨target, htarget, h⟩ := bind_eq_ok.mp h
    cases h
    simpa using source.sound_toPattern htarget (by simpa using he)
  | .spread _ :: _ :: _, _, _, h, _ => by cases h
  | .single value :: more, _, _, h, he => by
    rw [elementTargets] at h
    obtain ⟨element, helement, h⟩ := bind_eq_ok.mp h
    obtain ⟨⟨slots, rest⟩, hmore, h⟩ := bind_eq_ok.mp h
    cases h
    have hvalue : AllSound text I value.nodes := by simp_all
    have hone := sound_asElement helement hvalue fun p hp => value.sound_toPattern hp hvalue
    have hall := sound_elementTargets q more hmore (by simp_all)
    simp_all

/-- The targets of sound properties are sound. -/
theorem sound_propertyTargets : ∀ (properties : List Property)
    {targets : List PropertyPattern} {rest : Option Pattern},
    propertyTargets properties = .ok (targets, rest) →
    AllSound text I (propertiesNodes properties) →
    AllSound text I (propertyPatternsNodes targets ++ restNodes rest)
  | [], _, _, h, _ => by
    cases h
    simp
  | .keyed key value :: more, _, _, h, he => by
    rw [propertyTargets] at h
    obtain ⟨element, helement, h⟩ := bind_eq_ok.mp h
    obtain ⟨⟨targets, rest⟩, hmore, h⟩ := bind_eq_ok.mp h
    cases h
    have hvalue : AllSound text I value.nodes := by simp_all
    have hone := sound_asElement helement hvalue fun p hp => value.sound_toPattern hp hvalue
    have hall := sound_propertyTargets more hmore (by simp_all)
    simp_all
  | .spread source :: more, _, _, h, he => by
    rw [propertyTargets] at h
    obtain ⟨target, htarget, h⟩ := bind_eq_ok.mp h
    obtain ⟨⟨targets, rest⟩, hmore, h⟩ := bind_eq_ok.mp h
    cases h
    have hone := source.sound_toPattern htarget (by simp_all)
    have hall := sound_propertyTargets more hmore (by simp_all)
    cases rest <;> simp_all

end

end

/-- An expression that can be written to is a pattern that can be. -/
theorem Expr.isReference_toPattern {e : Expr} {p : Pattern} (he : e.isReference)
    (h : e.toPattern = .ok p) : p.IsReference := by
  obtain ⟨node, q⟩ := e
  cases node with
  | name x =>
    cases h
    trivial
  | member object key isOptional =>
    cases isOptional with
    | true => cases he
    | false =>
      cases h
      exact ⟨object, key, q, rfl⟩
  | _ => cases he

/-- An assignment stands where its sides do. -/
theorem Laid.assignment {q : Position} {left : Expr} {op : AssignOperator} {value : Built Expr}
    (hleft : Laid text I left) (hvalue : Laid text I value) :
    Laid text I (assignment q left op value) := by
  unfold Syntax.assignment
  extract_lets assigned
  have hassigned {target : Pattern} (htarget : left.toPattern = .ok target)
      (hop : op = .plain ∨ left.isReference) : Laid text I (assigned target) := by
    refine .bind fun value hv => ?_
    have hsound := left.sound_toPattern htarget hleft.sound
    have hreference := hop.imp_right (left.isReference_toPattern · htarget)
    have hvalue := (laid_ok.mp (hv ▸ hvalue)).sound
    refine laid_pure.mpr ⟨?_, .nil, nofun⟩
    simp_all [Node.WellFormed]
  split
  · rename_i hop
    exact .bind fun target htarget => hassigned htarget (by simpa using hop)
  · exact laid_fault

/-! ## Patterns -/

theorem slotsBind_iff (slots : List Slot) :
    slotsBind slots ↔ ∀ p ∈ binders slots, p.Binds := by
  induction slots with
  | nil => simp [slotsBind]
  | cons slot slots ih =>
    rcases slot with _ | ⟨target, fallback⟩ <;> simp_all [slotsBind, PatternElement.target]

/-- Properties bind names if each of their targets does. -/
theorem propertiesBind_iff (properties : List PropertyPattern) :
    propertiesBind properties ↔ ∀ p ∈ binders properties, p.Binds := by
  induction properties with
  | nil => simp [propertiesBind]
  | cons property properties ih =>
    obtain ⟨key, target, fallback⟩ := property
    simp_all [propertiesBind, PropertyPattern.element, PatternElement.target]

theorem restBinds_iff (rest : Option Pattern) : restBinds rest ↔ ∀ p ∈ binders rest, p.Binds := by
  cases rest <;> simp [restBinds]

@[simp] theorem laid_name {x : String} : Laid text I (Pattern.name x) := by
  simp [laid_iff, Node.WellFormed, Pattern.Binds]

@[simp] theorem laid_element {target : Pattern} {fallback : Option Expr} :
    Laid text I (PatternElement.mk target fallback) ↔ Laid text I target ∧
      Laid text I fallback := by
  cases fallback <;> simp [laid_iff, PatternElement.target, and_right_comm]

@[simp] theorem laid_static {x : String} : Laid text I (Key.static x) := by simp [laid_iff]

@[simp] theorem laid_computed {value : Expr} :
    Laid text I (Key.computed value) ↔ Laid text I value := by simp [laid_iff]

@[simp] theorem laid_hole : Laid text I Slot.hole := by simp [laid_iff]

@[simp] theorem laid_filled {element : PatternElement} :
    Laid text I (Slot.filled element) ↔ Laid text I element := by simp [laid_iff]

@[simp] theorem laid_slotRest {target : Built Pattern} :
    Laid text I (SlotPart.rest target) ↔ Laid text I target := by
  cases target <;> simp [laid_iff]

@[simp] theorem laid_slotElement {value : Built PatternElement} :
    Laid text I (SlotPart.element value) ↔ Laid text I value := by
  cases value <;> simp [laid_iff]

/-- The places of an array pattern stand where their parts do. -/
theorem Laid.arraySlots {parts : List (Position × SlotPart)} {rest : Option Pattern}
    (hparts : Laid text I parts) (hrest : Laid text I rest) :
    Laid text I (arraySlots parts rest) := by
  fun_induction Syntax.arraySlots parts rest with
  | case1 rest => simpa using hrest
  | case2 p more rest ih =>
    refine .bind fun ⟨slots, rest'⟩ h => ?_
    have hmore := h ▸ ih (by simp_all) hrest
    simpa using hmore
  | case3 => exact laid_fault
  | case4 p target more rest _ ih =>
    refine .bind fun target h => ?_
    subst h
    exact ih target (by simp_all) (by simp_all)
  | case5 => exact laid_fault
  | case6 p value more rest _ ih =>
    refine .bind fun element h => .bind fun ⟨slots, rest'⟩ hmore => ?_
    subst h
    have hmore := hmore ▸ ih (by simp_all) hrest
    simp_all

theorem laid_array {slots : List Slot} {rest : Option Pattern} (h : Laid text I (slots, rest)) :
    Laid text I (Pattern.array slots rest) := by
  have hslots := (slotsBind_iff slots).mpr (laid_pair.mp h).1.binds
  have hrest := (restBinds_iff rest).mpr (laid_pair.mp h).2.binds
  have hsound := h.sound
  cases rest <;> simp_all [laid_iff, Node.WellFormed, Pattern.Binds]

theorem laid_object {properties : List PropertyPattern} {rest : Option Pattern}
    (h : Laid text I (properties, rest)) : Laid text I (Pattern.object properties rest) := by
  have hproperties := (propertiesBind_iff properties).mpr (laid_pair.mp h).1.binds
  have hrest := (restBinds_iff rest).mpr (laid_pair.mp h).2.binds
  have hsound := h.sound
  cases rest <;> simp_all [laid_iff, Node.WellFormed, Pattern.Binds]

theorem laid_list [Parts α] [Rowless α] {vs : List α} :
    Laid text I vs ↔ ∀ v ∈ vs, Laid text I v := by
  induction vs with
  | nil => simp
  | cons v vs ih => simp [ih]

/-- An array pattern stands where its parts do. -/
theorem Laid.arrayPattern {parts : List (Position × SlotPart)} (h : Laid text I parts) :
    Laid text I (arrayPattern parts) := by
  unfold Syntax.arrayPattern
  extract_lets parts'
  refine .bind fun ⟨slots, rest⟩ hslots => laid_pure.mpr (laid_array ?_)
  have hparts : Laid text I parts' := by
    simp only [parts']
    split
    · exact laid_list.mpr fun v hv => laid_list.mp h v ((List.dropLast_subset _ hv))
    · exact h
  exact laid_ok.mp (hslots ▸ hparts.arraySlots laid_none)

@[simp] theorem laid_propertyRest {target : Built Pattern} :
    Laid text I (PropertyPart.rest target) ↔ Laid text I target := by
  cases target <;> simp [laid_iff]

@[simp] theorem laid_propertyKeyed {key : Built Key} {element : Built PatternElement} :
    Laid text I (PropertyPart.keyed key element) ↔ Laid text I key ∧ Laid text I element := by
  cases key <;> cases element <;> simp [laid_iff, and_assoc]

@[simp] theorem laid_propertyShorthand {element : Built PatternElement} :
    Laid text I (PropertyPart.shorthand element) ↔ Laid text I element := by
  cases element <;> simp [laid_iff]

@[simp] theorem laid_propertyPattern {key : Key} {element : PatternElement} :
    Laid text I (PropertyPattern.mk key element) ↔ Laid text I key ∧ Laid text I element := by
  simp [laid_iff, PropertyPattern.element, and_assoc]

/-- The properties of an object pattern stand where their parts do. -/
theorem Laid.objectProperties {parts : List (Position × PropertyPart)} (h : Laid text I parts) :
    Laid text I (objectProperties parts) := by
  induction parts with
  | nil => simp [Syntax.objectProperties]
  | cons part parts ih =>
    obtain ⟨p, part⟩ := part
    have hmore := ih (laid_cons_iff.mp h).2
    cases part with
    | rest target =>
      refine .bind fun target htarget => .bind fun ⟨properties, rest⟩ hrest => ?_
      cases rest <;> simp_all
    | keyed key element =>
      refine .bind fun key hkey => .bind fun element helement =>
        .bind fun ⟨properties, rest⟩ hrest => ?_
      simp_all
    | shorthand element =>
      refine .bind fun element helement => ?_
      split
      · refine .bind fun ⟨properties, rest⟩ hrest => ?_
        simp_all
      · exact laid_fault

theorem Laid.objectPattern {parts : List (Position × PropertyPart)} (h : Laid text I parts) :
    Laid text I (objectPattern parts) :=
  .bind fun ⟨_, _⟩ hproperties =>
    laid_pure.mpr (laid_object (laid_ok.mp (hproperties ▸ h.objectProperties)))

@[simp] theorem laid_parameterRest {target : Built Pattern} :
    Laid text I (ParameterPart.rest target) ↔ Laid text I target := by
  cases target <;> simp [laid_iff]

@[simp] theorem laid_parameterElement {value : Built PatternElement} :
    Laid text I (ParameterPart.element value) ↔ Laid text I value := by
  cases value <;> simp [laid_iff]

/-- Parameters stand where their parts do. -/
theorem Laid.parameterList {parts : List (Position × ParameterPart)} {rest : Option Pattern}
    (hparts : Laid text I parts) (hrest : Laid text I rest) :
    Laid text I (parameterList parts rest) := by
  fun_induction Syntax.parameterList parts rest with
  | case1 rest => simpa using hrest
  | case2 => exact laid_fault
  | case3 p more rest _ target ih =>
    refine .bind fun target h => ?_
    subst h
    exact ih target (by simp_all) (by simp_all)
  | case4 p more rest _ value ih =>
    refine .bind fun element h => .bind fun ⟨elements, rest'⟩ hmore => ?_
    subst h
    have hmore := hmore ▸ ih (by simp_all) hrest
    simp_all

@[simp] theorem laid_tail {elements : List PatternElement} {rest : Option Pattern}
    {body : List Stmt} : Laid text I (FunctionTail.mk elements rest body) ↔
      Laid text I elements ∧ Laid text I rest ∧ Laid text I body := by
  rw [← laid_pair, ← laid_pair]
  exact ⟨fun h => ⟨h.1, h.2, h.3⟩, fun h => ⟨h.1, h.2, h.3⟩⟩

theorem Laid.parameters {elements : List PatternElement} (h : Laid text I elements) :
    AllSound text I (parametersNodes elements) := by
  simp only [parametersNodes_eq, allSound_flatMap, allSound_cons, sound_binding]
  exact fun e he => ⟨h.binds _ (List.mem_flatMap.mpr ⟨e, he, List.mem_singleton.mpr rfl⟩),
    allSound_flatMap.mp h.sound e he⟩

theorem Laid.binding {rest : Option Pattern} (h : Laid text I rest) :
    AllSound text I (bindingNodes rest) := by
  cases rest with
  | none => exact allSound_nil
  | some p => exact allSound_cons.mpr ⟨⟨h.binds p List.mem_cons_self, trivial⟩, h.sound⟩

@[simp] theorem laid_block {body : List Stmt} :
    Laid text I (FunctionBody.block body) ↔ Laid text I body := by simp [laid_iff]

@[simp] theorem laid_value {value : Expr} :
    Laid text I (FunctionBody.expr value) ↔ Laid text I value := by simp [laid_iff]

theorem laid_function {x : Option String} {elements : List PatternElement} {rest : Option Pattern}
    {body : FunctionBody} {isArrow : Bool} {p : Position} (helements : Laid text I elements)
    (hrest : Laid text I rest) (hbody : Laid text I body) :
    Laid text I (Function.mk x elements rest body isArrow p) :=
  ⟨allSound_cons.mpr ⟨sound_function.mpr hbody.ordered, allSound_append.mpr
    ⟨helements.parameters, allSound_append.mpr ⟨hrest.binding, hbody.sound⟩⟩⟩, .nil, nofun⟩

theorem Laid.function {tail : FunctionTail} {x : Option String} {p : Position}
    (h : Laid text I tail) : Laid text I (tail.function x p) := by
  obtain ⟨elements, rest, body⟩ := tail
  obtain ⟨helements, hrest, hbody⟩ := laid_tail.mp h
  exact laid_function helements hrest (laid_block.mpr hbody)

@[simp] theorem laid_functionNode {f : Function} :
    Laid text I (ExprNode.function f) ↔ Laid text I f := by simp [laid_iff, Node.WellFormed]

/-! ## Operators -/

@[simp] theorem laid_expr {node : ExprNode} {p : Position} :
    Laid text I (Expr.mk node p) ↔ Laid text I node := by simp [laid_iff]

@[simp] theorem laid_single {value : Expr} :
    Laid text I (Element.single value) ↔ Laid text I value := by simp [laid_iff]

@[simp] theorem laid_spread {source : Expr} :
    Laid text I (Element.spread source) ↔ Laid text I source := by simp [laid_iff]

@[simp] theorem laid_keyed {key : Key} {value : Expr} :
    Laid text I (Property.keyed key value) ↔ Laid text I key ∧ Laid text I value := by
  simp [laid_iff]

@[simp] theorem laid_propertySpread {source : Expr} :
    Laid text I (Property.spread source) ↔ Laid text I source := by simp [laid_iff]

theorem laid_operator {op : Infix} {left right : Expr} :
    Laid text I (op.node left right) ↔ Laid text I left ∧ Laid text I right := by
  cases op <;> simp [laid_iff, Infix.node, Node.WellFormed]

/-- **Grouping a chain of operators keeps its operands.** -/
theorem Laid.climb {fuel power : Nat} {left : Expr} {rest : List (Infix × Expr)}
    (hleft : Laid text I left) (hrest : Laid text I rest) :
    Laid text I (climb fuel power left rest) := by
  fun_induction Syntax.climb fuel power left rest <;> simp_all [laid_operator]

theorem Laid.chain {first : Expr} {rest : List (Infix × Expr)} (hfirst : Laid text I first)
    (hrest : Laid text I rest) : Laid text I (chain first rest) :=
  (laid_pair.mp (hfirst.climb hrest)).1

/-- An operand with operators before it stands where its parts do. -/
theorem Laid.applyFront {operand : Expr} {front : List (Position × PrefixOperator)}
    (h : Laid text I operand) : Laid text I (applyFront operand front) := by
  induction front with
  | nil => exact laid_ok.mpr h
  | cons part front ih =>
    obtain ⟨p, op⟩ := part
    refine .bind fun inner hinner => ?_
    have hinner := laid_ok.mp (hinner ▸ ih)
    cases op with
    | update op =>
      refine .bind fun _ hreference => ?_
      have hreference := requireReference_eq_ok.mp hreference
      refine laid_pure.mpr ?_
      simp_all [laid_iff, Node.WellFormed]
    | unary op =>
      refine laid_pure.mpr ?_
      simp_all [laid_iff, Node.WellFormed]

@[simp] theorem laid_call {arguments : Built (List Element)} {isOptional : Bool} :
    Laid text I (Suffix.call arguments isOptional) ↔ Laid text I arguments := by
  cases arguments <;> simp [laid_iff]

@[simp] theorem laid_member {key : Built Key} {isOptional : Bool} :
    Laid text I (Suffix.member key isOptional) ↔ Laid text I key := by
  cases key <;> simp [laid_iff]

/-- An operand with suffixes behind it stands where its parts do. -/
theorem Laid.applySuffixes {object : Expr} {suffixes : List Suffix} (hobject : Laid text I object)
    (hsuffixes : Laid text I suffixes) : Laid text I (applySuffixes object suffixes) := by
  induction suffixes generalizing object with
  | nil => exact laid_ok.mpr hobject
  | cons suffix suffixes ih =>
    have hmore := (laid_cons_iff.mp hsuffixes).2
    have hone := (laid_cons_iff.mp hsuffixes).1
    cases suffix with
    | call arguments isOptional =>
      refine .bind fun arguments h => ih ?_ hmore
      subst h
      simp_all [laid_iff, Node.WellFormed]
    | member key isOptional =>
      refine .bind fun key h => ih ?_ hmore
      subst h
      simp_all [laid_iff, Node.WellFormed]

theorem Laid.sequence {p : Position} {es : List Expr} (h : Laid text I es) :
    Laid text I (sequence p es) := by
  unfold Syntax.sequence
  split
  · simpa using h
  · simpa [laid_iff, Node.WellFormed] using h.sound

/-! ## Statements -/

/-- Declared variables stand where their parts do, and a `const` has a value. -/
theorem Laid.declarators {kind : DeclarationKind}
    {parts : List (Position × Built Pattern × Option (Built Expr))} (h : Laid text I parts) :
    Laid text I ((declarators kind parts).map fun ds => (kind, ds)) := by
  induction parts with
  | nil => simp [Syntax.declarators, Except.map, laid_iff]
  | cons part parts ih =>
    obtain ⟨p, target, value⟩ := part
    obtain ⟨hpart, hparts⟩ := laid_cons_iff.mp h
    obtain ⟨-, htarget, hvalue⟩ := by simpa using hpart
    refine .map fun ds hds => ?_
    rw [Syntax.declarators] at hds
    obtain ⟨target, ht, hds⟩ := bind_eq_ok.mp hds
    obtain ⟨value, hv, hds⟩ := bind_eq_ok.mp hds
    have htarget := laid_ok.mp (ht ▸ htarget)
    have hvalue := laid_ok.mp (hv ▸ hvalue.optionBuilt)
    split at hds
    · cases hds
    · rename_i hconst
      obtain ⟨more, hmore, hds⟩ := bind_eq_ok.mp hds
      cases hds
      have hall : Laid text I (kind, more) := by simpa [hmore, Except.map] using ih hparts
      have hbinds := htarget.binds
      have hsound := htarget.sound
      have hsound' := hvalue.sound
      have hall := hall.sound
      refine ⟨?_, .nil, nofun⟩
      cases value <;> simp_all [Declarator.value]

/-- A loop stands where its head and its body do. -/
theorem Laid.loop {head : LoopHead} {body : Stmt} (h : Laid text I (head, body)) :
    Laid text I (head.node body) := by
  have hsound := h.sound
  have hbinds := h.binds
  cases head with
  | each loop kind target source =>
    refine ⟨?_, by simp [LoopHead.node], fun _ h => by cases h⟩
    cases kind <;> simp_all [LoopHead.node, Node.WellFormed]
  | counting start test update =>
    refine ⟨?_, by simp [LoopHead.node], fun _ h => by cases h⟩
    cases start <;> cases test <;> cases update <;> simp_all [LoopHead.node, Node.WellFormed]

end ScriptTrace.Syntax
