import ScriptTrace.Proofs.Closed
import ScriptTrace.Proofs.Compositional
import ScriptTrace.Proofs.Syntax.Layout

/-!
# Proofs/Defence/Proper — what is defended against

Evaluation ends in a defensive fault where an expression or a pattern has a shape that the parser
gives to none.  A piece of work on well-formed syntax, in a machine whose closures are functions of
well-formed syntax, asks for such work only and leaves such a machine (`Upholds`); so it never comes
to such a shape.

Functions of the host make no closures and ask for calls only, so what they are made of is enough to
know of them (`Upholds.host`).  Functions of the evaluator are taken one by one, each from the shape
of its syntax to that of the parts it asks for.
-/

namespace ScriptTrace

open Syntax (Expr ExprNode Element Property Key Pattern PatternElement PropertyPattern Slot Stmt
  StmtNode Declarator DeclarationKind ForStart LoopOver Handler Case Node Program)

/-! ## Proper syntax -/

/-- Only well-formed parts. -/
def Syntax.Proper (parts : List Node) : Prop := ∀ node ∈ parts, node.WellFormed

namespace Syntax

variable {α : Type} {node : Node} {parts others : List Node}

@[simp] theorem proper_nil : Proper [] := nofun

@[simp] theorem proper_cons : Proper (node :: parts) ↔ node.WellFormed ∧ Proper parts :=
  List.forall_mem_cons

@[simp] theorem proper_append : Proper (parts ++ others) ↔ Proper parts ∧ Proper others :=
  List.forall_mem_append

@[simp] theorem proper_flatMap {vs : List α} {f : α → List Node} :
    Proper (vs.flatMap f) ↔ ∀ v ∈ vs, Proper (f v) := List.forall_mem_flatMap

end Syntax

open Syntax (Proper)

/-- What is written to an object makes no closure of it. -/
theorem HeapObject.body_of_changed {o : HeapObject} {c : Change} {closure : Closure}
    (h : (o.changed c).body = .closure closure) : o.body = .closure closure := by
  revert h
  fun_cases HeapObject.changed o c <;> simp_all

/-- A machine whose closures are functions of proper syntax. -/
def Machine.IsProper (m : Machine) : Prop :=
  ∀ ⦃id : ObjectId⦄ ⦃c : Closure⦄, m.heap.body? id = some (.closure c) → Proper c.definition.nodes

namespace Machine.IsProper

variable {m m' : Machine} {f : Option Fault}

theorem of_heap (hm : m.IsProper) (h : m'.heap = m.heap) : m'.IsProper :=
  fun _ _ hbody => hm (h ▸ hbody)

/-- A new object keeps the heap proper, if the body of a closure is well formed. -/
theorem add (hm : m.IsProper) {body : Body} {className : Option String}
    (hbody : ∀ c, body = .closure c → Proper c.definition.nodes)
    (h : m'.heap = m.heap.add body className) : m'.IsProper := by
  intro id c hc
  rw [h, Heap.body?_add] at hc
  split at hc
  · exact hbody c (Option.some.inj hc)
  · exact hm hc

/-- No change makes a function of what was none. -/
theorem change (hm : m.IsProper) {id : ObjectId} {c : Change}
    (h : m'.heap = m.heap.modify id (·.changed c)) : m'.IsProper := by
  intro id' closure hbody
  rw [h, Heap.body?_modify] at hbody
  split at hbody
  · obtain ⟨o, ho, hbody⟩ := Option.map_eq_some_iff.mp hbody
    have hbefore : m.heap.body? id' = some (.closure closure) := by
      rw [Heap.body?, ho, Option.map_some, HeapObject.body_of_changed hbody]
    exact hm hbefore
  · exact hm hbody

/-- **A single effect of the host** makes no closures, and is no defensive fault. -/
theorem effect (hm : m.IsProper) (h : Effect .host Set.univ m f m') :
    m'.IsProper ∧ ∀ g, f = some g → g.isDefensive = false := by
  have hnone : ∀ g, (none : Option Fault) = some g → g.isDefensive = false :=
    fun _ h => by cases h
  cases h with
  | fail _ hd =>
    refine ⟨hm, fun g hg => Bool.eq_false_iff.mpr fun hdef => ?_⟩
    exact (hd (Option.some.inj hg ▸ hdef)).ne_host rfl
  | allocate _ hc => exact ⟨hm.add (fun c h => absurd rfl (hc c h).ne_host) rfl, hnone⟩
  | raise => exact ⟨hm.add (fun _ h => by cases h) rfl, by rintro _ ⟨⟩; rfl⟩
  | change => exact ⟨hm.change rfl, hnone⟩
  | putIn => exact ⟨fun _ _ hbody => hm ((Heap.body?_label ..).symm.trans hbody), hnone⟩
  | throw | overrun => exact ⟨hm.of_heap rfl, by rintro _ ⟨⟩; rfl⟩
  | _ => exact ⟨hm.of_heap rfl, hnone⟩

theorem effects (hm : m.IsProper) (h : Effects .host Set.univ m f m') :
    m'.IsProper ∧ ∀ g, f = some g → g.isDefensive = false := by
  induction h with
  | one h => exact hm.effect h
  | more h _ ih => exact ih (hm.effect h).1

end Machine.IsProper

/-! ## Actions that uphold what is proper -/

/-- **An action that, by means of an evaluator, leaves proper machines and ends in no defensive
fault.** -/
structure Upholds (ev : Evaluator) {α : Type} (x : Evaluator → Exec α) (P : α → Prop) : Prop where
  yields : ∀ {m m' : Machine} {a : α}, m.IsProper → x ev m = .ok a m' → P a
  keeps : ∀ {m : Machine}, m.IsProper → ((x ev).after m).IsProper
  fault : ∀ {m : Machine} {f : Fault}, m.IsProper → (x ev).faultOf m = some f →
    f.isDefensive = false

variable {ev : Evaluator} {α β : Type}

namespace Upholds

variable {x : Evaluator → Exec α} {P R : α → Prop}

/-- What changes no object and does not end in a fault. -/
theorem of_heap {x : Exec α} (hheap : ∀ m, (x.after m).heap = m.heap)
    (hfault : ∀ m, x.faultOf m = none) (hP : ∀ a, P a) : Upholds ev (fun _ => x) P where
  yields _ _ := hP _
  keeps hm := hm.of_heap (hheap _)
  fault _ hf := nomatch (hfault _).symm.trans hf

theorem weaken (hx : Upholds ev x P) (h : ∀ a, P a → R a) : Upholds ev x R where
  yields hm hxa := h _ (hx.yields hm hxa)
  keeps := hx.keeps
  fault := hx.fault

theorem any (hx : Upholds ev x P) : Upholds ev x Any := hx.weaken fun _ _ => trivial

/-- One action behind another upholds what both of them do. -/
theorem bind {k : α → Evaluator → Exec β} {R : β → Prop} (hx : Upholds ev x P)
    (hk : ∀ a, P a → Upholds ev (k a) R) : Upholds ev (fun ev => x ev >>= fun a => k a ev) R where
  yields hm h := by
    obtain ⟨a, m₁, hxa, hka⟩ := Exec.bind_eq_ok h
    have hm₁ := hx.keeps hm
    rw [Exec.after_of_ok hxa] at hm₁
    exact (hk a (hx.yields hm hxa)).yields hm₁ hka
  keeps {m} hm := by
    have hm₁ := hx.keeps hm
    cases h : x ev m with
    | ok a m₁ =>
      rw [Exec.after_of_ok h] at hm₁
      rw [Exec.after_bind_of_ok h]
      exact (hk a (hx.yields hm h)).keeps hm₁
    | error f m₁ =>
      rw [Exec.after_of_error h] at hm₁
      rwa [Exec.after_bind_of_error h]
  fault {m f} hm hf := by
    obtain ⟨m', h⟩ := Exec.faultOf_eq_some.mp hf
    rcases Exec.bind_eq_error h with hxf | ⟨a, m₁, hxa, hka⟩
    · exact hx.fault hm (Exec.faultOf_of_error hxf)
    · have hm₁ := hx.keeps hm
      rw [Exec.after_of_ok hxa] at hm₁
      exact (hk a (hx.yields hm hxa)).fault hm₁ (Exec.faultOf_of_error hka)

/-- What is done with a result of which nothing is known. -/
theorem andThen {k : α → Evaluator → Exec β} {R : β → Prop} (hx : Upholds ev x Any)
    (hk : ∀ a, Upholds ev (k a) R) : Upholds ev (fun ev => x ev >>= fun a => k a ev) R :=
  hx.bind fun a _ => hk a

theorem ite {c : Prop} [Decidable c] {x y : Evaluator → Exec α} (hx : Upholds ev x P)
    (hy : Upholds ev y P) : Upholds ev (fun ev => if c then x ev else y ev) P := by
  split
  · exact hx
  · exact hy

theorem pure {a : α} (h : P a) : Upholds ev (fun _ => Pure.pure a) P where
  yields _ ha := by
    cases ha
    exact h
  keeps hm := hm
  fault _ hf := nomatch hf

/-- A value that is thrown is no defence. -/
theorem catchThrown {R : Except Thrown α → Prop} (hx : Upholds ev x P)
    (hok : ∀ a, P a → R (.ok a)) (herror : ∀ t, R (.error t)) :
    Upholds ev (fun ev => Exec.catchThrown (x ev)) R where
  yields hm h := by
    rcases Exec.catchThrown_eq_ok h with ⟨a, rfl, hxa⟩ | ⟨t, rfl, -⟩
    · exact hok a (hx.yields hm hxa)
    · exact herror t
  keeps {m} hm := by
    rw [Exec.after_catchThrown]
    exact hx.keeps hm
  fault hm hf := by
    obtain ⟨m', h⟩ := Exec.faultOf_eq_some.mp hf
    exact hx.fault hm (Exec.faultOf_of_error (Exec.catchThrown_eq_error h).1)

theorem orElseShow {scope : ScopeId} {line : Nat} {kind : StepKind} {description : String}
    (hx : Upholds ev x P) :
    Upholds ev (fun ev => Exec.orElseShow (x ev) (Exec.record scope line kind description))
      Any where
  yields _ _ := trivial
  keeps {m} hm := by
    have hxm := hx.keeps hm
    rcases Exec.after_orElseShow (x := x ev) (m := m) with h | h
    all_goals
      rw [h]
      exact hxm.of_heap rfl
  fault {m f} hm hf := by
    cases hxm : x ev m with
    | error g m₁ =>
      refine hx.fault hm ((Exec.faultOf_of_error hxm).trans ?_)
      exact (Exec.faultOf_of_error (Exec.orElseShow_of_error hxm)).symm.trans hf
    | ok a m₁ =>
      obtain ⟨m', h⟩ := Exec.faultOf_eq_some.mp hf
      rw [Exec.orElseShow_of_ok hxm] at h
      split at h <;> cases h

/-- A step in the trace asks for no defence. -/
theorem followedBy {scope : ScopeId} {line : Nat} {kind : StepKind} {description : String}
    (hx : Upholds ev x P) :
    Upholds ev (fun ev => Exec.followedBy (x ev) (Exec.record scope line kind description))
      Any where
  yields _ _ := trivial
  keeps {m} hm := by
    rw [Exec.after_followedBy]
    exact (hx.keeps hm).of_heap rfl
  fault {m f} hm hf := by
    cases hxm : x ev m with
    | error g m₁ =>
      refine hx.fault hm ((Exec.faultOf_of_error hxm).trans ?_)
      exact (Exec.faultOf_of_error (Exec.followedBy_of_error hxm)).symm.trans hf
    | ok a m₁ => cases (Exec.faultOf_congr (Exec.followedBy_of_ok hxm)).symm.trans hf

theorem record {scope : ScopeId} {line : Nat} {kind : StepKind} {description : String} :
    Upholds ev (fun _ => Exec.record scope line kind description) Any :=
  .of_heap (fun _ => rfl) (fun _ => rfl) fun _ => trivial

end Upholds

/-! ## Work on proper syntax -/

/-- Work on proper syntax. -/
def Work.IsProper {α : Type} : Work α → Prop
  | .expr _ e => Proper e.nodes
  | .statement _ _ s => Proper s.nodes
  | .bind _ p _ _ _ => Proper p.nodes
  | .whileLoop _ test body _ _ | .doLoop _ body test _ _ => Proper test.nodes ∧ Proper body.nodes
  | .forLoop _ loop => Proper (Syntax.optionExprNodes loop.test) ∧
    Proper (Syntax.optionExprNodes loop.update) ∧ Proper loop.body.nodes
  | .apply .. | .microtasks | .macrotasks => True

/-- An evaluator that upholds what is proper in all work on proper syntax. -/
def Evaluator.IsProper (ev : Evaluator) : Prop :=
  ∀ {α : Type} {w : Work α}, w.IsProper → Upholds ev (fun ev => ev.run w) Any

/-- Functions of the host need proper syntax for nothing but the functions that they call. -/
theorem upholds_composable (hev : ev.IsProper) : Composable .host (Upholds ev) where
  pure := .pure
  elementary h :=
    { yields := fun _ => h.yields_univ
      keeps := fun hm => (hm.effects (h.effects (within_univ _))).1
      fault := fun hm hf => (hm.effects (h.effects (within_univ _))).2 _ hf }
  bind := .bind
  weaken := .weaken
  allocate hc :=
    { yields := fun _ _ => trivial
      keeps := fun hm => hm.add (fun c h => absurd rfl (hc c h).ne_host) rfl
      fault := nofun }
  newScope := .of_heap (fun _ => rfl) (fun _ => rfl) fun _ => trivial
  copyScope := .of_heap (fun _ => rfl) (fun _ => rfl) fun _ => trivial
  eval {_ w} hw := by
    have hproper : w.IsProper := by
      cases w with
      | apply => trivial
      | expr | statement | bind | whileLoop | doLoop | forLoop => exact (hw.1.ne_host rfl).elim
      | microtasks | macrotasks => cases hw
    exact ⟨fun _ _ => w.yields_univ _, (hev hproper).keeps, (hev hproper).fault⟩
  catchThrown hx := hx.catchThrown (fun _ h => h) within_univ
  orElseShow hl := absurd rfl hl.ne_host

/-- The steps of a call need no defence. -/
theorem upholds_calls : CallParts (Upholds ev) where
  currentScope := .of_heap (fun _ => rfl) (fun _ => rfl) fun _ => trivial
  pushFrame := by
    refine ⟨fun _ _ => trivial, fun {m} hm => ?_, fun {m f} _ hf => ?_⟩
    all_goals rcases Nat.lt_or_ge m.frames.length m.limits.maxCallDepth with h | h
    · exact hm.of_heap (by rw [Exec.after_of_ok (Exec.pushFrame_of_lt h)])
    · exact hm.of_heap (by rw [Exec.after_of_error (Exec.pushFrame_of_le h)])
    · cases (Exec.faultOf_of_ok (Exec.pushFrame_of_lt h)).symm.trans hf
    · cases (Exec.faultOf_of_error (Exec.pushFrame_of_le h)).symm.trans hf
      rfl
  popFrame := .of_heap (fun _ => rfl) (fun _ => rfl) fun _ => trivial
  showCall := .followedBy
  showReturn := .record

namespace Upholds

variable (hev : ev.IsProper)

include hev

/-- **What is made of in the host upholds what is proper.** -/
theorem host {x : Evaluator → Exec α} {Q : World → α → Prop} (hx : Action .host Set.univ x Q) :
    Upholds ev x Any :=
  (hx.has ((upholds_composable hev).compositional upholds_calls) rfl).any

theorem plain {x : Exec α} {P : α → Prop} (hx : Plain .host Set.univ x P) :
    Upholds ev (fun _ => x) Any := host hev (.done hx)

end Upholds

end ScriptTrace
