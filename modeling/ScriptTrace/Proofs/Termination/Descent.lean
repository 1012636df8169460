import ScriptTrace.Proofs.StepLimit
import ScriptTrace.Proofs.Termination.Unbounded

/-!
# Proofs/Termination/Descent — what is asked for next

What an action asks for begins behind a unit of work, or it is one of a few pieces of work
(`Descends`).  Statements, iterations, tasks and calls of closures are counted first, so all that
they ask for begins behind that (`Descends.of_counted`).  Expressions and patterns ask for their
parts, and for calls.  Functions of the host ask for calls and for nothing else.

So between two units of work the pieces of work get smaller (`Work.asks_descend`), but for one case:
a function of the host that calls a value, at which nothing is counted and nothing gets smaller.
-/

namespace ScriptTrace

open Syntax (Expr ExprNode Pattern PatternElement PropertyPattern Slot Element Property Key)

/-! ## Work is never taken back -/

theorem Effect.work_le {l : Layer} {W : World} {m m' : Machine} {f : Option Fault}
    (h : Effect l W m f m') : m.work ≤ m'.work := by
  cases h with
  | tick | overrun => exact Nat.le_succ _
  | _ => exact le_rfl

theorem Effects.work_le {l : Layer} {W : World} {m m' : Machine} {f : Option Fault}
    (h : Effects l W m f m') : m.work ≤ m'.work := by
  induction h with
  | one h => exact h.work_le
  | more h _ ih => exact h.work_le.trans ih

/-- Work is never taken back. -/
theorem climbing_stepwise (l : Layer) :
    (Invariant.ofMoves fun m _ m' => m.work ≤ m'.work).Stepwise l where
  toComposes := .of_effects (Invariant.safe_ofMoves _) (fun _ => le_rfl) le_trans id
    fun _ => Effect.work_le
  call _ h := by
    cases h
    all_goals exact le_rfl
  shown h _ _ := h

/-! ## What is asked for -/

/-- **An action that asks for `S` only**, or behind a unit of work. -/
structure Descends (S : {β : Type} → Work β → Prop) {α : Type} (x : Evaluator → Exec α)
    (P : α → Prop) : Prop where
  yields : ∀ {m m' : Machine} {a : α}, x .unbounded m = .ok a m' → P a
  climbs : ∀ m : Machine, m.work ≤ ((x .unbounded).after m).work
  asks : ∀ {β : Type} {w : Work β} {m m₁ : Machine}, Asks x .unbounded m w m₁ →
    m.work ≤ m₁.work ∧ (m₁.work = m.work → S w)

namespace Descends

variable {S : {β : Type} → Work β → Prop} {α β : Type} {x : Evaluator → Exec α} {P R : α → Prop}

theorem const {x : Exec α} (h : ∀ {m m' : Machine} {a : α}, x m = .ok a m' → P a)
    (hclimbs : ∀ m : Machine, m.work ≤ (x.after m).work) : Descends S (fun _ => x) P where
  yields := h
  climbs := hclimbs
  asks h := (not_asks_const h).elim

theorem weaken (hx : Descends S x P) (h : ∀ a, P a → R a) : Descends S x R where
  yields hxa := h _ (hx.yields hxa)
  climbs := hx.climbs
  asks := hx.asks

theorem any (hx : Descends S x P) : Descends S x Any := hx.weaken fun _ _ => trivial

/-- One action behind another asks for less work, or has counted some. -/
theorem bind {k : α → Evaluator → Exec β} {R : β → Prop} (hx : Descends S x P)
    (hk : ∀ a, P a → Descends S (k a) R) : Descends S (fun ev => x ev >>= fun a => k a ev) R where
  yields h := by
    obtain ⟨a, m₁, hxa, hka⟩ := Exec.bind_eq_ok h
    exact (hk a (hx.yields hxa)).yields hka
  climbs m := by
    have hfirst := hx.climbs m
    cases h : x .unbounded m with
    | ok a m₁ =>
      rw [Exec.after_of_ok h] at hfirst
      rw [Exec.after_bind_of_ok h]
      exact hfirst.trans ((hk a (hx.yields h)).climbs m₁)
    | error f m₁ =>
      rw [Exec.after_of_error h] at hfirst
      rwa [Exec.after_bind_of_error h]
  asks {_ _ m m₁} h := by
    rcases h.of_bind with h | ⟨a, m₂, hxa, h⟩
    · exact hx.asks h
    · have hfirst := hx.climbs m
      rw [Exec.after_of_ok hxa] at hfirst
      obtain ⟨hle, hS⟩ := (hk a (hx.yields hxa)).asks h
      exact ⟨hfirst.trans hle, fun heq => hS (by omega)⟩

/-- What is done behind an action. -/
theorem comp {F : Exec α → Exec β} {R : β → Prop}
    (hyields : ∀ m b m', F (x .unbounded) m = .ok b m' → R b)
    (hF : ∀ (x y : Exec α) (m : Machine), x m = y m → F x m = F y m)
    (hafter : ∀ (x : Exec α) (m : Machine), ((F x).after m).work = (x.after m).work)
    (hx : Descends S x P) : Descends S (fun ev => F (x ev)) R where
  yields := hyields _ _ _
  climbs m := (hx.climbs m).trans_eq (hafter _ m).symm
  asks {_ _ m _} h := hx.asks (h.of_comp fun x y => hF x y m)

/-- A thrown value that is caught asks for nothing more. -/
theorem catchThrown {Q : World → α → Prop} (hx : Descends S x (Q Set.univ)) :
    Descends S (fun ev => Exec.catchThrown (x ev)) (Caught Q Set.univ) := by
  refine hx.comp (fun m b m' h => ?_) (fun _ _ _ => Exec.catchThrown_congr)
    fun x m => congrArg Machine.work (Exec.after_catchThrown x m)
  rcases Exec.catchThrown_eq_ok h with ⟨a, rfl, hxa⟩ | ⟨t, rfl, -⟩
  · exact hx.yields hxa
  · exact within_univ t

theorem followedBy {scope : ScopeId} {line : Nat} {kind : StepKind} {description : String}
    (hx : Descends S x P) :
    Descends S (fun ev => Exec.followedBy (x ev) (Exec.record scope line kind description)) Any :=
  hx.comp (fun _ _ _ _ => trivial) (fun _ _ _ => Exec.followedBy_congr)
    fun _ _ => (congrArg Machine.work Exec.after_followedBy).trans rfl

theorem orElseShow {scope : ScopeId} {line : Nat} {kind : StepKind} {description : String}
    (hx : Descends S x P) :
    Descends S (fun ev => Exec.orElseShow (x ev) (Exec.record scope line kind description)) Any :=
  hx.comp (fun _ _ _ _ => trivial) (fun _ _ _ => Exec.orElseShow_congr) fun _ _ => by
    rcases Exec.after_orElseShow with h | h
    · rw [h]
    · rw [h]
      rfl

/-- What is asked for is less work itself. -/
theorem run {w : Work α} (hw : S w) : Descends S (fun ev => ev.run w) (w.Yields Set.univ) where
  yields _ := w.yields_univ _
  climbs :=
    (Evaluator.keeps_unbounded (climbing_stepwise .loop).lawful w.fits_univ).moves_of_univ
  asks h := by
    obtain ⟨hwv, rfl⟩ := h.of_run
    cases hwv
    exact ⟨le_rfl, fun _ => hw⟩

end Descends

section

variable {S : {β : Type} → Work β → Prop} {l : Layer} {α : Type}

/-- Whatever is composed of parts that descend, descends. -/
theorem descends_composable (hS : ∀ {β : Type} {w : Work β}, w.Fits l Set.univ → S w) :
    Composable l (Descends S) where
  pure ha := .const (fun h => by cases h; exact ha) fun _ => le_rfl
  elementary h := .const h.yields_univ fun _ => (h.effects (within_univ _)).work_le
  bind := .bind
  weaken := .weaken
  allocate _ := .const (fun _ => trivial) fun _ => le_rfl
  newScope := .const (fun _ => trivial) fun _ => le_rfl
  copyScope := .const (fun _ => trivial) fun _ => le_rfl
  eval h := .run (hS h)
  catchThrown := .catchThrown
  orElseShow _ := .orElseShow

/-- The steps of a call ask for nothing that counts no work. -/
theorem descends_calls : CallParts (Descends S) where
  currentScope := .const (fun _ => trivial) fun _ => le_rfl
  pushFrame := by
    refine .const (fun _ => trivial) fun m => ?_
    rcases Nat.lt_or_ge m.frames.length m.limits.maxCallDepth with h | h
    · rw [Exec.after_of_ok (Exec.pushFrame_of_lt h)]
    · rw [Exec.after_of_error (Exec.pushFrame_of_le h)]
  popFrame := .const (fun _ => trivial) fun _ => le_rfl
  showCall := .followedBy
  showReturn := .const (fun _ => trivial) fun _ => le_rfl

/-- **What an action is made of in a layer tells what it asks for.** -/
theorem Action.descends [l.Roams] (hS : ∀ {β : Type} {w : Work β}, w.Fits l Set.univ → S w)
    {x : Evaluator → Exec α} {Q : World → α → Prop} (hx : Action l Set.univ x Q) :
    Descends S x (Q Set.univ) :=
  hx.has ((descends_composable hS).compositional descends_calls) rfl

/-- Plain actions ask for nothing. -/
theorem Descends.plain {x : Exec α} {P : α → Prop} (hx : Plain l Set.univ x P) :
    Descends S (fun _ => x) P := by
  have hcomposable : Composable l (Descends fun _ => True) := descends_composable fun _ => trivial
  have hall := hcomposable.plain hx
  exact .const hall.yields hall.climbs

/-- **What is asked for behind a unit of work may be anything.** -/
theorem Descends.of_counted {x : Evaluator → Exec α} {P : α → Prop}
    (hx : Counted (fun rest => Descends (fun _ => True) rest P) x) : Descends S x P := by
  obtain ⟨rest, rfl, hrest⟩ := hx
  have hall : Descends (fun _ => True) (fun ev => Exec.tick >>= fun _ => rest ev) P :=
    .bind (.plain (l := .loop) (.elementary .tick)) fun _ _ => hrest
  refine ⟨hall.yields, hall.climbs, fun {_ _ m m₁} h => ?_⟩
  rcases h.of_bind (x := fun _ => Exec.tick) with h | ⟨a, m₂, htick, h⟩
  · exact (not_asks_const h).elim
  · have hle := (hrest.asks h).1
    have hcount : m₂.work = m.work + 1 := by
      rcases Nat.lt_or_ge m.work m.limits.maxSteps with hlt | hge
      · cases (Exec.tick_of_lt hlt).symm.trans htick
        rfl
      · cases (Exec.tick_of_le hge).symm.trans htick
    exact ⟨by omega, fun heq => absurd heq (by omega)⟩

end

/-- **Functions of the host ask for calls only.** -/
theorem Descends.host {S : {β : Type} → Work β → Prop} {α : Type} {x : Evaluator → Exec α}
    {Q : World → α → Prop} (hx : Action .host Set.univ x Q)
    (hS : ∀ (f this : Value) (args : List Value) (line : Nat), S (.apply f this args line)) :
    Descends S x Any := by
  refine (hx.descends fun {β w} hw => ?_).any
  cases w with
  | apply => exact hS ..
  | expr | statement | bind | whileLoop | doLoop | forLoop => exact (hw.1.ne_host rfl).elim
  | microtasks | macrotasks => cases hw

/-! ## Expressions ask for their parts -/

/-- How large the part of the program is that a piece of work evaluates; work that is counted first
and calls have no rank. -/
noncomputable def Work.rank {α : Type} : Work α → Nat
  | .expr _ e => sizeOf e
  | .bind _ p _ _ _ => sizeOf p
  | _ => 0

/-- **An action that asks for pieces of work up to a rank only**, or behind a unit of work. -/
abbrev Below (n : Nat) {α : Type} (x : Evaluator → Exec α) (P : α → Prop) : Prop :=
  Descends (fun w => w.rank ≤ n) x P

namespace Below

variable {n : Nat} {α β : Type} {scope : ScopeId} {line : Nat}

theorem host {x : Evaluator → Exec α} {Q : World → α → Prop} (hx : Action .host Set.univ x Q) :
    Below n x Any :=
  Descends.host hx fun _ _ _ _ => Nat.zero_le n

theorem plain {x : Exec α} {P : α → Prop} (hx : Plain .host Set.univ x P) :
    Below n (fun _ => x) Any := host (.done hx)

/-- What is done with a result of which nothing is known. -/
theorem andThen {x : Evaluator → Exec α} {k : α → Evaluator → Exec β} (hx : Below n x Any)
    (hk : ∀ a, Below n (k a) Any) : Below n (fun ev => x ev >>= fun a => k a ev) Any :=
  .bind hx fun a _ => hk a

theorem ite {c : Prop} [Decidable c] {x y : Evaluator → Exec α} (hx : Below n x Any)
    (hy : Below n y Any) : Below n (fun ev => if c then x ev else y ev) Any := by
  split
  · exact hx
  · exact hy

theorem pure {a : α} : Below n (fun _ => Pure.pure a) Any := plain (P := Any) (.pure trivial)

theorem defend {what : Misuse} : Below n (fun _ => (Exec.misuse what line : Exec α)) Any :=
  (Descends.plain (l := .value) .defend).any

/-! ### References and patterns -/

theorem expr {e : Expr} (h : sizeOf e ≤ n) : Below n (fun ev => ev.expr scope e) Any :=
  (Descends.run (w := .expr scope e) h).any

theorem bindTo {p : Pattern} {v : Value} {mode : BindMode} (h : sizeOf p ≤ n) :
    Below n (fun ev => ev.bind scope p v mode line) Any :=
  (Descends.run (w := .bind scope p v mode line) h).any

theorem makeClosure {f : Syntax.Function} {name : String} :
    Below n (fun _ => Exec.makeClosure scope f name) Any :=
  .const (fun _ => trivial) fun _ => le_rfl

theorem exprNamed {e : Expr} {name : String} (h : sizeOf e ≤ n) :
    Below n (fun ev => ev.exprNamed scope e name) Any := by
  unfold Evaluator.exprNamed
  split
  · exact makeClosure
  · exact expr h

theorem exprFor {target : Pattern} {e : Expr} (h : sizeOf e ≤ n) :
    Below n (fun ev => ev.exprFor scope target e) Any := by
  unfold Evaluator.exprFor
  split
  · exact exprNamed h
  · exact expr h

theorem key {k : Key} (h : sizeOf k ≤ n) : Below n (fun ev => ev.key scope k) Any := by
  cases k with
  | static name => exact pure
  | computed e =>
    rw [Key.computed.sizeOf_spec] at h
    exact andThen (expr (by omega)) fun _ => plain .text

theorem sizeOf_node (e : Expr) : sizeOf e.node < sizeOf e := by
  cases e
  rw [Expr.mk.sizeOf_spec, Syntax.Expr.node]
  omega

theorem sizeOf_pattern (p : Pattern) : 0 < sizeOf p := by
  cases p <;> simp only [Pattern.name.sizeOf_spec, Pattern.member.sizeOf_spec,
    Pattern.array.sizeOf_spec, Pattern.object.sizeOf_spec] <;> omega

/-- Object and key are smaller than the member. -/
theorem reference {target : Expr} (h : sizeOf target ≤ n) :
    Below n (fun ev => ev.reference scope target) Any := by
  have hnode := sizeOf_node target
  unfold Evaluator.reference
  split
  · exact pure
  · rename_i object k _ heq
    rw [heq, ExprNode.member.sizeOf_spec] at hnode
    refine andThen (expr (by omega)) fun _ => andThen (key (by omega)) fun _ => pure
  · exact defend

theorem patternReference {target : Pattern} (h : sizeOf target ≤ n) :
    Below n (fun ev => ev.patternReference scope target line) Any := by
  unfold Evaluator.patternReference
  split
  · exact pure
  · rw [Pattern.member.sizeOf_spec] at h
    exact reference (by omega)
  · exact defend

theorem readReference {r : Reference} :
    Below n (fun _ => Exec.readReference scope r line) Any := host (.readReference (within_univ _))

theorem writeReference {r : Reference} {v : Value} :
    Below n (fun _ => Exec.writeReference scope r v line) Any :=
  host (.writeReference (within_univ _) (within_univ _))

/-- Target and default value are smaller than the element. -/
theorem bindElement {element : PatternElement} {v : Value} {mode : BindMode}
    (h : sizeOf element ≤ n) :
    Below n (fun ev => ev.bindElement scope element v mode line) Any := by
  cases element with
  | mk target fallback =>
    rw [PatternElement.mk.sizeOf_spec] at h
    have hbind (v : Value) : Below n (fun ev => ev.bind scope target v mode line) Any :=
      bindTo (by omega)
    unfold Evaluator.bindElement
    split
    · rename_i e heq
      cases heq
      rw [Option.some.sizeOf_spec] at h
      exact andThen (exprFor (by omega)) hbind
    · exact andThen pure hbind

theorem bindSlots {items : Array Value} {mode : BindMode} {place : Nat} {slots : List Slot}
    (h : sizeOf slots ≤ n) :
    Below n (fun ev => ev.bindSlots scope items mode line place slots) Any := by
  induction slots generalizing place with
  | nil => exact pure
  | cons slot slots ih =>
    rw [List.cons.sizeOf_spec] at h
    cases slot with
    | hole => exact ih (by omega)
    | filled element =>
      rw [Slot.filled.sizeOf_spec] at h
      exact andThen (bindElement (by omega)) fun _ => ih (by omega)

theorem bindProperties {v : Value} {mode : BindMode} : ∀ {properties : List PropertyPattern},
    sizeOf properties ≤ n →
      Below n (fun ev => ev.bindProperties scope v mode line properties) Any
  | [], _ => pure
  | .mk k element :: properties, h => by
    rw [List.cons.sizeOf_spec, PropertyPattern.mk.sizeOf_spec] at h
    refine andThen (key (k := k) (by omega)) fun _ => ?_
    refine andThen (host (.getMember (within_univ _))) fun _ => ?_
    have helement : sizeOf element ≤ n := by omega
    refine andThen (bindElement helement) fun _ => ?_
    exact andThen (bindProperties (by omega)) fun _ => pure

/-- **Patterns ask for their parts.** -/
theorem bindPattern {p : Pattern} {v : Value} {mode : BindMode} (h : sizeOf p ≤ n + 1) :
    Below n (fun ev => ev.bindPattern scope p v mode line) Any := by
  cases p with
  | name x =>
    cases mode with
    | declare kind => exact plain (.define (sees_univ _) (within_univ _))
    | assign => exact plain (.assign (within_univ _))
  | member target =>
    rw [Pattern.member.sizeOf_spec] at h
    exact andThen (reference (by omega)) fun _ => writeReference
  | array slots rest =>
    rw [Pattern.array.sizeOf_spec] at h
    refine andThen (plain .iterate) fun items => andThen (bindSlots (by omega)) fun _ => ?_
    cases rest with
    | none => exact pure
    | some rest =>
      rw [Option.some.sizeOf_spec] at h
      exact andThen (host (.makeArray (within_univ _))) fun _ => bindTo (by omega)
  | object properties rest =>
    rw [Pattern.object.sizeOf_spec] at h
    refine ite (andThen (plain .inspect) fun _ => plain (.misuse rfl)) ?_
    refine andThen (bindProperties (by omega)) fun used => ?_
    cases rest with
    | none => exact pure
    | some rest =>
      rw [Option.some.sizeOf_spec] at h
      refine andThen (plain (.elementary .heap)) fun _ => ?_
      exact andThen (host (.makePlain (within_univ _))) fun _ => bindTo (by omega)

theorem elements : ∀ {es : List Element} {done : Array Value}, sizeOf es ≤ n →
    Below n (fun ev => ev.elements scope es done) Any
  | [], _, _ => pure
  | .single e :: _, _, h => by
    rw [List.cons.sizeOf_spec, Element.single.sizeOf_spec] at h
    exact andThen (expr (by omega)) fun _ => elements (by omega)
  | .spread e :: _, _, h => by
    rw [List.cons.sizeOf_spec, Element.spread.sizeOf_spec] at h
    refine andThen (expr (by omega)) fun _ => andThen (plain .iterate) fun _ => ?_
    exact andThen (plain .checkArrayLength) fun _ => elements (by omega)

/-! ### Calls -/

/-- **A call of a closure is counted** before anything is asked for. -/
theorem invoke {S : {β : Type} → Work β → Prop} {id : ObjectId} {c : Closure} {this : Value}
    {args : List Value} :
    Descends S (fun ev => ev.invoke id c this args line) (Within Set.univ) := by
  have hall {α : Type} {x : Evaluator → Exec α} {Q : World → α → Prop}
      (hx : Action .loop Set.univ x Q) : Descends (fun _ => True) x (Q Set.univ) :=
    hx.descends fun _ => trivial
  obtain ⟨rest, hrest, hcall⟩ := Routine.invoke_counted (l := .loop)
    (P := fun W _ x Q => W = Set.univ → Descends (fun _ => True) x (Q Set.univ))
    args line (Set.mem_univ (Entity.object id)) (within_univ c) (within_univ this)
    (fun _ _ _ _ _ => hall (.bindArguments (sees_univ _) (within_univ _)))
    (fun _ _ _ _ _ => hall (.runBody (sees_univ _)))
  have hcomposable : Composable .loop (Descends fun _ => True) :=
    descends_composable fun _ => trivial
  exact .of_counted ⟨rest, hrest, hcomposable.routine descends_calls (hcall _ subset_rfl) rfl⟩

/-- Receiver and key are smaller than the call. -/
theorem callTarget? {callee : Expr} (h : sizeOf callee ≤ n) :
    Below n (fun ev => ev.callTarget? scope callee) Any := by
  have hnode := sizeOf_node callee
  unfold Evaluator.callTarget?
  split
  · rename_i object k _ heq
    rw [heq, ExprNode.member.sizeOf_spec] at hnode
    refine andThen (expr (by omega)) fun _ => ite pure (andThen (key (by omega)) fun _ => ?_)
    refine andThen (plain (.elementary .heap)) fun _ => ite pure ?_
    exact andThen (host (.getMember (within_univ _))) fun _ => pure
  · exact andThen (expr h) fun _ => pure

/-- Callee and arguments are smaller than the call. -/
theorem evalCall {callee : Expr} {args : List Element} {isOptional : Bool}
    (hc : sizeOf callee ≤ n) (ha : sizeOf args ≤ n) :
    Below n (fun ev => ev.evalCall scope callee args isOptional line) Any := by
  refine andThen (callTarget? hc) fun target => ?_
  split
  · exact pure
  · exact andThen (elements ha) fun _ => host (.callMethod (within_univ _) (within_univ _))
  · refine ite pure (andThen (elements ha) fun _ => andThen (plain .isCallable) fun _ => ?_)
    refine ite (plain (.misuse rfl)) (host (.apply (within_univ _) (within_univ _) (within_univ _)))

theorem instantiate {id : ObjectId} {c : Closure} {args : List Value} :
    Below n (fun ev => ev.instantiate id c args line) Any :=
  andThen (host (.allocate (within_univ _) rfl nofun)) fun _ => andThen invoke.any fun _ =>
    andThen (plain (.elementary .heap)) fun _ => pure

theorem evalNew {callee : Expr} {args : List Element} (hc : sizeOf callee ≤ n)
    (ha : sizeOf args ≤ n) : Below n (fun ev => ev.evalNew scope callee args line) Any := by
  refine andThen (expr hc) fun constructor => andThen (elements ha) fun _ => ?_
  split
  · exact host (.construct (within_univ _))
  · refine andThen (plain .body?) fun _ => ?_
    split
    · exact ite (plain (.misuse rfl)) instantiate
    · exact plain (.misuse rfl)
  · exact plain (.misuse rfl)

/-! ### Expressions -/

theorem templateText : ∀ {es : List Expr} {out : String} {pieces : List String}, sizeOf es ≤ n →
    Below n (fun ev => ev.templateText scope line out es pieces) Any
  | [], _, _, _ => pure
  | _ :: _, _, _, h => by
    rw [List.cons.sizeOf_spec] at h
    refine andThen (expr (by omega)) fun _ => andThen (plain .text) fun _ => ?_
    exact andThen (plain .checkStringLength) fun _ => templateText (by omega)

theorem properties : ∀ {ps : List Property} {done : Props}, sizeOf ps ≤ n →
    Below n (fun ev => ev.properties scope ps done) Any
  | [], _, _ => pure
  | .keyed _ _ :: _, _, h => by
    rw [List.cons.sizeOf_spec, Property.keyed.sizeOf_spec] at h
    refine andThen (key (by omega)) fun _ => andThen (exprNamed (by omega)) fun _ => ?_
    exact properties (by omega)
  | .spread _ :: _, _, h => by
    rw [List.cons.sizeOf_spec, Property.spread.sizeOf_spec] at h
    refine andThen (expr (by omega)) fun _ => andThen (plain (.elementary .heap)) fun _ => ?_
    exact properties (by omega)

theorem sequence : ∀ {es : List Expr} {last : Value}, sizeOf es ≤ n →
    Below n (fun ev => ev.sequence scope last es) Any
  | [], _, _ => pure
  | _ :: _, _, h => by
    rw [List.cons.sizeOf_spec] at h
    exact andThen (expr (by omega)) fun _ => sequence (by omega)

theorem evalOperand {op : Syntax.UnaryOperator} {operand : Expr} (h : sizeOf operand ≤ n)
    (hop : op ≠ .delete) :
    Below n (fun ev => ev.expr scope operand >>= fun v => Exec.unary op v line) Any :=
  andThen (expr h) fun _ => plain (Action.unary hop)

theorem evalUnary {op : Syntax.UnaryOperator} {operand : Expr} (h : sizeOf operand ≤ n) :
    Below n (fun ev => ev.evalUnary scope op operand line) Any := by
  cases op
  case delete =>
    unfold Evaluator.evalUnary
    dsimp only
    split
    · exact pure
    · exact andThen (andThen (expr h) fun _ => pure) fun _ => pure
    · refine andThen (reference h) fun r => ?_
      split
      · exact andThen (plain (.deleteMember (within_univ _))) fun _ => pure
      · exact pure
  case typeof =>
    unfold Evaluator.evalUnary
    dsimp only
    split
    · exact andThen (plain .valueOf?) fun _ => andThen pure fun _ => ite (evalOperand h nofun) pure
    · exact andThen pure fun _ => ite (evalOperand h nofun) pure
  case not | negate | plus | bitNot | void => exact evalOperand h nofun

theorem evalUpdate {op : Syntax.UpdateOperator} {before : Bool} {target : Expr}
    (h : sizeOf target ≤ n) :
    Below n (fun ev => ev.evalUpdate scope op before target line) Any := by
  refine andThen (reference h) fun _ => andThen readReference fun _ => ?_
  exact andThen (plain .number) fun _ => andThen writeReference fun _ => pure

/-- Target and value are smaller than the assignment. -/
theorem evalAssign {op : Syntax.AssignOperator} {target : Pattern} {value : Expr}
    (ht : sizeOf target ≤ n) (hv : sizeOf value ≤ n) :
    Below n (fun ev => ev.evalAssign scope op target value line) Any := by
  cases op with
  | plain => exact andThen (exprFor hv) fun _ => andThen (bindTo ht) fun _ => pure
  | compound op =>
    refine andThen (patternReference ht) fun _ => andThen readReference fun _ => ?_
    refine andThen (expr hv) fun _ => andThen (plain .binary) fun _ => ?_
    exact andThen writeReference fun _ => pure
  | logical op =>
    refine andThen (patternReference ht) fun _ => andThen readReference fun _ => ite pure ?_
    exact andThen (expr hv) fun _ => andThen writeReference fun _ => pure

/-- **Expressions ask for their parts**, and for calls. -/
theorem evalExpr {e : Expr} (h : sizeOf e ≤ n + 1) :
    Below n (fun ev => ev.evalExpr scope e) Any := by
  have hnode := sizeOf_node e
  unfold Evaluator.evalExpr
  dsimp only
  generalize e.node = node at hnode ⊢
  cases node with
  | number | string | bool | null => exact pure
  | template pieces values =>
    rw [ExprNode.template.sizeOf_spec] at hnode
    exact andThen (templateText (by omega)) fun _ => pure
  | name x => exact plain .valueOf
  | this => exact andThen (plain (.elementary .scopes)) fun _ => pure
  | array es =>
    rw [ExprNode.array.sizeOf_spec] at hnode
    exact andThen (elements (by omega)) fun _ => host (.makeArray (within_univ _))
  | object ps =>
    rw [ExprNode.object.sizeOf_spec] at hnode
    exact andThen (properties (by omega)) fun _ => host (.makePlain (within_univ _))
  | function f => exact makeClosure
  | unary op operand =>
    rw [ExprNode.unary.sizeOf_spec] at hnode
    exact evalUnary (by omega)
  | update op before target =>
    rw [ExprNode.update.sizeOf_spec] at hnode
    exact evalUpdate (by omega)
  | binary op left right =>
    rw [ExprNode.binary.sizeOf_spec] at hnode
    exact andThen (expr (by omega)) fun _ => andThen (expr (by omega)) fun _ => plain .binary
  | logical op left right =>
    rw [ExprNode.logical.sizeOf_spec] at hnode
    exact andThen (expr (by omega)) fun _ => ite pure (expr (by omega))
  | assign op target value =>
    rw [ExprNode.assign.sizeOf_spec] at hnode
    exact evalAssign (by omega) (by omega)
  | conditional test yes no =>
    rw [ExprNode.conditional.sizeOf_spec] at hnode
    exact andThen (expr (by omega)) fun _ => ite (expr (by omega)) (expr (by omega))
  | call callee args isOptional =>
    rw [ExprNode.call.sizeOf_spec] at hnode
    exact evalCall (by omega) (by omega)
  | new callee args =>
    rw [ExprNode.new.sizeOf_spec] at hnode
    exact evalNew (by omega) (by omega)
  | member object k isOptional =>
    rw [ExprNode.member.sizeOf_spec] at hnode
    refine andThen (expr (by omega)) fun _ => ite pure (andThen (key (by omega)) fun _ => ?_)
    exact host (.getMember (within_univ _))
  | sequence items =>
    rw [ExprNode.sequence.sizeOf_spec] at hnode
    exact sequence (by omega)

end Below

/-! ## One step -/

/-- A call of a value. -/
def Work.IsCall {α : Type} : Work α → Prop
  | .apply .. => True
  | _ => False

/-- **A call of a function of the host**: of anything but a function of the program. -/
def Work.IsHostCall {α : Type} : Work α → Machine → Prop
  | .apply f _ _ _, m =>
    ∀ (id : ObjectId) (c : Closure), f = .object id → m.heap.body? id ≠ some (.closure c)
  | _, _ => False

namespace Descends

variable {S : {β : Type} → Work β → Prop} {α : Type}

/-- What is counted first asks for nothing before. -/
theorem of_action {x : Evaluator → Exec α} {Q : World → α → Prop}
    (hx : Counted (fun rest => Action .loop Set.univ rest Q) x) : Descends S x Any := by
  obtain ⟨rest, hrest, haction⟩ := hx
  exact (of_counted ⟨rest, hrest, haction.descends fun _ => trivial⟩).any

theorem execMicrotasks : Descends S (fun ev => ev.execMicrotasks) Any := by
  refine .bind (.plain (l := .loop) (.elementary (.nextMicrotask? rfl))) fun task _ => ?_
  cases task with
  | none => exact .plain (l := .loop) (.pure trivial)
  | some task => exact of_action (Action.microtask (within_univ _))

theorem execMacrotasks : Descends S (fun ev => ev.execMacrotasks) Any := by
  refine .bind (.plain Action.refillCallbacks) fun _ _ => ?_
  refine .bind (.plain (l := .loop) (.elementary (.nextCallback? rfl))) fun task _ => ?_
  cases task with
  | none => exact .plain (l := .loop) (.pure trivial)
  | some task => exact of_action (Action.macrotask (within_univ _))

/-- A call of a value asks for calls only. -/
theorem applyValue {f this : Value} {args : List Value} {line : Nat} :
    Descends (fun w => w.IsCall) (fun ev => ev.applyValue f this args line) Any := by
  have hcall : ∀ (f this : Value) (args : List Value) (line : Nat),
      (Work.apply f this args line).IsCall := fun _ _ _ _ => trivial
  have hplain {x : Exec Value} {P : Value → Prop} (hx : Plain .loop Set.univ x P) :
      Descends (fun w => w.IsCall) (fun _ => x) Any := (Descends.plain hx).any
  cases f
  case function f => exact .host (.callHost (within_univ _)) hcall
  case host h => exact .host (.callConstructor (within_univ _)) hcall
  case object id =>
    refine .bind (.plain (l := .loop) .body?) fun b _ => ?_
    split
    · exact Below.invoke.any
    · exact .host (.apply (within_univ _) (within_univ _) (within_univ _)) hcall
    · exact .host (.callMethod (within_univ _) (within_univ _)) hcall
    · exact hplain (.callResolver ⟨Set.mem_univ _, Set.mem_univ _⟩ (within_univ _))
    · exact hplain (.bind .inspect fun _ _ => .misuse rfl)
  case undefined | null | bool | number | string | globalThis =>
    exact hplain (.bind .inspect fun _ _ => .misuse rfl)

end Descends

/-- A closure that is applied is invoked. -/
theorem Evaluator.applyValue_closure (ev : Evaluator) {id : ObjectId} {c : Closure} {this : Value}
    {args : List Value} {line : Nat} {m : Machine} (h : m.heap.body? id = some (.closure c)) :
    ev.applyValue (.object id) this args line m = ev.invoke id c this args line m := by
  have hbody : Exec.body? id m = .ok (some (.closure c)) m := by
    rw [← h]
    rfl
  exact Exec.bind_of_ok hbody

/-- **Between two units of work what is asked for gets smaller**, unless a function of the host
calls a value. -/
theorem Work.asks_descend {α β : Type} {w : Work α} {v : Work β} {m m₁ : Machine}
    (h : Asks (fun ev => ev.step w) .unbounded m v m₁) : m.work ≤ m₁.work ∧
      (m₁.work = m.work → v.rank < w.rank ∨ w.IsHostCall m ∧ v.IsCall) := by
  have hlate {x : Evaluator → Exec α} (hx : Descends (fun _ => False) x Any)
      (h : Asks x .unbounded m v m₁) : m.work ≤ m₁.work ∧
        (m₁.work = m.work → v.rank < w.rank ∨ w.IsHostCall m ∧ v.IsCall) :=
    (hx.asks h).imp_right fun hno heq => (hno heq).elim
  have hbelow {n : Nat} {x : Evaluator → Exec α} (hx : Below n x Any) (hn : n < w.rank)
      (h : Asks x .unbounded m v m₁) : m.work ≤ m₁.work ∧
        (m₁.work = m.work → v.rank < w.rank ∨ w.IsHostCall m ∧ v.IsCall) :=
    (hx.asks h).imp_right fun hrank heq => .inl ((hrank heq).trans_lt hn)
  cases w with
  | expr scope e =>
    have hpos : 0 < sizeOf e := Nat.zero_lt_of_lt (Below.sizeOf_node e)
    exact hbelow (Below.evalExpr (Nat.sub_one_add_one hpos.ne').ge) (Nat.sub_one_lt hpos.ne') h
  | bind scope p v mode line =>
    have hpos := Below.sizeOf_pattern p
    exact hbelow (Below.bindPattern (Nat.sub_one_add_one hpos.ne').ge) (Nat.sub_one_lt hpos.ne') h
  | statement scope label s => exact hlate (.of_action (Action.execStatement (sees_univ _))) h
  | apply f this args line =>
    obtain ⟨hle, hcall⟩ := Descends.applyValue.asks h
    refine ⟨hle, fun heq => .inr ⟨fun id c hf hc => ?_, hcall heq⟩⟩
    subst hf
    have hinvoke : Asks (fun ev => ev.invoke id c this args line) .unbounded m v m₁ :=
      h.congr fun ev => ev.applyValue_closure hc
    exact ((Below.invoke (S := fun _ => False)).asks hinvoke).2 heq
  | whileLoop scope test body label line =>
    exact hlate (.of_action (Action.execWhile (sees_univ _))) h
  | doLoop scope body test label line =>
    exact hlate (.of_action (Action.execDoWhile (sees_univ _))) h
  | forLoop scope loop => exact hlate (.of_action (Action.execCounting (Set.mem_univ _))) h
  | microtasks => exact hlate .execMicrotasks h
  | macrotasks => exact hlate .execMacrotasks h

end ScriptTrace
