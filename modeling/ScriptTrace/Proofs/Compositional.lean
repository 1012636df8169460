import ScriptTrace.Proofs.Composition.Statement
import ScriptTrace.Proofs.Routine

/-!
# Proofs/Compositional — what is true of all actions because of how they are made

A property of actions is compositional if it holds of all elementary actions and requests and is
handed on by every way to put actions together.  Such a property holds of every action
(`Action.has`), by one induction for all of them.

The world of all entities is enough here: what is known of results is a property of them alone.
-/

namespace ScriptTrace

/-- **A property that is handed on**: `T x P` says something of the action `x`, and that its results
have the property `P`. -/
structure Composable (l : Layer)
    (T : {α : Type} → (Evaluator → Exec α) → (α → Prop) → Prop) : Prop where
  pure : ∀ {α : Type} {a : α} {P : α → Prop}, P a → T (fun _ => Pure.pure a) P
  elementary : ∀ {α : Type} {x : Exec α} {P : α → Prop}, Elementary l Set.univ x P →
    T (fun _ => x) P
  bind : ∀ {α β : Type} {x : Evaluator → Exec α} {k : α → Evaluator → Exec β} {P : α → Prop}
    {R : β → Prop}, T x P → (∀ a, P a → T (k a) R) → T (fun ev => x ev >>= fun a => k a ev) R
  weaken : ∀ {α : Type} {x : Evaluator → Exec α} {P R : α → Prop}, T x P → (∀ a, P a → R a) →
    T x R
  allocate : ∀ {body : Body} {className : Option String},
    (∀ c, body = .closure c → l.Evaluates) → T (fun _ => Exec.allocate body className) Any
  newScope : ∀ {s : Scope}, T (fun _ => Exec.newScope s) Any
  copyScope : ∀ {scope : ScopeId}, T (fun _ => Exec.copyScope scope) Any
  eval : ∀ {α : Type} {w : Work α}, w.Fits l Set.univ → T (fun ev => ev.run w) (w.Yields Set.univ)
  catchThrown : ∀ {α : Type} {x : Evaluator → Exec α} {Q : World → α → Prop},
    T x (Q Set.univ) → T (fun ev => Exec.catchThrown (x ev)) (Caught Q Set.univ)
  orElseShow : ∀ {α : Type} {x : Evaluator → Exec α} {P : α → Prop} {scope : ScopeId} {line : Nat}
    {description : String}, l.Executes → T x P →
    T (fun ev => Exec.orElseShow (x ev) (Exec.record scope line .expression description)) Any

/-- **A compositional property**: one that calls hand on, too. -/
structure Compositional (l : Layer)
    (T : {α : Type} → (Evaluator → Exec α) → (α → Prop) → Prop) : Prop extends
    Composable l T where
  invoke : ∀ {id : ObjectId} {c : Closure} {this : Value} {args : List Value} {line : Nat},
    l.Binds → (∀ scope, T (fun ev => ev.bindArguments scope c.definition args) Any) →
    (l.Roams → ∀ scope, T (fun ev => ev.runBody scope c.definition.body) (Within Set.univ)) →
    T (fun ev => ev.invoke id c this args line) (Within Set.univ)

/-- **What only calls do**, for properties that need not tell the parts of a call apart. -/
structure CallParts (T : {α : Type} → (Evaluator → Exec α) → (α → Prop) → Prop) : Prop where
  currentScope : T (fun _ => Exec.currentScope) Any
  pushFrame : ∀ {name : String} {line : Nat}, T (fun _ => Exec.pushFrame name line) Any
  popFrame : T (fun _ => Exec.popFrame) Any
  showCall : ∀ {α : Type} {x : Evaluator → Exec α} {P : α → Prop} {scope : ScopeId} {line : Nat}
    {description : String}, T x P →
    T (fun ev => Exec.followedBy (x ev) (Exec.record scope line .functionCall description)) Any
  showReturn : ∀ {scope : ScopeId} {line : Nat} {description : String},
    T (fun _ => Exec.record scope line .functionReturn description) Any

section

variable {l : Layer} {T : {α : Type} → (Evaluator → Exec α) → (α → Prop) → Prop} {α : Type}

namespace Composable

variable {W : World}

/-- Work that asks for nothing needs nothing of the evaluator. -/
theorem plain (hT : Composable l T) {x : Exec α} {P : α → Prop} (h : Plain l Set.univ x P) :
    T (fun _ => x) P := by
  induction h with
  | pure ha => exact hT.pure ha
  | elementary h => exact hT.elementary h
  | bind _ _ ihx ihk => exact hT.bind ihx ihk
  | weaken _ h ih => exact hT.weaken ih h

/-- What the parts of a call have, the call has. -/
theorem routine (hT : Composable l T) (hcall : CallParts T) {x : Evaluator → Exec α}
    {Q : World → α → Prop}
    (h : Routine l (fun W _ x Q => W = Set.univ → T x (Q Set.univ)) W x Q)
    (hW : W = Set.univ) : T x (Q Set.univ) := by
  induction h with
  | part h => exact h hW
  | plain hx h =>
    subst hW
    exact hT.weaken (hT.plain hx) h
  | bind hx hk ihx ihk =>
    subst hW
    exact hT.bind (ihx rfl) fun a ha => ihk _ subset_rfl a ha rfl
  | newScope => exact hT.weaken hT.newScope fun _ _ => Set.mem_univ _
  | catchThrown hx ih => exact hT.catchThrown (ih hW)
  | currentScope => exact hT.weaken hcall.currentScope fun _ _ => sees_univ _
  | pushFrame => exact hcall.pushFrame
  | popFrame => exact hcall.popFrame
  | showCall hx h ih => exact hcall.showCall (ih hW)
  | showReturn => exact hcall.showReturn

/-- **What holds of all effects and of a call holds of all that is composed of them.** -/
theorem compositional [hl : l.Roams] (hT : Composable l T) (hcall : CallParts T) :
    Compositional l T where
  toComposable := hT
  invoke _ hbind hbody := by
    refine hT.routine hcall
      (.invoke (Set.mem_univ _) (within_univ _) (within_univ _) ?_ ?_) rfl
    · exact fun _ _ scope _ _ => hbind scope
    · exact fun _ _ scope _ _ => hbody hl scope

end Composable

/-- **Every action has a compositional property.** -/
theorem Action.has (hT : Compositional l T) {W : World} {x : Evaluator → Exec α}
    {Q : World → α → Prop} (h : Action l W x Q) (hW : W = Set.univ) : T x (Q Set.univ) := by
  induction h with
  | plain hx h =>
    subst hW
    exact hT.weaken (hT.plain hx) h
  | seq hx hk ih =>
    subst hW
    exact hT.bind (hT.plain hx) fun a ha => ih a ha rfl
  | bind hx hk ihx ihk =>
    subst hW
    exact hT.bind (ihx rfl) fun a ha => ihk _ subset_rfl a ha rfl
  | weaken hx h ih =>
    subst hW
    exact hT.weaken (ih rfl) fun a ha => h _ subset_rfl a ha
  | allocate _ _ hc =>
    exact hT.weaken (hT.allocate hc) fun _ _ => ⟨Set.mem_univ _, fun _ => Set.mem_univ _⟩
  | newScope => exact hT.weaken hT.newScope fun _ _ => Set.mem_univ _
  | copyScope => exact hT.weaken hT.copyScope fun _ _ => Set.mem_univ _
  | eval h =>
    subst hW
    exact hT.eval h
  | catchThrown hx ih => exact hT.catchThrown (ih hW)
  | orElseShow hx h hl ih => exact hT.orElseShow hl (ih hW)
  | invoke hid hc ht hbind hbody hl ihbind ihbody =>
    subst hW
    exact hT.invoke hl (fun scope => ihbind _ subset_rfl scope (Set.mem_univ _) rfl)
      fun hl scope => ihbody hl _ subset_rfl scope (Set.mem_univ _) rfl

end

end ScriptTrace
