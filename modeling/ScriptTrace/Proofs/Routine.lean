import ScriptTrace.Proofs.Composition.Member

/-!
# Proofs/Routine — how a call is put together

A call is more than its parts: it pushes a frame, shows itself behind the binding of its parameters
and pops the frame at its end.  `Routine.invoke` says so once, over any property `P` of the parts,
for all that is true of calls because it is true of what they are made of.
-/

namespace ScriptTrace

/-- **Compositions of parts with what only calls do.** -/
inductive Routine (l : Layer)
    (P : World → {α : Type} → (Evaluator → Exec α) → (World → α → Prop) → Prop) :
    World → {α : Type} → (Evaluator → Exec α) → (World → α → Prop) → Prop
  | part {W : World} {α : Type} {x : Evaluator → Exec α} {Q : World → α → Prop} (h : P W x Q) :
    Routine l P W x Q
  | plain {W : World} {α : Type} {x : Exec α} {R : α → Prop} {Q : World → α → Prop}
    (hx : Plain l W x R) (h : ∀ a, R a → Q W a) : Routine l P W (fun _ => x) Q
  | bind {W : World} {α β : Type} {x : Evaluator → Exec α} {k : α → Evaluator → Exec β}
    {Q : World → α → Prop} {R : World → β → Prop} (hx : Routine l P W x Q)
    (hk : ∀ W', W ⊆ W' → ∀ a, Q W' a → Routine l P W' (k a) R) :
    Routine l P W (fun ev => x ev >>= fun a => k a ev) R
  | newScope {W : World} {parent : ScopeId} {kind : ScopeKind} {receiver : Option Value}
    (h : Sees W parent) (hk : kind ≠ .global) (hr : Within W receiver) :
    Routine l P W (fun _ => Exec.newScope ⟨some parent, kind, [], receiver⟩) fun W' id =>
      .scope id ∈ W'
  | catchThrown {W : World} {α : Type} {x : Evaluator → Exec α} {Q : World → α → Prop}
    (hx : Routine l P W x Q) :
    Routine l P W (fun ev => Exec.catchThrown (x ev)) (Caught Q)
  | currentScope {W : World} : Routine l P W (fun _ => Exec.currentScope) Sees
  | pushFrame {W : World} {name : String} {line : Nat} :
    Routine l P W (fun _ => Exec.pushFrame name line) Free
  | popFrame {W : World} : Routine l P W (fun _ => Exec.popFrame) Free
  | showCall {W : World} {α : Type} {x : Evaluator → Exec α} {Q : World → α → Prop}
    {scope : ScopeId} {line : Nat} {description : String} (hx : Routine l P W x Q)
    (h : Sees W scope) :
    Routine l P W
      (fun ev => Exec.followedBy (x ev) (Exec.record scope line .functionCall description)) Free
  | showReturn {W : World} {scope : ScopeId} {line : Nat} {description : String}
    (h : Sees W scope) :
    Routine l P W (fun _ => Exec.record scope line .functionReturn description) Free

/-- Entering the scope of a call, once it is made. -/
theorem Plain.enterCall {l : Layer} [l.Roams] {W : World} {scope : ScopeId} {id : ObjectId}
    {c : Closure}
    (hs : Sees W scope) (hid : .object id ∈ W) :
    Plain l W (do
      Exec.enter scope
      if !c.definition.isArrow && !c.name.isEmpty &&
          ((← Exec.scopes).lookup? c.scope c.name).isNone then
        Exec.define scope c.name (.object id) .function
      return scope) (· = scope) := by
  refine .bind (.enter hs) fun _ _ => ?_
  refine .bind (.elementary .scopes) fun _ _ => .ite (fun _ => ?_) fun _ => .pure rfl
  exact .bind (.define hs (within_object.mpr hid)) fun _ _ => .pure rfl

namespace Routine

variable {l : Layer} {P : World → {α : Type} → (Evaluator → Exec α) → (World → α → Prop) → Prop}
  {W : World}

theorem resume {α : Type} {Q : World → α → Prop} {r : Except Thrown α} (hr : Caught Q W r) :
    Routine l P W (fun _ => Exec.resume r) Q := by
  cases r with
  | ok a => exact .plain (R := Q W) (.pure hr) fun _ => id
  | error t => exact .plain (.elementary (.throw hr)) nofun

/-- The scope of a call is new. -/
theorem callScope [l.Roams] {id : ObjectId} {c : Closure} {this : Value} (hid : .object id ∈ W)
    (hc : Within W c) (ht : Within W this) :
    Routine l P W (fun _ => Evaluator.callScope id c this) fun W' scope => .scope scope ∈ W' := by
  have hr : Within W (c.receiver? this) := by
    unfold Closure.receiver?
    split
    · exact within_none
    · split
      · exact within_globalThis
      · exact ht
  refine .bind (.newScope hc nofun hr) fun W₁ h₁ scope hs => ?_
  exact .plain (Plain.enterCall (sees_of_mem hs) (h₁ hid)) fun _ heq => heq ▸ hs

theorem leave [l.Roams] {caller : ScopeId} {line : Nat} {description : String} (h : Sees W caller) :
    Routine l P W (fun _ => Evaluator.leave caller line description) Free :=
  .bind .popFrame fun _ h₁ _ _ =>
    .bind (.plain (Q := Free) (.enter (h.mono h₁)) fun _ _ => trivial)
      fun _ h₂ _ _ => .showReturn (h.mono (h₁.trans h₂))

theorem runCall {scope : ScopeId} {c : Closure} {args : List Value} {shown : String} {line : Nat}
    (hs : Sees W scope) (hbind : P W (fun ev => ev.bindArguments scope c.definition args) Free)
    (hbody : ∀ W', W ⊆ W' → P W' (fun ev => ev.runBody scope c.definition.body) Within) :
    Routine l P W (fun ev => ev.runCall scope c args shown line) Within :=
  .bind (.showCall (.part hbind) hs) fun W' hW _ _ => .part (hbody W' hW)

/-- A call ends in the scope of its caller. -/
theorem endCall [l.Roams] {c : Closure} {caller : ScopeId} {line : Nat}
    {outcome : Except Thrown Value}
    (hcaller : Sees W caller) (ho : Caught Within W outcome) :
    Routine l P W (fun _ => Evaluator.endCall c caller line outcome) Within := by
  cases outcome with
  | ok v =>
    refine .bind (.plain (Q := Free) .inspect fun _ _ => trivial) fun W₁ h₁ _ _ => ?_
    refine .bind (leave (hcaller.mono h₁)) fun W₂ h₂ _ _ => resume ?_
    exact Within.mono ho (h₁.trans h₂)
  | error t =>
    exact .bind (leave hcaller) fun W₁ h₁ _ _ => resume (Within.mono ho h₁)

/-- What is done in a call once it is counted: the parameters are bound and the body runs. -/
theorem invoke_counted [l.Roams] {id : ObjectId} {c : Closure} {this : Value} (args : List Value)
    (line : Nat) (hid : .object id ∈ W) (hc : Within W c) (ht : Within W this)
    (hbind : ∀ W', W ⊆ W' → ∀ scope, .scope scope ∈ W' →
      P W' (fun ev => ev.bindArguments scope c.definition args) Free)
    (hbody : ∀ W', W ⊆ W' → ∀ scope, .scope scope ∈ W' →
      P W' (fun ev => ev.runBody scope c.definition.body) Within) :
    Counted (fun rest => ∀ W', W ⊆ W' → Routine l P W' rest Within)
      fun ev => ev.invoke id c this args line := by
  refine ⟨_, rfl, fun W₁ h₁ => ?_⟩
  refine .bind (.plain (Q := Free) (.elementary .heap) fun _ _ => trivial) fun W₂ h₂ h _ => ?_
  refine .bind .pushFrame fun W₃ h₃ _ _ => .bind .currentScope fun W₄ h₄ caller hcaller => ?_
  have hW₄ := h₁.trans (h₂.trans (h₃.trans h₄))
  refine .bind (callScope (hW₄ hid) (hc.mono hW₄) (ht.mono hW₄)) fun W₅ h₅ scope hs => ?_
  have hW₅ := hW₄.trans h₅
  refine .bind (.catchThrown (runCall (sees_of_mem hs) (hbind W₅ hW₅ scope hs) ?_)) ?_
  · exact fun W₆ h₆ => hbody W₆ (hW₅.trans h₆) scope (h₆ hs)
  · exact fun W₆ h₆ outcome ho => endCall (hcaller.mono (h₅.trans h₆)) ho

/-- **A call of a closure** is made of the binding of its parameters and of its body. -/
theorem invoke [l.Roams] {id : ObjectId} {c : Closure} {this : Value} {args : List Value}
    {line : Nat}
    (hid : .object id ∈ W) (hc : Within W c) (ht : Within W this)
    (hbind : ∀ W', W ⊆ W' → ∀ scope, .scope scope ∈ W' →
      P W' (fun ev => ev.bindArguments scope c.definition args) Free)
    (hbody : ∀ W', W ⊆ W' → ∀ scope, .scope scope ∈ W' →
      P W' (fun ev => ev.runBody scope c.definition.body) Within) :
    Routine l P W (fun ev => ev.invoke id c this args line) Within := by
  obtain ⟨rest, hrest, hcall⟩ := invoke_counted (l := l) args line hid hc ht hbind hbody
  rw [hrest]
  exact .bind (.plain (Q := Free) (.elementary .tick) fun _ _ => trivial) fun W₁ h₁ _ _ =>
    hcall W₁ h₁

end Routine

end ScriptTrace
