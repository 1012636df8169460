import ScriptTrace.Proofs.Settlement
import ScriptTrace.Proofs.World

/-!
# Proofs/Action — how evaluation is put together

Every evaluation function is a composition of a few elementary actions, of calls and of requests to
the evaluator.  `Elementary` lists the elementary actions, `Plain` the compositions of them that
make nothing new, and `Action` all compositions.  Each judgment says which entities an action may
name and what its results name; closures and defensive faults come from where expressions are
evaluated only.

What is true of every composition is proved by induction on these judgments, once for all functions
of the evaluator; that each function *is* such a composition is proved once for all such properties,
in `Proofs/Composition`.
-/

namespace ScriptTrace

/-- Where an action may run. -/
inductive Layer where
  /-- Inside a function of the host, which binds no names but global ones. -/
  | library
  /-- Where names may be bound, but no expression is evaluated. -/
  | host
  /-- Inside an expression, but not inside the functions that it calls. -/
  | operand
  /-- Inside an expression. -/
  | value
  /-- Inside a program. -/
  | script
  /-- In the event loop around it. -/
  | loop

/-- Layers in which names are bound in all scopes. -/
class Layer.Binds (l : Layer) : Prop where
  ne_library : l ≠ .library

/-- Layers in which expressions are evaluated: functions of the host know none. -/
class Layer.Evaluates (l : Layer) : Prop extends l.Binds where
  ne_host : l ≠ .host

/-- Layers that go from one scope to another: operands stay in the scope that they are evaluated
in. -/
class Layer.Roams (l : Layer) : Prop extends l.Binds where
  ne_operand : l ≠ .operand

/-- Layers in which statements are executed. -/
class Layer.Executes (l : Layer) : Prop extends l.Evaluates, l.Roams where
  ne_value : l ≠ .value

instance : Layer.host.Roams := { ne_library := nofun, ne_operand := nofun }

instance : Layer.operand.Evaluates := { ne_library := nofun, ne_host := nofun }

instance : Layer.value.Evaluates := { ne_library := nofun, ne_host := nofun }

instance : Layer.value.Roams := { ne_library := nofun, ne_operand := nofun }

instance : Layer.script.Executes :=
  { ne_library := nofun, ne_host := nofun, ne_operand := nofun, ne_value := nofun }

instance : Layer.loop.Executes :=
  { ne_library := nofun, ne_host := nofun, ne_operand := nofun, ne_value := nofun }

/-- Steps that show no call, no printing and no work of the event loop. -/
def StepKind.isFree : StepKind → Bool
  | .functionCall | .functionReturn | .console | .macrotask | .eventLoop | .error | .warning =>
    false
  | _ => true

/-- Free steps that tell nothing of microtasks. -/
def StepKind.isOrdinary (kind : StepKind) : Bool := kind.isFree && kind ≠ .microtask

/-- Steps that show what a statement does, at most one for every unit of work. -/
def StepKind.isDeed : StepKind → Bool
  | .loop | .condition | .assignment | .expression | .return | .break | .continue | .throw => true
  | _ => false

/-- Ordinary steps that operations show beside the statements that they are part of. -/
def StepKind.isAside (kind : StepKind) : Bool := kind.isOrdinary && !kind.isDeed

theorem StepKind.isFree_of_isOrdinary {kind : StepKind} (h : kind.isOrdinary = true) :
    kind.isFree = true := (Bool.and_eq_true_iff.mp h).1

theorem StepKind.isOrdinary_of_isAside {kind : StepKind} (h : kind.isAside = true) :
    kind.isOrdinary = true := (Bool.and_eq_true_iff.mp h).1

/-- Changes of the record of a promise. -/
def Change.isRecord : Change → Bool
  | .record _ => true
  | _ => false

/-- Bodies that a new object may have: a new promise is pending and nothing waits for it. -/
def Body.isFresh : Body → Bool
  | .promise r => r.state.isPending && r.reactions.isEmpty
  | _ => true

/-- Faults that come from a single operation. -/
def Fault.isLocal : Fault → Bool
  | .unknownName .. | .misuse .. | .exhausted => true
  | _ => false

/-- Misuses that no program has the shape for: the evaluator asks nevertheless. -/
def Misuse.isDefensive : Misuse → Bool
  | .assignmentTarget _ | .compoundTarget | .unaryOperator => true
  | _ => false

/-- Whether a fault reports a state that no program can reach. -/
def Fault.isDefensive : Fault → Bool
  | .misuse what _ => what.isDefensive
  | _ => false

theorem Fault.isThrown_of_isLocal {f : Fault} (h : f.isLocal = true) : f.isThrown = false := by
  cases f <;> first | rfl | cases h

/-- **Whether a heap allows a change**: the contents of what is frozen stay. -/
def Heap.Allows (h : Heap) (id : ObjectId) : Change → Prop
  | .items _ | .props _ => ∀ o, h.get? id = some o → o.frozen = false
  | .record _ | .freeze => True

/-- What is known of a result of which nothing need be known. -/
abbrev Any {α : Type} (_ : α) : Prop := True

/-- What need not be known in any world. -/
abbrev Free {α : Type} (_ : World) (_ : α) : Prop := True

/-- **What is written to an object from a heap**: one change that the heap allows, or none, behind
what is read to find it. -/
inductive Writing (W : World) (h : Heap) : Exec Unit → Prop
  | skip : Writing W h (pure ())
  | change {id : ObjectId} {c : Change} (hid : .object id ∈ W) (hc : Within W c)
    (hr : c.isRecord = false) (ha : h.Allows id c) : Writing W h (Exec.change id c)
  | misuse {what : Misuse} {line : Nat} (hd : what.isDefensive = false) :
    Writing W h (Exec.misuse what line)
  | raise {c : ErrorClass} {message : String} {line : Nat} :
    Writing W h (Exec.raise c message line)
  | withHeap {k : Heap → Exec Unit} (hk : Writing W h (k h)) : Writing W h (Exec.heap >>= k)
  | withCeiling {k : Nat → Exec Unit} (hk : ∀ n, Writing W h (k n)) :
    Writing W h (Exec.ceiling >>= k)

/-- **The elementary actions** with what is known of their results.  What happens to a promise at
once, that it is settled or that a reaction is registered, is one of them. -/
inductive Elementary (l : Layer) (W : World) : {α : Type} → Exec α → (α → Prop) → Prop
  | heap : Elementary l W Exec.heap (Within W)
  | scopes : Elementary l W Exec.scopes fun s => Within W s ∧ ∀ id < s.size, Sees W id
  | ceiling : Elementary l W Exec.ceiling Any
  | tick : Elementary l W Exec.tick Any
  | enter {scope : ScopeId} (h : Sees W scope) (hr : l.Roams) :
    Elementary l W (Exec.enter scope) Any
  | write {x : Exec Unit} (h : ∀ heap, Within W heap → Writing W heap x) : Elementary l W x Any
  | addReaction {id : ObjectId} {r : Reaction} (h : .object id ∈ W) (hr : Within W r) :
    Elementary l W (Exec.addReaction id r) Any
  | settle {id : ObjectId} {outcome : PromiseState} {line : Nat} (h : .object id ∈ W)
    (ho : Within W outcome) (hp : outcome.isPending = false) :
    Elementary l W (Exec.settleFlat id outcome line) Any
  | putIn {scope : ScopeId} {name : String} {b : Binding} (h : Sees W scope) (hb : Within W b)
    (hl : scope ≠ Scopes.globalId → l.Binds) : Elementary l W (Exec.putIn scope name b) Any
  | record {scope : ScopeId} {line : Nat} {kind : StepKind} {description : String}
    (h : Sees W scope) (hk : kind.isOrdinary = true) (hl : kind.isDeed = true → l.Executes)
    (hr : l.Roams) :
    Elementary l W (Exec.record scope line kind description) Any
  | recordHere {line : Nat} {kind : StepKind} {description : String}
    (hk : kind.isAside = true) : Elementary l W (Exec.recordHere line kind description) Any
  | print {method : ConsoleMethod} {args : List Value} {line : Nat} :
    Elementary l W (Exec.print method args line) (Within W)
  | addTimer {label : String} {delay : Float} {callback : Value} {args : List Value} {line : Nat}
    (hc : Within W callback) (ha : Within W args) :
    Elementary l W (Exec.addTimer label delay callback args line) Any
  | addMicrotask {label : String} {line : Nat} {f : Value} {args : List Value}
    (hf : Within W f) (ha : Within W args) :
    Elementary l W (Exec.addMicrotask ⟨label, line, .callback f args⟩) Any
  | showQueued {line : Nat} {name : String} :
    Elementary l W
      (Exec.recordHere line .microtask
        ("queueMicrotask(" ++ name ++ ")" ++ " added to the microtask queue")) Any
  | random : Elementary l W Exec.random Any
  | throw {α : Type} {t : Thrown} (h : Within W t) :
    Elementary l W (throw t.fault : Exec α) fun _ => False
  | raise {α : Type} {c : ErrorClass} {message : String} {line : Nat} :
    Elementary l W (Exec.raise c message line : Exec α) fun _ => False
  | fail {α : Type} {f : Fault} (h : f.isLocal = true) (hf : f ≠ .exhausted)
    (hd : f.isDefensive = true → l.Evaluates) :
    Elementary l W (throw f : Exec α) fun _ => False
  | flattened {items : Array Value} {depth : Float} (h : Within W items) :
    Elementary l W (Exec.flattened items depth) (Within W)
  | enterPhase {phase : Phase} {description : String} (h : l = .loop) :
    Elementary l W (Exec.enterPhase phase description) Any
  | showMicrotask {line : Nat} {label : String} (h : l = .loop) :
    Elementary l W (Exec.recordHere line .microtask ("Run microtask " ++ label)) Any
  | showMacrotask {line : Nat} {description : String} (h : l = .loop) :
    Elementary l W (Exec.recordHere line .macrotask description) Any
  | nextMicrotask? (h : l = .loop) : Elementary l W Exec.nextMicrotask? (Within W)
  | hasMicrotask (h : l = .loop) : Elementary l W Exec.hasMicrotask Any
  | nextCallback? (h : l = .loop) : Elementary l W Exec.nextCallback? (Within W)
  | awaitsTimers (h : l = .loop) : Elementary l W Exec.awaitsTimers Any
  | moveTimers (h : l = .loop) : Elementary l W Exec.moveTimers Any

/-- **Compositions of elementary actions.**  They make no object and no scope, unless they throw. -/
inductive Plain (l : Layer) (W : World) : {α : Type} → Exec α → (α → Prop) → Prop
  | pure {α : Type} {P : α → Prop} {a : α} (h : P a) : Plain l W (pure a) P
  | elementary {α : Type} {x : Exec α} {P : α → Prop} (h : Elementary l W x P) : Plain l W x P
  | bind {α β : Type} {x : Exec α} {k : α → Exec β} {P : α → Prop} {R : β → Prop}
    (hx : Plain l W x P) (hk : ∀ a, P a → Plain l W (k a) R) : Plain l W (x >>= k) R
  | weaken {α : Type} {x : Exec α} {P R : α → Prop} (hx : Plain l W x P) (h : ∀ a, P a → R a) :
    Plain l W x R

/-! ## Pieces of work -/

/-- **A piece of work that may be asked for**: it names what is there, functions of the host ask
for calls only, and only the event loop asks for tasks.  The scope of a counting loop is never the
global one. -/
def Work.Fits (l : Layer) (W : World) {α : Type} : Work α → Prop
  | .expr scope _ => l.Evaluates ∧ Sees W scope
  | .bind scope _ v _ _ => l.Evaluates ∧ Sees W scope ∧ Within W v
  | .apply f this args _ => Within W f ∧ Within W this ∧ Within W args
  | .statement scope _ _ | .whileLoop scope _ _ _ _ | .doLoop scope _ _ _ _ =>
    l.Evaluates ∧ l.Roams ∧ Sees W scope
  | .forLoop scope _ => l.Evaluates ∧ l.Roams ∧ .scope scope ∈ W
  | .microtasks | .macrotasks => l = .loop

/-- What the result of a piece of work names. -/
def Work.Yields {α : Type} (w : Work α) (W : World) : α → Prop :=
  match w with
  | .expr .. | .apply .. => fun v => Within W v
  | .statement .. | .whileLoop .. | .doLoop .. | .forLoop .. => fun c => Within W c
  | .bind .. | .microtasks | .macrotasks => Any

/-- What a caught action yields. -/
def Caught {α : Type} (Q : World → α → Prop) (W : World) : Except Thrown α → Prop
  | .ok a => Q W a
  | .error t => Within W t

/-- **Compositions of plain actions, requests to the evaluator and calls.**  `Q` is what is known of
the result in the world that the action leaves, which is never smaller than the one it found. -/
inductive Action (l : Layer) :
    World → {α : Type} → (Evaluator → Exec α) → (World → α → Prop) → Prop
  | plain {W : World} {α : Type} {x : Exec α} {P : α → Prop} {Q : World → α → Prop}
    (hx : Plain l W x P) (h : ∀ a, P a → Q W a) : Action l W (fun _ => x) Q
  | seq {W : World} {α β : Type} {x : Exec α} {k : α → Evaluator → Exec β} {P : α → Prop}
    {R : World → β → Prop} (hx : Plain l W x P) (hk : ∀ a, P a → Action l W (k a) R) :
    Action l W (fun ev => x >>= fun a => k a ev) R
  | bind {W : World} {α β : Type} {x : Evaluator → Exec α} {k : α → Evaluator → Exec β}
    {Q : World → α → Prop} {R : World → β → Prop} (hx : Action l W x Q)
    (hk : ∀ W', W ⊆ W' → ∀ a, Q W' a → Action l W' (k a) R) :
    Action l W (fun ev => x ev >>= fun a => k a ev) R
  | weaken {W : World} {α : Type} {x : Evaluator → Exec α} {Q R : World → α → Prop}
    (hx : Action l W x Q) (h : ∀ W', W ⊆ W' → ∀ a, Q W' a → R W' a) : Action l W x R
  | allocate {W : World} {body : Body} {className : Option String} (h : Within W body)
    (hf : body.isFresh = true) (hc : ∀ c, body = .closure c → l.Evaluates) :
    Action l W (fun _ => Exec.allocate body className) fun W' id =>
      .object id ∈ W' ∧ ((∃ r, body = .promise r) → .promise id ∈ W')
  | newScope {W : World} {parent : ScopeId} {kind : ScopeKind} {receiver : Option Value}
    (h : Sees W parent) (hk : kind ≠ .global) (hr : Within W receiver) :
    Action l W (fun _ => Exec.newScope ⟨some parent, kind, [], receiver⟩) fun W' id =>
      .scope id ∈ W'
  | copyScope {W : World} {scope : ScopeId} (h : .scope scope ∈ W) :
    Action l W (fun _ => Exec.copyScope scope) fun W' id => .scope id ∈ W'
  | eval {W : World} {α : Type} {w : Work α} (h : w.Fits l W) :
    Action l W (fun ev => ev.run w) fun W' a => w.Yields W' a
  | catchThrown {W : World} {α : Type} {x : Evaluator → Exec α} {Q : World → α → Prop}
    (hx : Action l W x Q) : Action l W (fun ev => Exec.catchThrown (x ev)) (Caught Q)
  | orElseShow {W : World} {α : Type} {x : Evaluator → Exec α} {Q : World → α → Prop}
    {scope : ScopeId} {line : Nat} {description : String} (hx : Action l W x Q)
    (h : Sees W scope) (hl : l.Executes) :
    Action l W
      (fun ev => Exec.orElseShow (x ev) (Exec.record scope line .expression description)) Free
  | invoke {W : World} {id : ObjectId} {c : Closure} {this : Value} {args : List Value}
    {line : Nat} (hid : .object id ∈ W) (hc : Within W c) (hthis : Within W this)
    (hbind : ∀ W', W ⊆ W' → ∀ scope, .scope scope ∈ W' →
      Action l W' (fun ev => ev.bindArguments scope c.definition args) Free)
    (hbody : l.Roams → ∀ W', W ⊆ W' → ∀ scope, .scope scope ∈ W' →
      Action l W' (fun ev => ev.runBody scope c.definition.body) Within)
    (hl : l.Binds) : Action l W (fun ev => ev.invoke id c this args line) Within

/-- **An action that counts a unit of work before all else**; `J` is what is known of the rest. -/
def Counted {α : Type} (J : (Evaluator → Exec α) → Prop) (x : Evaluator → Exec α) : Prop :=
  ∃ rest : Evaluator → Exec α, (x = fun ev => Exec.tick >>= fun _ => rest ev) ∧ J rest

/-! ## Derived rules -/

namespace Plain

variable {l : Layer} {W : World} {α β : Type}

theorem misuse {what : Misuse} {line : Nat} (hd : what.isDefensive = false) :
    Plain l W (Exec.misuse what line : Exec α) fun _ => False :=
  .elementary (.fail rfl nofun fun h => absurd h (Bool.eq_false_iff.mp hd))

/-- Where expressions are evaluated, the evaluator asks for more than it need. -/
theorem defend [hl : l.Evaluates] {what : Misuse} {line : Nat} :
    Plain l W (Exec.misuse what line : Exec α) fun _ => False :=
  .elementary (.fail rfl nofun fun _ => hl)

theorem unknownName {name : String} {line : Nat} :
    Plain l W (throw (.unknownName name line) : Exec α) fun _ => False :=
  .elementary (.fail rfl nofun nofun)

theorem raise {c : ErrorClass} {message : String} {line : Nat} :
    Plain l W (Exec.raise c message line : Exec α) fun _ => False := .elementary .raise

theorem throwValue {v : Value} {line : Nat} (hv : Within W v) :
    Plain l W (Exec.throwValue v line : Exec α) fun _ => False :=
  .bind (.elementary .heap) fun h _ => .elementary (.throw (t := ⟨v, h.display v, line⟩) hv)

/-- What does not end without a fault may be claimed to yield anything. -/
theorem never {x : Exec α} {P : α → Prop} (hx : Plain l W x fun _ => False) : Plain l W x P :=
  .weaken hx nofun

theorem write {x : Exec Unit} (h : ∀ heap, Within W heap → Writing W heap x) : Plain l W x Any :=
  .elementary (.write h)

theorem enter [l.Roams] {scope : ScopeId} (h : Sees W scope) : Plain l W (Exec.enter scope) Any :=
  .elementary (.enter h ‹_›)

/-- Reading the heap first. -/
theorem withHeap {k : Heap → Exec α} {P : α → Prop} (hk : ∀ h, Within W h → Plain l W (k h) P) :
    Plain l W (Exec.heap >>= k) P := .bind (.elementary .heap) hk

/-- Reading the ceiling first. -/
theorem withCeiling {k : Nat → Exec α} {P : α → Prop} (hk : ∀ n, Plain l W (k n) P) :
    Plain l W (Exec.ceiling >>= k) P := .bind (.elementary .ceiling) fun n _ => hk n

/-- A result computed from that of a plain action. -/
theorem map {x : Exec α} {P : α → Prop} {R : β → Prop} {g : α → β} (hx : Plain l W x P)
    (h : ∀ a, P a → R (g a)) : Plain l W (x >>= fun a => Pure.pure (g a)) R :=
  .bind hx fun a ha => .pure (h a ha)

theorem ite {c : Prop} [Decidable c] {x y : Exec α} {P : α → Prop} (hx : c → Plain l W x P)
    (hy : ¬ c → Plain l W y P) : Plain l W (if c then x else y) P := by
  split
  · exact hx ‹_›
  · exact hy ‹_›

end Plain

namespace Action

variable {l : Layer} {W : World} {α β : Type}

theorem pure {Q : World → α → Prop} {a : α} (h : Q W a) : Action l W (fun _ => Pure.pure a) Q :=
  .plain (P := Q W) (.pure h) fun _ => id

theorem elementary {x : Exec α} {P : α → Prop} {Q : World → α → Prop} (hx : Elementary l W x P)
    (h : ∀ a, P a → Q W a) : Action l W (fun _ => x) Q := .plain (.elementary hx) h

/-- What does not end without a fault may be claimed to yield anything. -/
theorem never {x : Exec α} {Q : World → α → Prop} (hx : Plain l W x fun _ => False) :
    Action l W (fun _ => x) Q := .plain hx nofun

/-- A plain action of whose result nothing is said. -/
theorem done {x : Exec α} {P : α → Prop} (hx : Plain l W x P) : Action l W (fun _ => x) Free :=
  .plain hx fun _ _ => trivial

/-- A result computed from that of an action. -/
theorem map {x : Evaluator → Exec α} {Q : World → α → Prop} {R : World → β → Prop} {g : α → β}
    (hx : Action l W x Q) (h : ∀ W', W ⊆ W' → ∀ a, Q W' a → R W' (g a)) :
    Action l W (fun ev => x ev >>= fun a => Pure.pure (g a)) R :=
  .bind hx fun W' hW a ha => .pure (h W' hW a ha)

theorem discard {x : Evaluator → Exec α} {Q : World → α → Prop} (hx : Action l W x Q) :
    Action l W (fun ev => Functor.discard (x ev)) Free :=
  .map (R := Free) hx fun _ _ _ _ => trivial

theorem counted {x : Evaluator → Exec α} {Q : World → α → Prop}
    (hx : Counted (fun rest => Action l W rest Q) x) : Action l W x Q := by
  obtain ⟨rest, rfl, hrest⟩ := hx
  exact .seq (.elementary .tick) fun _ _ => hrest

theorem ite {c : Prop} [Decidable c] {x y : Evaluator → Exec α} {Q : World → α → Prop}
    (hx : c → Action l W x Q) (hy : ¬ c → Action l W y Q) :
    Action l W (fun ev => if c then x ev else y ev) Q := by
  split
  · exact hx ‹_›
  · exact hy ‹_›

end Action

end ScriptTrace
