import ScriptTrace.Proofs.Scope.Holder
import ScriptTrace.Proofs.Scope.Inside

/-!
# Proofs/Scope/Hoisting — variables stay in the body that declares them

Before a body runs, all variables that stand in it are bound in its scope (`Machine.Hoists`), and
names are never unbound.  What a `var` writes to is the next binding of the name outward; as the
statement lies inside the scope of the body, that binding lies there, too (`var_stays_in_body`).
-/

namespace ScriptTrace

open Syntax (Expr Element Pattern PatternElement PropertyPattern Slot Key Stmt DeclaresVar StandsIn
  functionNames)

/-! ## Hoisting -/

/-- A name that is bound in a scope stays bound. -/
theorem Machine.Grows.isSome_bindingIn? {m m' : Machine} (h : m.Grows m') {name : String}
    {σ : ScopeId} (hb : (m.scopes.bindingIn? name σ).isSome) :
    (m'.scopes.bindingIn? name σ).isSome := by
  have hfind {s : Scope} : (s.find? name).isSome ↔ name ∈ s.bindings.map Prod.fst := by
    simp [Scope.find?]
  obtain ⟨b, hb⟩ := Option.isSome_iff_exists.mp hb
  obtain ⟨r, hr, hbr⟩ := Option.bind_eq_some_iff.mp hb
  obtain ⟨r', hr', hlater⟩ := h.scope hr
  rw [Scopes.bindingIn?, hr']
  exact hfind.mpr (hlater.names.subset (hfind.mp (Option.isSome_iff_exists.mpr ⟨b, hbr⟩)))

/-- **What hoisting does** to the scope of a body: it binds the variables and the functions that the
body declares, and changes a name that was bound only if a function has it. -/
structure Machine.Hoists (m m' : Machine) (c : ScopeId) (body : List Stmt) : Prop where
  apart : ∀ σ, σ ≠ c → m'.scopes[σ]? = m.scopes[σ]?
  bound : ∀ name, DeclaresVar body name ∨ name ∈ functionNames body →
    (m'.scopes.bindingIn? name c).isSome
  added : ∀ name, m.scopes.bindingIn? name c = none → (m'.scopes.bindingIn? name c).isSome →
    DeclaresVar body name ∨ name ∈ functionNames body
  kept : ∀ name b, m.scopes.bindingIn? name c = some b → name ∉ functionNames body →
    m'.scopes.bindingIn? name c = some b

/-- Names are bound in one scope, and nothing else is. -/
structure Machine.Binds (m m' : Machine) (c : ScopeId) (names : List String) : Prop where
  size_eq : m'.scopes.size = m.scopes.size
  apart : ∀ σ, σ ≠ c → m'.scopes[σ]? = m.scopes[σ]?
  bound : ∀ name ∈ names, (m'.scopes.bindingIn? name c).isSome
  other : ∀ name, name ∉ names → m'.scopes.bindingIn? name c = m.scopes.bindingIn? name c

namespace Machine.Binds

variable {m m' m₁ : Machine} {c : ScopeId} {names others : List String} {name : String}

theorem of_eq (h : m'.scopes = m.scopes) : m.Binds m' c [] :=
  ⟨by rw [h], fun _ _ => by rw [h], nofun, fun _ _ => by rw [h]⟩

/-- What is bound in two stretches is bound in one. -/
theorem trans (h : m.Binds m' c names) (h₁ : m'.Binds m₁ c others) :
    m.Binds m₁ c (names ++ others) where
  size_eq := h₁.size_eq.trans h.size_eq
  apart σ hσ := (h₁.apart σ hσ).trans (h.apart σ hσ)
  bound name hname := by
    by_cases hother : name ∈ others
    · exact h₁.bound name hother
    · rw [h₁.other name hother]
      exact h.bound name ((List.mem_append.mp hname).resolve_right hother)
  other name hname := by
    obtain ⟨hnames, hothers⟩ := not_or.mp (mt List.mem_append.mpr hname)
    exact (h₁.other name hothers).trans (h.other name hnames)

/-- A name that is put in is bound, and no other one. -/
theorem put {b : Binding} (hc : c < m.scopes.size)
    (h : m'.scopes = m.scopes.modify c (·.put name b)) : m.Binds m' c [name] where
  size_eq := by rw [h, Array.size_modify]
  apart σ hσ := by rw [h, Array.getElem?_modify, if_neg hσ.symm]
  bound x hx := by
    cases List.mem_singleton.mp hx
    rw [h, Scopes.bindingIn?_put_self hc]
    rfl
  other x hx := by
    rw [h]
    exact Scopes.bindingIn?_put fun _ heq => hx (List.mem_singleton.mpr heq.symm)

end Machine.Binds

namespace Exec

variable {c : ScopeId} {m : Machine}

/-- Variables are bound, but what was bound is kept. -/
theorem hoistNames_ok (names : List String) (hc : c < m.scopes.size) :
    ∃ m', hoistNames c names m = .ok () m' ∧ m.Binds m' c names ∧
      ∀ name b, m.scopes.bindingIn? name c = some b → m'.scopes.bindingIn? name c = some b := by
  induction names generalizing m with
  | nil => exact ⟨m, rfl, .of_eq rfl, fun _ _ => id⟩
  | cons x xs ih =>
    have hstep : hoistNames c (x :: xs) m =
        (if (m.scopes.bindingIn? x c).isNone then
          define c x .undefined .var >>= fun _ => hoistNames c xs
        else hoistNames c xs) m := rfl
    rw [hstep]
    cases hx : m.scopes.bindingIn? x c with
    | some b =>
      obtain ⟨m', hok, hbinds, hkept⟩ := ih hc
      refine ⟨m', hok, ⟨hbinds.size_eq, hbinds.apart, ?_, ?_⟩, hkept⟩
      · refine List.forall_mem_cons.mpr ⟨?_, hbinds.bound⟩
        rw [hkept x b hx]
        rfl
      · exact fun name hname => hbinds.other name fun h => hname (List.mem_cons_of_mem _ h)
    | none =>
      have hdefine : define c x .undefined .var m = .ok () _ := rfl
      have hput : m.Binds ((define c x .undefined .var).after m) c [x] := .put hc rfl
      obtain ⟨m', hok, hbinds, hkept⟩ := ih (hput.size_eq ▸ hc)
      refine ⟨m', (bind_of_ok hdefine).trans hok, hput.trans hbinds, fun name b hb => ?_⟩
      refine hkept name b ?_
      rw [hput.other name, hb]
      rintro (_ | ⟨_, ⟨⟩⟩)
      cases hx.symm.trans hb

/-- Functions are bound, and nothing else changes. -/
theorem hoistBlock_ok (body : List Stmt) (hc : c < m.scopes.size) :
    ∃ m', hoistBlock c body m = .ok () m' ∧ m.Binds m' c (functionNames body) := by
  induction body generalizing m with
  | nil => exact ⟨m, rfl, .of_eq rfl⟩
  | cons s ss ih =>
    unfold hoistBlock
    split
    · rename_i f hf
      let closed := (makeClosure c f "").after m
      let bind := define c (f.name.getD "") (.object m.heap.size) .function
      have hclosure : makeClosure c f "" m = .ok (.object m.heap.size) closed := rfl
      have hdefine : bind closed = .ok () _ := rfl
      have hput : m.Binds (bind.after closed) c [f.name.getD ""] := .put hc rfl
      obtain ⟨m', hok, hbinds⟩ := ih (hput.size_eq ▸ hc)
      refine ⟨m', (bind_of_ok hclosure).trans ((bind_of_ok hdefine).trans hok), ?_⟩
      exact Syntax.functionNames_of_function hf ▸ hput.trans hbinds
    · rename_i hf
      rw [Syntax.functionNames_of_other hf]
      exact ih hc

/-- **Hoisting.** -/
theorem hoistBody_ok (body : List Stmt) (hc : c < m.scopes.size) :
    ∃ m', hoistBody c body m = .ok () m' ∧ m.Hoists m' c body := by
  obtain ⟨m₁, hnames, hvars, hkept⟩ := hoistNames_ok (Syntax.hoistedNames body) hc
  obtain ⟨m₂, hblock, hfunctions⟩ := hoistBlock_ok body (hvars.size_eq ▸ hc)
  have hmem {name : String} := @Syntax.mem_hoistedNames body name
  have hall := hvars.trans hfunctions
  refine ⟨m₂, (bind_of_ok hnames).trans hblock, hall.apart, ?_, ?_, ?_⟩
  · intro name h
    exact hall.bound name (List.mem_append.mpr (h.imp_left hmem.mpr))
  · intro name hnone hsome
    by_contra h
    obtain ⟨hvar, hfunction⟩ := not_or.mp h
    rw [hall.other name, hnone] at hsome
    · cases hsome
    · exact mt List.mem_append.mp (not_or.mpr ⟨mt hmem.mp hvar, hfunction⟩)
  · intro name b hb hfunction
    rw [hfunctions.other name hfunction]
    exact hkept name b hb

end Exec

/-! ## Patterns -/

/-- Work that binds some of these names from a scope, or none. -/
def Work.BindsAmong (σ : ScopeId) (mode : BindMode) (names : List String) {β : Type} :
    Work β → Prop
  | .bind σ' p _ mode' _ => σ' = σ ∧ mode' = mode ∧ p.names ⊆ names
  | _ => True

/-- An action that a pattern is written by. -/
abbrev Splits (σ : ScopeId) (mode : BindMode) (names : List String) (k : Nat) (m₀ : Machine)
    {α : Type} (x : Evaluator → Exec α) : Prop :=
  Requests k (fun _ _ w => w.BindsAmong σ mode names) m₀ x Whatever

namespace Splits

variable {σ : ScopeId} {mode : BindMode} {names : List String} {k : Nat} {m₀ : Machine} {v : Value}
  {line : Nat}

theorem bindTo {p : Pattern} (hp : p.names ⊆ names) :
    Splits σ mode names k m₀ fun ev => ev.bind σ p v mode line :=
  .run (w := .bind σ p v mode line) fun _ => ⟨rfl, rfl, hp⟩

/-- The names of an element are those of its target. -/
theorem bindElement {element : PatternElement} (h : element.names ⊆ names) :
    Splits σ mode names k m₀ fun ev => ev.bindElement σ element v mode line := by
  obtain ⟨target, fallback⟩ := element
  unfold Evaluator.bindElement
  split
  · exact (Requests.exprFor fun _ _ => trivial).before fun _ => bindTo h
  · exact Requests.done.before fun _ => bindTo h

theorem bindSlots {items : Array Value} {n : Nat} {slots : List Slot}
    (h : Syntax.slotNames slots ⊆ names) :
    Splits σ mode names k m₀ fun ev => ev.bindSlots σ items mode line n slots := by
  induction slots generalizing n with
  | nil => exact .done
  | cons slot slots ih =>
    obtain ⟨hslot, hslots⟩ := List.append_subset.mp h
    cases slot with
    | hole => exact ih hslots
    | filled element => exact (bindElement hslot).before fun _ => ih hslots

theorem bindProperties : ∀ {properties : List PropertyPattern},
    Syntax.propertyNames properties ⊆ names →
      Splits σ mode names k m₀ fun ev => ev.bindProperties σ v mode line properties
  | [], _ => .done
  | .mk _ _ :: _, h => by
    obtain ⟨hproperty, hproperties⟩ := List.append_subset.mp h
    refine (Requests.key fun _ _ => trivial).before fun _ => ?_
    refine Requests.before (.made (.getMember (within_univ v))) fun item => ?_
    exact (bindElement hproperty).before fun _ => (bindProperties hproperties).before fun _ => .done

/-- **A pattern is written to part by part**, all parts in the same way. -/
theorem bindPattern {p : Pattern} :
    Splits σ mode p.names k m₀ fun ev => ev.bindPattern σ p v mode line := by
  cases p with
  | name x =>
    cases mode with
    | declare kind => exact .plain (.define (sees_univ σ) (within_univ v))
    | assign => exact .plain (.assign (within_univ v))
  | member target =>
    refine (Requests.reference fun _ _ => trivial).before fun r => ?_
    exact .made (.writeReference (within_univ r) (within_univ v))
  | array slots rest =>
    refine Requests.before (.plain .iterate) fun items => ?_
    refine (bindSlots (List.subset_append_left ..)).before fun _ => ?_
    cases rest with
    | none => exact .done
    | some rest =>
      refine Requests.before (.made (.makeArray (within_univ _))) fun _ => ?_
      exact bindTo (List.subset_append_right ..)
  | object properties rest =>
    refine .ite (fun _ => Requests.inspect.before fun _ => .throwing) fun _ => ?_
    refine (bindProperties (List.subset_append_left ..)).before fun used => ?_
    cases rest with
    | none => exact .done
    | some rest =>
      refine Requests.before (.plain (.elementary .heap)) fun _ => ?_
      refine Requests.before (.made (.makePlain (within_univ _))) fun _ => ?_
      exact bindTo (List.subset_append_right ..)

end Splits

/-! ## Bodies -/

/-- A scope in which all variables of a body are bound. -/
structure Machine.Hosts (m : Machine) (c : ScopeId) (body : List Stmt) : Prop where
  made : c < m.scopes.size
  bound : ∀ name, DeclaresVar body name → (m.scopes.bindingIn? name c).isSome

theorem Machine.Hosts.later {m m' : Machine} {c : ScopeId} {body : List Stmt} (h : m.Hosts c body)
    (hg : m.Grows m') : m'.Hosts c body :=
  ⟨h.made.trans_le hg.size_le, fun name hname => hg.isSome_bindingIn? (h.bound name hname)⟩

/-- Work that executes no other statements than those of a body, in its scope. -/
def Work.StartsBody (c : ScopeId) (body : List Stmt) (m : Machine) {β : Type} : Work β → Prop
  | .statement σ _ s => σ = c ∧ s ∈ body ∧ m.Hosts c body
  | _ => True

/-- An action in which a body is executed, and no other statements. -/
abbrev Starts (c : ScopeId) (body : List Stmt) (k : Nat) (m₀ : Machine) {α : Type}
    (x : Evaluator → Exec α) : Prop :=
  Requests k (fun m _ w => w.StartsBody c body m) m₀ x Whatever

namespace Starts

variable {c scope : ScopeId} {body : List Stmt} {k : Nat} {m₀ : Machine} {line : Nat}

/-- A statement of the body starts where the body does. -/
theorem statements (h : m₀.Hosts c body) {ss : List Stmt} (hss : ss ⊆ body) :
    Starts c body k m₀ fun ev => ev.statements c ss := by
  induction ss with
  | nil => exact .done
  | cons s ss ih =>
    obtain ⟨hs, hss⟩ := List.cons_subset.mp hss
    refine Requests.before (.run (w := .statement c none s) fun hm => ⟨rfl, hs, h.later hm⟩)
      fun c => ?_
    split
    · exact ih hss
    · exact .done

/-- When the body begins, its names are in place. -/
theorem hoistBody (hc : c < m₀.scopes.size) :
    Requests k (fun m _ w => w.StartsBody c body m) m₀ (fun _ => Exec.hoistBody c body)
      fun m _ => m.Hosts c body := by
  have hmade : Starts c body k m₀ fun _ => Exec.hoistBody c body := .made (.hoistBody (sees_univ c))
  refine { hmade with yields := fun {m m' _} hm ha => ?_ }
  have hlt : c < m.scopes.size := hc.trans_le hm.size_le
  have hgrows := hmade.grows hm
  rw [Exec.after_of_ok ha] at hgrows
  obtain ⟨m₁, hok, hhoists⟩ := Exec.hoistBody_ok body hlt
  cases hok.symm.trans ha
  exact ⟨hlt.trans_le hgrows.size_le, fun name hname => hhoists.bound name (.inl hname)⟩

/-- A body hoists its names and then runs its statements. -/
theorem runBody (hc : c < m₀.scopes.size) :
    Starts c body k m₀ fun ev => ev.runBody c (.block body) := by
  refine (hoistBody hc).bind fun _ m hm hhosts => ?_
  refine (statements hhosts (List.Subset.refl body)).before fun completion => ?_
  split
  · exact .done
  · exact .done

theorem bindTo {p : Pattern} {v : Value} {mode : BindMode} :
    Starts c body k m₀ fun ev => ev.bind scope p v mode line :=
  .run (w := .bind scope p v mode line) fun _ => trivial

/-- To bind parameters does not start the body. -/
theorem bindParameters : ∀ {ps : List PatternElement} {args : List Value},
    Starts c body k m₀ fun ev => ev.bindParameters scope line ps args
  | [], _ => .done
  | p :: ps, args => by
    refine Requests.before (Q := Whatever) ?_ fun v => bindTo.before fun _ => bindParameters
    unfold Evaluator.parameterValue
    split
    · exact .expr fun _ _ => trivial
    · exact .done

/-- Binding the arguments of a call executes no statement. -/
theorem bindArguments {f : Syntax.Function} {args : List Value} :
    Starts c body k m₀ fun ev => ev.bindArguments scope f args := by
  refine bindParameters.before fun remaining => ?_
  split
  · exact .done
  · exact Requests.before (.made (.makeArray (within_univ _))) fun _ => bindTo

theorem runCall {cl : Closure} {args : List Value} {shown : String}
    (hbody : cl.definition.body = .block body) (hc : c < m₀.scopes.size) :
    Starts c body k m₀ fun ev => ev.runCall c cl args shown line := by
  unfold Evaluator.runCall
  rw [hbody]
  exact bindArguments.followedBy.before fun _ => runBody hc

theorem endCall {cl : Closure} {caller : ScopeId} {outcome : Except Thrown Value} :
    Starts c body k m₀ fun _ => Evaluator.endCall cl caller line outcome := by
  have hleave {description : String} :
      Starts c body k m₀ fun _ => Evaluator.leave caller line description :=
    Requests.before (.still fun _ => .of_eq rfl rfl rfl le_rfl le_rfl) fun _ =>
      Requests.enter.before fun _ => .record
  cases outcome with
  | ok v => exact Requests.inspect.before fun _ => hleave.before fun _ => .resume
  | error t => exact hleave.before fun _ => .resume

/-- **A program** is executed in the global scope. -/
theorem runProgram (hc : Scopes.globalId < m₀.scopes.size) :
    Starts Scopes.globalId body k m₀ fun ev => ev.runProgram body := by
  have hphase {phase : Phase} {description : String} :
      Starts Scopes.globalId body k m₀ fun _ => Exec.enterPhase phase description :=
    .plain (.elementary (.enterPhase rfl))
  refine (hoistBody hc).bind fun _ m hm hhosts => (hphase.later hm).before fun _ => ?_
  refine (statements hhosts (List.Subset.refl body)).discard.before fun _ => ?_
  refine Requests.later ?_ hm
  refine Requests.enter.before fun _ => Requests.before (Q := Whatever) ?_ fun _ => ?_
  · refine Requests.before (.plain (.elementary (.hasMicrotask rfl))) fun _ => ?_
    refine .ite (fun _ => hphase.before fun _ => .run fun _ => trivial) fun _ => .done
  · exact Requests.before (.run fun _ => trivial) fun _ => hphase

end Starts

/-- The scope of a call is a new one. -/
theorem Evaluator.callScope_eq (id : ObjectId) (c : Closure) (this : Value) (m : Machine) :
    ∃ m', callScope id c this m = .ok m.scopes.size m' ∧ m.scopes.size < m'.scopes.size := by
  have hmade : callScope id c this m = _ :=
    (Exec.bind_of_ok rfl).trans ((Exec.bind_of_ok rfl).trans (Exec.bind_of_ok rfl))
  rw [hmade]
  split
  · exact ⟨_, Exec.bind_of_ok rfl, by simp⟩
  · exact ⟨_, rfl, by simp⟩

/-- A call that asks for anything runs the body of its function in a new scope. -/
theorem Asks.invoke_eq {id : ObjectId} {cl : Closure} {this : Value} {args : List Value}
    {line : Nat} {ev : Evaluator} {β : Type} {v : Work β} {m m₁ : Machine}
    (h : Asks (fun ev => ev.invoke id cl this args line) ev m v m₁) : ∃ m₀ shown,
      Evaluator.callScope id cl this
        { m with work := m.work + 1, frames := ⟨cl.title, line⟩ :: m.frames } =
          .ok m.scopes.size m₀ ∧
      ∀ ev : Evaluator, ev.invoke id cl this args line m =
        (Exec.catchThrown (ev.runCall m.scopes.size cl args shown line) >>=
          Evaluator.endCall cl m.scope line) m₀ := by
  rcases Traced.invoke_cases id cl this args line m with
    ⟨g, -, hinvoke⟩ | ⟨-, scope, m₀, hscope, hinvoke⟩
  · have hrefused : Asks (fun _ => throw g) ev { m with work := m.work + 1 } v m₁ :=
      h.congr hinvoke
    exact (not_asks_const hrefused).elim
  · obtain ⟨m', hmade, -⟩ := Evaluator.callScope_eq id cl this
      { m with work := m.work + 1, frames := ⟨cl.title, line⟩ :: m.frames }
    cases hmade.symm.trans hscope
    exact ⟨m₀, _, hmade, hinvoke⟩

/-- **A call** executes the body of the function in a new scope. -/
theorem Asks.of_invoke {id : ObjectId} {cl : Closure} {this : Value} {args : List Value}
    {line k : Nat} {body : List Stmt} (hbody : cl.definition.body = .block body) {β : Type}
    {v : Work β} {m m₁ : Machine}
    (h : Asks (fun ev => ev.invoke id cl this args line) (.bounded k) m v m₁) :
    m.Grows m₁ ∧ v.StartsBody m.scopes.size body m₁ := by
  obtain ⟨m₀, shown, hscope, hinvoke⟩ := h.invoke_eq
  have hpushed : m.Grows { m with work := m.work + 1, frames := ⟨cl.title, line⟩ :: m.frames } :=
    .of_eq rfl rfl rfl le_rfl (Nat.le_succ _)
  obtain ⟨m', hmade, hlt⟩ := Evaluator.callScope_eq id cl this
    { m with work := m.work + 1, frames := ⟨cl.title, line⟩ :: m.frames }
  cases hmade.symm.trans hscope
  have hstarts : Starts m.scopes.size body k m₀ fun ev =>
      Exec.catchThrown (ev.runCall m.scopes.size cl args shown line) >>=
        Evaluator.endCall cl m.scope line :=
    (Starts.runCall hbody hlt).catchThrown.before fun _ => Starts.endCall
  obtain ⟨hgrows, hv⟩ := hstarts.asks (.refl m₀) (h.congr hinvoke)
  exact ⟨hpushed.trans ((Machine.Grows.callScope hscope).trans hgrows), hv⟩

/-- A call of a closure of the heap is an action. -/
theorem Machine.Closed.action_invoke {m : Machine} (hm : m.Closed) {id : ObjectId} {cl : Closure}
    {this : Value} {args : List Value} {line : Nat} (hid : m.heap.body? id = some (.closure cl))
    (hthis : Within m.world this) (hargs : Within m.world args) :
    ∃ Q, Action .loop m.world (fun ev => ev.invoke id cl this args line) Q := by
  obtain ⟨o, ho, -⟩ := Option.map_eq_some_iff.mp hid
  have hmem : .object id ∈ m.world := (Array.getElem?_eq_some_iff.mp ho).1
  exact ⟨_, .call hmem (hm.heap.of_body? hid) hthis hargs⟩

/-- **What executes a body** in its scope: a call of a function, in a new scope, or the run of a
program, in the global one. -/
inductive RunsBody (c : ScopeId) (body : List Stmt) (m : Machine) :
    {α : Type} → (Evaluator → Exec α) → Prop
  | call {id : ObjectId} {cl : Closure} {this : Value} {args : List Value} {line : Nat}
    (hid : m.heap.body? id = some (.closure cl)) (hthis : Within m.world this)
    (hargs : Within m.world args) (hbody : cl.definition.body = .block body)
    (hc : c = m.scopes.size) : RunsBody c body m fun ev => ev.invoke id cl this args line
  | program {limits : Limits} (hm : m = .initial limits) (hc : c = Scopes.globalId) :
    RunsBody c body m fun ev => ev.runProgram body

namespace RunsBody

variable {c : ScopeId} {body : List Stmt} {m m₁ : Machine} {α β : Type} {x : Evaluator → Exec α}
  {k : Nat} {v : Work β}

theorem action (h : RunsBody c body m x) (hm : m.Closed) : ∃ Q, Action .loop m.world x Q := by
  cases h with
  | @call id cl this args line hid hthis hargs hbody hc => exact hm.action_invoke hid hthis hargs
  | program => exact ⟨_, .runProgram⟩

/-- The statements that are executed are those of the body, and its variables are bound. -/
theorem asks (h : RunsBody c body m x) (ha : Asks x (.bounded k) m v m₁) :
    m.Grows m₁ ∧ v.StartsBody c body m₁ := by
  cases h with
  | call hid hthis hargs hbody hc => exact hc ▸ Asks.of_invoke hbody ha
  | @program limits hm hc =>
    subst hm hc
    have hglobal : Scopes.globalId < (Machine.initial limits).scopes.size :=
      Scopes.IsTree.initial.nonempty
    exact (Starts.runProgram hglobal).asks (.refl _) ha

/-- Every scope inside that of the body is this one or was made since. -/
theorem made (h : RunsBody c body m x) {owner : ScopeId} (howner : c ≤ owner) :
    owner = c ∨ m.scopes.size ≤ owner := by
  cases h with
  | call hid hthis hargs hbody hc => exact .inr (hc ▸ howner)
  | program hm hc =>
    subst hm hc
    rcases Nat.eq_zero_or_pos owner with hzero | hpos
    · exact .inl hzero
    · exact .inr hpos

end RunsBody

/-! ## What a `var` writes to -/

section

variable {α β : Type} {x : Evaluator → Exec α} {w : Work Completion} {v : Work β}
  {fuel fuel₀ n k : Nat} {m m₀ m₁ : Machine} {c scope : ScopeId} {s : Stmt} {body : List Stmt}

/-- What is executed innermost is nested in what the statement is nested in. -/
theorem Executing.nested (h : Executing w fuel m scope s n v k m₁)
    (hw : Nested x fuel₀ m₀ w fuel m) : Nested x fuel₀ m₀ v k m₁ := by
  induction h with
  | first => exact hw
  | inner _ ha ih => exact ih.inside ha
  | again _ ha _ ih => exact ih.inside ha

/-- **What is executed innermost stays inside** every scope around the statement, and in the body
that the statement stands in. -/
theorem Executing.inside {outer : ScopeId} {label : Option String} {first : Stmt}
    (h : Executing (.statement outer label first) fuel m scope s n v k m₁)
    (hs : m.Inside c outer) (hbody : StandsIn body first) :
    m.Grows m₁ ∧ m₁.Inside c scope ∧ StandsIn body s ∧ v.IsBeneath c m₁ := by
  induction h with
  | first hw =>
    cases hw
    exact ⟨.refl m, hs, hbody, trivial⟩
  | inner h ha ih =>
    obtain ⟨hgrows, hinside, hstands, hbeneath⟩ := ih
    obtain ⟨hg, hinside', hrow⟩ := (h.present.1.local hinside hbeneath).asks (.refl _) ha
    exact ⟨hgrows.trans hg, hinside', hstands.inside hrow, trivial⟩
  | @again _ _ _ _ _ _ _ v' _ _ h ha hv ih =>
    obtain ⟨hgrows, hinside, hstands, hbeneath⟩ := ih
    obtain ⟨hg, hlocal⟩ := (h.present.1.local hinside hbeneath).asks (.refl _) ha
    refine ⟨hgrows.trans hg, hinside.later hg, hstands, ?_⟩
    cases v' with
    | forLoop => exact hlocal
    | _ => trivial

end

/-- **What the `var`s of a body bind**: the patterns that its statements declare, and the parts of
these. -/
inductive BindsVar {α : Type} (x : Evaluator → Exec α) (fuel : Nat) (m : Machine) :
    Work Unit → Nat → Machine → Prop
  | target {scope scope' σ : ScopeId} {label : Option String} {s s' : Stmt} {n k line : Nat}
    {p : Pattern} {v : Value} {mode : BindMode} {m₀ m₁ : Machine}
    (hs : Asks x (.bounded fuel) m (.statement scope label s) m₀)
    (h : OperandOf (.statement scope label s) fuel m₀ scope' s' n (.bind σ p v mode line) k m₁)
    (hp : p ∈ s'.node.varTargets) : BindsVar x fuel m (.bind σ p v mode line) k m₁
  | part {w : Work Unit} {σ : ScopeId} {p : Pattern} {v : Value} {mode : BindMode} {k line : Nat}
    {m₁ m₂ : Machine} (h : BindsVar x fuel m w (k + 1) m₁)
    (ha : Asks (fun ev => ev.step w) (.bounded k) m₁ (.bind σ p v mode line) m₂) :
    BindsVar x fuel m (.bind σ p v mode line) k m₂

/-- Work that binds variables of a body, where they are bound already. -/
def Work.BindsVars (c : ScopeId) (body : List Stmt) (m : Machine) {β : Type} : Work β → Prop
  | .bind σ p _ mode _ =>
    m.Inside c σ ∧ mode = .assign ∧ ∀ name ∈ p.names, DeclaresVar body name
  | _ => False

/-- The parts of a pattern are bound as the pattern is. -/
theorem Work.BindsVars.part {c σ : ScopeId} {body : List Stmt} {β : Type} {w : Work β} {k : Nat}
    {m m₁ : Machine} {p : Pattern} {v : Value} {mode : BindMode} {line : Nat}
    (h : w.BindsVars c body m)
    (ha : Asks (fun ev => ev.step w) (.bounded k) m (.bind σ p v mode line) m₁) :
    m.Grows m₁ ∧ (Work.bind σ p v mode line).BindsVars c body m₁ := by
  cases w with
  | bind σ p v mode line =>
    obtain ⟨hinside, rfl, hnames⟩ := h
    have hsplits : Splits σ .assign p.names k m fun ev => ev.step (.bind σ p v .assign line) :=
      .bindPattern
    obtain ⟨hg, rfl, rfl, hsubset⟩ := hsplits.asks (.refl _) ha
    exact ⟨hg, hinside.later hg, rfl, fun name h => hnames name (hsubset h)⟩
  | _ => exact h.elim

namespace BindsVar

variable {α : Type} {x : Evaluator → Exec α} {fuel k : Nat} {m m₁ : Machine} {c : ScopeId}
  {body : List Stmt} {w : Work Unit}

theorem nested (h : BindsVar x fuel m w k m₁) : Nested x fuel m w k m₁ := by
  induction h with
  | target hs h =>
    obtain ⟨h, ha, -⟩ := h
    exact (h.nested (.asked hs)).inside ha
  | part _ ha ih => exact ih.inside ha

/-- **A `var` assigns to variables of the body**, from a scope inside that of the body. -/
theorem bindsVars (h : BindsVar x fuel m w k m₁) (hx : RunsBody c body m x) :
    m₁.Hosts c body ∧ w.BindsVars c body m₁ := by
  induction h with
  | target hs h hp =>
    obtain ⟨-, rfl, hmem, hhosts⟩ := hx.asks hs
    obtain ⟨h, ha, -⟩ := h
    obtain ⟨hgrows, hinside, hstands, hbeneath⟩ := h.inside (.self hhosts.made) (.row hmem)
    obtain ⟨hg, hinside', hmode⟩ := (h.present.1.local hinside hbeneath).asks (.refl _) ha
    refine ⟨hhosts.later (hgrows.trans hg), hinside', hmode (List.ne_nil_of_mem hp), ?_⟩
    exact fun name hname => ⟨_, hstands, _, hp, hname⟩
  | part _ ha ih =>
    obtain ⟨hhosts, hw⟩ := ih
    obtain ⟨hg, hpart⟩ := hw.part ha
    exact ⟨hhosts.later hg, hpart⟩

end BindsVar

/-- What is written to a name goes to its next binding outward, if anything is written. -/
theorem Work.scopes_bindName {σ owner : ScopeId} {name : String} {v : Value} {line k : Nat}
    {m : Machine} (h : m.scopes.binder? σ name = some owner) :
    let m' := ((Work.bind σ (.name name) v .assign line).exec k).after m
    m'.scopes = m.scopes ∨ ∃ b, m'.scopes = m.scopes.modify owner (·.put name b) := by
  cases k with
  | zero => exact .inl rfl
  | succ k =>
    change ((Exec.assign σ name v line).after m).scopes = m.scopes ∨
      ∃ b, ((Exec.assign σ name v line).after m).scopes = m.scopes.modify owner (·.put name b)
    rcases Exec.assign_cases σ name v line m with ⟨hnone, -⟩ | ⟨owner', b, howner, -, hassign⟩
    · cases h.symm.trans hnone
    · cases h.symm.trans howner
      rw [Exec.after_congr hassign]
      split
      · exact .inl rfl
      · exact .inr ⟨_, rfl⟩

/-- **Variables stay in the body that declares them.**  What a `var` of a body writes a name to, in
a call of a function or in the run of a program, is the next binding of the name outward; it lies in
the scope of the body or in one that was made inside it meanwhile, and no other binding is made or
changed.  For hoisting binds all variables of the body in its scope, and nothing else but its
functions; what was bound there keeps its value, unless a function has the name. -/
theorem var_stays_in_body {m : Machine} (hm : m.Closed) {c : ScopeId} {body : List Stmt} {α : Type}
    {x : Evaluator → Exec α} (hx : RunsBody c body m x) (fuel : Nat) :
    (∀ {σ : ScopeId} {name : String} {v : Value} {mode : BindMode} {line k : Nat} {m₁ : Machine},
      BindsVar x fuel m (.bind σ (.name name) v mode line) k m₁ →
        let m₂ := ((Work.bind σ (.name name) v mode line).exec k).after m₁
        DeclaresVar body name ∧ ∃ owner, m₁.scopes.binder? σ name = some owner ∧
          c ∈ m₁.scopes.chain owner ∧ (owner = c ∨ m.scopes.size ≤ owner) ∧
          (m₂.scopes = m₁.scopes ∨ ∃ b, m₂.scopes = m₁.scopes.modify owner (·.put name b))) ∧
    ∀ m₀ : Machine, c < m₀.scopes.size →
      ∃ m', Exec.hoistBody c body m₀ = .ok () m' ∧ m₀.Hoists m' c body := by
  refine ⟨fun {σ name v mode line k m₁} h => ?_, fun m₀ hc => Exec.hoistBody_ok body hc⟩
  obtain ⟨hhosts, hinside, rfl, hnames⟩ := h.bindsVars hx
  obtain ⟨Q, haction⟩ := hx.action hm
  obtain ⟨hclosed, -, -⟩ := h.nested.leads haction hm
  have hdeclares : DeclaresVar body name := hnames name List.mem_cons_self
  obtain ⟨owner, howner, hin⟩ := hinside.binder hclosed.tree (hhosts.bound name hdeclares)
  exact ⟨hdeclares, owner, howner, hin.mem_chain hclosed.tree, hx.made (hin.le hclosed.tree),
    Work.scopes_bindName howner⟩

/-- The statement `var f = function () \x7b\x7d`. -/
def functionVariable : Stmt :=
  let inner : Syntax.Function := .mk none [] none (.block []) false ⟨1, 1⟩
  .mk (.declare .var [.mk (.name "f") (some (.mk (.function inner) ⟨1, 1⟩))]) ⟨1, 1⟩ ""

/-- A block with a variable. -/
def variableBlock : Stmt := .mk (.block [functionVariable]) ⟨1, 1⟩ ""

/-- A function with such a block as its body. -/
def blockFunction : Syntax.Function := .mk none [] none (.block [variableBlock]) false ⟨1, 1⟩

/-- The variable is bound in the scope of the call, from inside the block. -/
theorem blockFunction_keeps_variable :
    let m := (Exec.makeClosure Scopes.globalId blockFunction "").after (.initial .default)
    ∃ v k m₁ owner,
      BindsVar (fun ev => ev.invoke 0 ⟨"", blockFunction, Scopes.globalId⟩ .undefined [] 1) 3 m
        (.bind 2 (.name "f") v .assign 1) k m₁ ∧
      DeclaresVar [variableBlock] "f" ∧ m₁.scopes.binder? 2 "f" = some owner ∧
      1 ∈ m₁.scopes.chain owner := by
  intro m
  have hm : m.Closed := (Action.leads_made (.makeClosure sees_global) (.initial .default) rfl).1
  have hx : RunsBody 1 [variableBlock] m fun ev =>
      ev.invoke 0 ⟨"", blockFunction, Scopes.globalId⟩ .undefined [] 1 :=
    .call rfl within_undefined within_nil rfl rfl
  obtain ⟨m₀, hwork₀, hsize, hcall⟩ : ∃ m₀ : Machine, m₀.work + 1 < m₀.limits.maxSteps ∧
      m₀.scopes.size = 2 ∧ Begins
        (fun ev => ev.invoke 0 ⟨"", blockFunction, Scopes.globalId⟩ .undefined [] 1) (.bounded 3) m
        (.statement 1 none variableBlock) m₀ :=
    ⟨_, by decide, by rfl, .behind .const (Exec.tick_of_lt (by decide)) <| .behind .const rfl <|
      .behind .const (Exec.pushFrame_of_lt (by decide)) <| .behind .const rfl <|
      .behind .const rfl <| .bind <| .catchThrown <|
      .behind (.followedBy (.bind .const fun _ => .const)) rfl <| .behind .const rfl <|
      .bind (.bind .run)⟩
  obtain ⟨m₁, hwork₁, hblock⟩ : ∃ m₁ : Machine, m₁.work < m₁.limits.maxSteps ∧
      Begins (fun ev => ev.step (.statement 1 none variableBlock)) (.bounded 2) m₀
        (.statement m₀.scopes.size none functionVariable) m₁ :=
    ⟨_, by exact hwork₀, .behind .const (Exec.tick_of_lt (Nat.lt_of_succ_lt hwork₀)) <|
      .behind .const rfl <| .behind .const rfl <| .behind .const rfl <| .bind .run⟩
  rw [hsize] at hblock
  obtain ⟨v, m₂, hbind⟩ : ∃ v m₂,
      Begins (fun ev => ev.step (.statement 2 none functionVariable)) (.bounded 1) m₁
        (.bind 2 (.name "f") v .assign 1) m₂ :=
    ⟨_, _, .behind .const (Exec.tick_of_lt hwork₁) <| .behind .const rfl <| .bind <| .bind <|
      .behind .const rfl <| .behind .const rfl <| .bind .run⟩
  have hbinds : BindsVar
      (fun ev => ev.invoke 0 ⟨"", blockFunction, Scopes.globalId⟩ .undefined [] 1) 3 m
      (.bind 2 (.name "f") v .assign 1) 1 m₂ :=
    .target hcall.asks ⟨.inner (.first rfl) hblock.asks, hbind.asks, trivial⟩ List.mem_cons_self
  obtain ⟨hdeclares, owner, howner, hchain, -⟩ := (var_stays_in_body hm hx 3).1 hbinds
  exact ⟨v, 1, m₂, owner, hbinds, hdeclares, howner, hchain⟩

end ScriptTrace
