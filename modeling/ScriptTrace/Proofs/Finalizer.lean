import ScriptTrace.Proofs.EventLoop.Course

/-!
# Proofs/Finalizer — when the finalizer of a `try` runs

The protected part of a `try` is the same statement without its finalizer.  However the protected
part ends, normally, by a jump, or with a thrown value, the finalizer begins exactly once in the
machine that it leaves, and the outcome of the statement is that of the protected part unless the
finalizer has one of its own (`finalizer_begins_once`).

There is one way around the finalizer that does not end the run: the pattern that takes what the
block threw may throw itself, and what it throws passes the finalizer by.
-/

namespace ScriptTrace

open Syntax (Stmt Handler)

/-! ## Actions with a part -/

/-- **An action does its part exactly once**: whatever the part is, it begins in the machine `m₁`,
and behind it comes `k`, which knows nothing of the part but its result. -/
def DoesOnce {α β : Type} (x : Exec α → Exec β) (m m₁ : Machine) (k : α → Exec β) : Prop :=
  ∀ part, x part m = (part >>= k) m₁

/-- A `try` statement but for its finalizer. -/
structure TryStatement where
  body : List Stmt
  handler : Option Handler
  position : Grammar.Position
  excerpt : String

namespace TryStatement

/-- The statement with a finalizer, or without one. -/
def stmt (t : TryStatement) (finalizer : Option (List Stmt)) : Stmt :=
  .mk (.try t.body t.handler finalizer) t.position t.excerpt

/-- The line in which the statement begins. -/
def line (t : TryStatement) : Nat := t.position.line

end TryStatement

/-- The machine in which a finalizer begins. -/
def Machine.finalizing (m : Machine) (scope : ScopeId) (line : Nat) : Machine :=
  { m with scope }.recorded scope line .tryCatch "Run finally block"

namespace Evaluator

open Exec

variable (ev : Evaluator) (scope : ScopeId) (label : Option String) (t : TryStatement)

/-- The block of a `try` up to its end. -/
def tryBlock : Exec (Except Thrown Completion) := do
  tick
  enter scope
  record scope t.line .tryCatch "Enter try block"
  catchThrown (ev.execBlock scope t.body)

/-- The block of a `try` and, if it threw, the handler. -/
def protectedPart : Exec (Except Thrown Completion) := do
  let outcome ← ev.tryBlock scope t
  ev.handle scope t.handler outcome t.line

/-- How a `try` ends behind its finalizer: what ends normally gives way to what was there before. -/
def afterFinalizer (outcome : Except Thrown Completion) : Completion → Exec Completion
  | .normal => resume outcome
  | abrupt => return abrupt

/-- A `try` with any action in place of its finalizer. -/
def execTryWith (last : Exec Completion) : Exec Completion := do
  let outcome ← ev.protectedPart scope t
  enter scope
  record scope t.line .tryCatch "Run finally block"
  afterFinalizer outcome (← last)

/-- **The parameter of the handler throws**: the block threw a value, and a default value or a key
in the pattern that takes it throws another one. -/
def ParameterThrows (m : Machine) : Prop :=
  ∃ h caught m₁ thrown m₂, t.handler = some h ∧ ev.tryBlock scope t m = .ok (.error caught) m₁ ∧
    (innerScope scope .catch >>= fun inner => ev.bindThrown inner h caught t.line) m₁ =
      .error (Thrown.fault thrown) m₂

section

variable {ev scope label t} {m m₁ m₂ : Machine} {f : Fault} {outcome : Except Thrown Completion}
  {c : Completion} {thrown : Thrown} {last : Exec Completion}

/-! ## The statement and its protected part -/

/-- A `try` with a finalizer runs it as the last of its parts. -/
theorem execStatement_finalizer (last : List Stmt) :
    ev.execStatement scope label (t.stmt (some last)) =
      ev.execTryWith scope t (ev.execBlock scope last) := by
  change (tick >>= fun _ => enter scope >>= fun _ =>
    ev.execTry scope t.body t.handler (some last) t.line) = _
  simp only [execTry, execTryWith, protectedPart, tryBlock, bind_assoc]
  rfl

/-- Without a finalizer a `try` is its protected part. -/
theorem execStatement_protected :
    ev.execStatement scope label (t.stmt none) = ev.protectedPart scope t >>= resume := by
  change (tick >>= fun _ => enter scope >>= fun _ =>
    ev.execTry scope t.body t.handler none t.line) = _
  simp only [execTry, protectedPart, tryBlock, bind_assoc]

theorem resume_eq_ok (h : resume outcome m = .ok c m₁) : outcome = .ok c ∧ m = m₁ := by
  cases outcome with
  | ok d => cases h; exact ⟨rfl, rfl⟩
  | error thrown => cases h

theorem resume_eq_error (h : resume outcome m = .error f m₁) :
    ∃ thrown : Thrown, outcome = .error thrown ∧ f = thrown.fault ∧ m = m₁ := by
  cases outcome with
  | ok d => cases h
  | error thrown => cases h; exact ⟨thrown, rfl, rfl, rfl⟩

/-- What a `try` without a finalizer ends in, its protected part does. -/
theorem protectedPart_of_ok (h : ev.execStatement scope label (t.stmt none) m = .ok c m₁) :
    ev.protectedPart scope t m = .ok (.ok c) m₁ := by
  rw [execStatement_protected] at h
  obtain ⟨outcome, m₂, hpart, h⟩ := bind_eq_ok h
  obtain ⟨rfl, rfl⟩ := resume_eq_ok h
  exact hpart

/-- The protected part faults if the run is over, or if something is thrown past it. -/
theorem protectedPart_of_error (h : ev.execStatement scope label (t.stmt none) m = .error f m₁) :
    (∃ thrown : Thrown, f = thrown.fault ∧
      ev.protectedPart scope t m = .ok (.error thrown) m₁) ∨
      ev.protectedPart scope t m = .error f m₁ := by
  rw [execStatement_protected] at h
  obtain h | ⟨outcome, m₂, hpart, h⟩ := bind_eq_error h
  · exact .inr h
  · obtain ⟨thrown, rfl, rfl, rfl⟩ := resume_eq_error h
    exact .inl ⟨thrown, rfl, hpart⟩

theorem execTryWith_of_ok (h : ev.protectedPart scope t m = .ok outcome m₁) :
    DoesOnce (ev.execTryWith scope t) m (m₁.finalizing scope t.line) (afterFinalizer outcome) :=
  fun _ => bind_of_ok h

/-- A fault of the protected part passes by the finalizer. -/
theorem execTryWith_of_error (h : ev.protectedPart scope t m = .error f m₁)
    (last : Exec Completion) :
    ev.execTryWith scope t last m = .error f m₁ :=
  bind_of_error h

/-! ## What can be thrown past the finalizer -/

/-- The fault of a tick cannot be caught. -/
theorem tick_fault (h : tick m = .error f m₁) : f.isThrown = false := by
  by_cases hw : m.work < m.limits.maxSteps
  · cases (tick_of_lt hw).symm.trans h
  · cases (tick_of_le (Nat.le_of_not_lt hw)).symm.trans h
    rfl

/-- The fault of the block cannot be caught. -/
theorem tryBlock_fault (h : ev.tryBlock scope t m = .error f m₁) : f.isThrown = false := by
  obtain h | ⟨_, m₁, -, h⟩ := bind_eq_error h
  · exact tick_fault h
  · exact (catchThrown_eq_error (x := ev.execBlock scope t.body) h).2

/-- Only the parameter of a handler lets a thrown value through. -/
theorem execHandler_fault {h : Handler} {line : Nat}
    (he : ev.execHandler scope h thrown line m = .error f m₁) (hf : f.isThrown = true) :
    (innerScope scope .catch >>= fun inner => ev.bindThrown inner h thrown line) m =
      .error f m₁ := by
  obtain he | ⟨inner, m₂, hinner, he⟩ := bind_eq_error he
  · cases he
  refine (bind_of_ok hinner).trans ?_
  obtain he | ⟨_, m₃, -, he⟩ := bind_eq_error he
  · exact he
  obtain ⟨_, _, hhoist⟩ := hoistBlock_eq inner h.body
    (m₃.recorded inner line .tryCatch ("Caught " ++ thrown.text))
  have hbody : catchThrown (ev.statements inner h.body) _ = .error f m₁ :=
    (bind_of_ok hhoist).symm.trans he
  simp [(catchThrown_eq_error hbody).2] at hf

/-- Only the parameter of the handler lets a thrown value out of the protected part. -/
theorem parameterThrows_of_protectedPart (h : ev.protectedPart scope t m = .error f m₁)
    (hf : f.isThrown = true) : ev.ParameterThrows scope t m := by
  obtain h | ⟨outcome, m₂, hblock, h⟩ := bind_eq_error h
  · simp [tryBlock_fault h] at hf
  obtain ⟨thrown, rfl⟩ := fault_of_isThrown hf
  cases outcome with
  | ok c => cases h
  | error caught =>
    cases hhandler : t.handler with
    | none => rw [hhandler] at h; cases h
    | some handler =>
      rw [hhandler] at h
      exact ⟨handler, caught, m₂, thrown, m₁, hhandler, hblock, execHandler_fault h hf⟩

/-- What the parameter throws is how the protected part ends. -/
theorem ParameterThrows.protectedPart (h : ev.ParameterThrows scope t m) :
    ∃ thrown m₁, ev.protectedPart scope t m = .error (Thrown.fault thrown) m₁ := by
  obtain ⟨handler, caught, m₂, thrown, m₁, hhandler, hblock, hbinds⟩ := h
  refine ⟨thrown, m₁, (bind_of_ok hblock).trans ?_⟩
  rw [hhandler]
  obtain h | ⟨inner, m₃, hinner, hbinds⟩ := bind_eq_error hbinds
  · cases h
  exact (bind_of_ok hinner).trans (bind_of_error hbinds)

end

/-! ## The finalizer -/

/-- **The finalizer of a `try` begins exactly once.**  The statement without it is the protected
part; where that ends normally, by a jump, or with a thrown value, the finalizer begins in the
machine it leaves, and if it ends normally the statement ends as the protected part did.  It does
not begin where the run is over, and where the parameter of the handler throws. -/
theorem finalizer_begins_once (ev : Evaluator) (scope : ScopeId) (label : Option String)
    (t : TryStatement) (m : Machine) :
    (∀ last, ev.execStatement scope label (t.stmt (some last)) =
      ev.execTryWith scope t (ev.execBlock scope last)) ∧
    (∀ c m₁, ev.execStatement scope label (t.stmt none) m = .ok c m₁ →
      DoesOnce (ev.execTryWith scope t) m (m₁.finalizing scope t.line)
        (afterFinalizer (.ok c))) ∧
    (∀ thrown m₁, ev.execStatement scope label (t.stmt none) m = .error (Thrown.fault thrown) m₁ →
      ¬ ev.ParameterThrows scope t m →
      DoesOnce (ev.execTryWith scope t) m (m₁.finalizing scope t.line)
        (afterFinalizer (.error thrown))) ∧
    ∀ f m₁, ev.execStatement scope label (t.stmt none) m = .error f m₁ →
      f.isThrown = false ∨ ev.ParameterThrows scope t m →
      ∀ last, ev.execTryWith scope t last m = .error f m₁ := by
  refine ⟨execStatement_finalizer, fun c m₁ h => ?_, fun thrown m₁ h hparameter => ?_,
    fun f m₁ h hpast last => ?_⟩
  · exact execTryWith_of_ok (protectedPart_of_ok h)
  · obtain ⟨held, hfault, hpart⟩ | hpart := protectedPart_of_error h
    · obtain ⟨_, _, _⟩ := held
      obtain ⟨_, _, _⟩ := thrown
      cases hfault
      exact execTryWith_of_ok hpart
    · exact absurd (parameterThrows_of_protectedPart hpart rfl) hparameter
  · refine execTryWith_of_error ?_ last
    obtain ⟨thrown, rfl, hpart⟩ | hpart := protectedPart_of_error h
    · obtain hf | hparameter := hpast
      · cases hf
      · obtain ⟨other, m₂, hother⟩ := hparameter.protectedPart
        cases hpart.symm.trans hother
    · exact hpart

end Evaluator

/-- A program whose handler takes apart what was thrown with a default value that throws. -/
def throwingParameterUse : String :=
  "try \x7b throw \x7b\x7d \x7d catch (\x7b a = JSON.parse(\"\") \x7d) \x7b \x7d " ++
  "finally \x7b console.log(\"finally\") \x7d"

/-- What the parameter of a handler throws leaves without the finalizer, which prints nothing. -/
theorem throwingParameterUse_skips_finalizer :
    (run .default throwingParameterUse).steps.toList.map (fun s => (s.kind, s.description)) =
      [(.eventLoop, "Run script: synchronous code executes on the call stack"),
        (.tryCatch, "Enter try block"), (.throw, "throw \x7b\x7d"),
        (.error, "Uncaught SyntaxError: Unexpected token in JSON " ++
          "(EOF while parsing a value at line 1 column 0)")] ∧
    (run .default throwingParameterUse).consoleTexts = [] := by
  decide +kernel

end ScriptTrace
