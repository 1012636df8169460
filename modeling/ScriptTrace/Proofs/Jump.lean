import ScriptTrace.Proofs.Outcome
import ScriptTrace.Proofs.Syntax.Part

/-!
# Proofs/Jump — where jumps land

A `break` or a `continue` travels outward as the completion of one statement after another until a
statement takes it up.  `Aims` says which jumps the statements around take up, and `lands` that a
piece of syntax has no other jumps.

How many of the labels in front of it a loop carries is a parameter of the syntax.  A loop is run
behind the nearest of them only, so what is proved is about programs whose jumps land if a loop
carries that one (`jumps_to_the_nearest_label_land`).  A `continue` to a label further out leaves
the loop and all labels in front of it (`outerLabelUse_escapes`).
-/

namespace ScriptTrace

open Syntax (Expr Pattern Stmt StmtNode ForStart LoopOver DeclarationKind Handler Case Node
  FunctionBody Program)

/-! ## Jumps and what they may aim at -/

/-- **What jumps may aim at**: whether a loop or a `switch` stands around, whether a loop does, the
labels of the statements around and those that the loops around carry. -/
structure Aims where
  breaks : Bool
  continues : Bool
  labels : List String
  carried : List String

namespace Aims

/-- Nothing stands around. -/
def none : Aims := ⟨false, false, [], []⟩

/-- In the body of a loop that carries these labels. -/
def inLoop (a : Aims) (labels : List String) : Aims :=
  { a with breaks := true, continues := true, carried := labels ++ a.carried }

/-- In the cases of a `switch`. -/
def inSwitch (a : Aims) : Aims := { a with breaks := true }

/-- Behind a label. -/
def behind (a : Aims) (label : String) : Aims := { a with labels := label :: a.labels }

/-- Whether a `break` lands. -/
def breakTo (a : Aims) : Option String → Bool
  | .none => a.breaks
  | some l => l ∈ a.labels

/-- Whether a `continue` lands. -/
def continueTo (a : Aims) : Option String → Bool
  | .none => a.continues
  | some l => l ∈ a.carried

/-- A statement ends normally, by a `return`, or by a jump that lands further out. -/
def Admits (a : Aims) : Completion → Prop
  | .normal | .returned _ => True
  | .broken label => a.breakTo label = true
  | .continued label => a.continueTo label = true

end Aims

/-! ## Syntax whose jumps land

`carry` picks the labels that a loop carries from those directly in front of it, the nearest one
first; `front` are the labels directly in front of a statement. -/

section

variable (carry : List String → List String)

mutual

/-- **Every jump in a statement lands.** -/
def Syntax.Stmt.lands (a : Aims) (front : List String) : Stmt → Bool
  | .mk node _ _ => node.lands a front

/-- Every jump in a statement has a target that is in reach. -/
def Syntax.StmtNode.lands (a : Aims) (front : List String) : StmtNode → Bool
  | .ifElse _ yes no => yes.lands a [] && Syntax.optionLands a no
  | .forLoop _ _ _ body | .forEach _ _ _ _ body | .while _ body | .doWhile body _ =>
    body.lands (a.inLoop (carry front)) []
  | .break label => a.breakTo label
  | .continue label => a.continueTo label
  | .try body handler finalizer =>
    Syntax.listLands a body && Syntax.handlerLands a handler && Syntax.finalizerLands a finalizer
  | .switch _ cases => Syntax.casesLand a.inSwitch cases
  | .labeled name body => body.lands (a.behind name) (name :: front)
  | .block body => Syntax.listLands a body
  | _ => true

/-- Every jump in a list of statements has its target. -/
def Syntax.listLands (a : Aims) : List Stmt → Bool
  | [] => true
  | s :: ss => s.lands a [] && Syntax.listLands a ss

/-- Every jump in a statement that may be missing has its target. -/
def Syntax.optionLands (a : Aims) : Option Stmt → Bool
  | none => true
  | some s => s.lands a []

/-- Every jump in a handler that may be missing has its target. -/
def Syntax.handlerLands (a : Aims) : Option Handler → Bool
  | none => true
  | some h => h.lands a

/-- Every jump in a handler has its target. -/
def Syntax.Handler.lands (a : Aims) : Handler → Bool
  | .mk _ body => Syntax.listLands a body

/-- Every jump in a finalizer that may be missing has its target. -/
def Syntax.finalizerLands (a : Aims) : Option (List Stmt) → Bool
  | none => true
  | some body => Syntax.listLands a body

/-- Every jump in the cases of a `switch` has its target. -/
def Syntax.casesLand (a : Aims) : List Case → Bool
  | [] => true
  | c :: cs => c.lands a && Syntax.casesLand a cs

/-- Every jump in a case has its target. -/
def Syntax.Case.lands (a : Aims) : Case → Bool
  | .mk _ body => Syntax.listLands a body

end

variable {carry} in
/-- The cases land if each of them does. -/
theorem Syntax.casesLand_iff {a : Aims} {cases : List Case} :
    casesLand carry a cases = true ↔ ∀ c ∈ cases, c.lands carry a = true := by
  induction cases with
  | nil => simp [casesLand]
  | cons c cs ih => simp [casesLand, ih]

/-- Jumps do not leave a function. -/
def Syntax.Node.lands : Node → Bool
  | .function f => Syntax.listLands carry .none f.body.row
  | _ => true

/-- **Every jump of a program lands**, also those in its functions. -/
def Syntax.jumpsLand (program : Program) : Bool :=
  Syntax.listLands carry .none program &&
    (Syntax.stmtsNodes program).all (Syntax.Node.lands carry)

end

/-- A loop is run behind the nearest label. -/
def nearest (front : List String) : List String := front.take 1

theorem nearest_eq (front : List String) : nearest front = front.head?.toList := by
  cases front <;> rfl

/-! ## How actions end if they end in a result -/

/-- What an action gives is of some kind. -/
def Exec.EndsIn {α : Type} (x : Exec α) (P : α → Prop) : Prop :=
  ∀ ⦃m m' : Machine⦄ ⦃a : α⦄, x m = .ok a m' → P a

namespace Exec.EndsIn

variable {α β : Type} {x : Exec α} {P : α → Prop} {Q : β → Prop}

theorem pure {a : α} (h : P a) : (Pure.pure a : Exec α).EndsIn P := by
  rintro m m' b ⟨⟩
  exact h

/-- What comes last decides how an action ends. -/
theorem bind {k : α → Exec β} (hx : x.EndsIn P) (hk : ∀ a, P a → (k a).EndsIn Q) :
    (x >>= k).EndsIn Q := by
  intro m m' b h
  obtain ⟨a, m₁, hxa, hka⟩ := bind_eq_ok h
  exact hk a (hx hxa) hka

/-- Whatever is done first. -/
theorem behind {k : α → Exec β} (hk : ∀ a, (k a).EndsIn Q) : (x >>= k).EndsIn Q :=
  bind (P := fun _ => True) (fun _ _ _ _ => trivial) fun a _ => hk a

/-- What is caught is a value, not a jump. -/
theorem catchThrown (hx : x.EndsIn P) :
    (Exec.catchThrown x).EndsIn fun r => ∀ a, r = .ok a → P a := by
  rintro m m' r h a rfl
  obtain ⟨b, hb, hxb⟩ | ⟨t, ht, -⟩ := catchThrown_eq_ok h
  · cases hb
    exact hx hxb
  · cases ht

/-- What was caught goes on as what it was. -/
theorem resume {r : Except Thrown α} (h : ∀ a, r = .ok a → P a) : (Exec.resume r).EndsIn P := by
  cases r with
  | ok a => exact pure (h a rfl)
  | error t => rintro m m' a ⟨⟩

theorem ite {y : Exec α} {c : Prop} [Decidable c] (hx : x.EndsIn P) (hy : y.EndsIn P) :
    (if c then x else y).EndsIn P := by
  split
  · exact hx
  · exact hy

end Exec.EndsIn

/-! ## Loops -/

/-- What is known of how a loop behind a label ends, from what is known of how its body does. -/
structure LoopRule (label : Option String) (Q P : Completion → Prop) : Prop where
  normal : P .normal
  ends : ∀ {c c' : Completion}, Q c → loopEnd? label c = some c' → P c'

/-- A jump that a loop behind this label takes up. -/
def Completion.IsAt (label : Option String) : Completion → Prop
  | .broken none | .continued none => True
  | .broken (some l) | .continued (some l) => label = some l
  | .normal | .returned _ => False

/-- A loop that its body ends takes up the jump, or hands on one that is not at it. -/
theorem loopEnd?_eq_some {label : Option String} {c c' : Completion}
    (h : loopEnd? label c = some c') : c' = .normal ∨ c' = c ∧ ¬ c.IsAt label := by
  unfold loopEnd? at h
  split at h
  · cases h
  · cases h
  · exact .inl (Option.some.inj h).symm
  · split at h
    · cases h
    · exact .inr ⟨(Option.some.inj h).symm, ‹_›⟩
  · split at h
    · exact .inl (Option.some.inj h).symm
    · exact .inr ⟨(Option.some.inj h).symm, ‹_›⟩
  · exact .inr ⟨(Option.some.inj h).symm, id⟩

/-- A loop takes up the jumps at it, whatever its body does. -/
theorem LoopRule.absorbs (label : Option String) :
    LoopRule label (fun _ => True) fun c => ¬ c.IsAt label where
  normal := id
  ends _ h := by
    obtain rfl | ⟨rfl, hc⟩ := loopEnd?_eq_some h
    · exact id
    · exact hc

/-- What lands in the body of a loop lands outside, if the loop does not take it up. -/
theorem LoopRule.admits (a : Aims) (label : Option String) :
    LoopRule label (a.inLoop label.toList).Admits a.Admits where
  normal := trivial
  ends {c c'} hc h := by
    obtain rfl | ⟨rfl, hat⟩ := loopEnd?_eq_some h
    · trivial
    · obtain _ | v | (_ | l) | (_ | l) := c'
      · trivial
      · trivial
      · exact absurd trivial hat
      · exact hc
      · exact absurd trivial hat
      · have hmem : l ∈ label.toList ++ a.carried := of_decide_eq_true hc
        refine decide_eq_true ((List.mem_append.mp hmem).resolve_left fun h => hat ?_)
        exact Option.mem_toList.mp h

namespace Evaluator

variable {ev : Evaluator} {scope : ScopeId} {label : Option String} {body : Stmt}
  {P Q : Completion → Prop}

open Exec (EndsIn)

/-- The body of a loop, and what is done if the loop goes on. -/
theorem loopBody_endsIn (hrule : LoopRule label Q P) (hbody : (ev.statement scope body).EndsIn Q)
    {x : Exec Completion} (hx : x.EndsIn P) :
    EndsIn (do
      match loopEnd? label (← ev.statement scope body) with
      | some c => return c
      | none => x) P := by
  refine .bind hbody fun c hc => ?_
  split
  · exact .pure (hrule.ends hc ‹_›)
  · exact hx

/-- A loop ends in what its rounds may leave it with. -/
theorem execWhile_endsIn {test : Expr} {line : Nat} (hrule : LoopRule label Q P)
    (hbody : (ev.statement scope body).EndsIn Q)
    (hnext : (ev.run (.whileLoop scope test body label line)).EndsIn P) :
    (ev.execWhile scope test body label line).EndsIn P := by
  refine .behind fun _ => .behind fun passed => .ite (.pure hrule.normal) ?_
  exact loopBody_endsIn hrule hbody hnext

theorem execDoWhile_endsIn {test : Expr} {line : Nat} (hrule : LoopRule label Q P)
    (hbody : (ev.statement scope body).EndsIn Q)
    (hnext : (ev.run (.doLoop scope body test label line)).EndsIn P) :
    (ev.execDoWhile scope body test label line).EndsIn P := by
  refine .behind fun _ => loopBody_endsIn hrule hbody ?_
  exact .behind fun passed => .ite (.pure hrule.normal) hnext

/-- A counting loop ends in what its rounds may leave it with. -/
theorem execCounting_endsIn {loop : CountingLoop} (hrule : LoopRule loop.label Q P)
    (hbody : (ev.statement scope loop.body).EndsIn Q)
    (hnext : ∀ next, (ev.run (.forLoop next loop)).EndsIn P) :
    (ev.execCounting scope loop).EndsIn P := by
  refine .behind fun _ => .behind fun _ => .behind fun passed => .ite (.pure hrule.normal) ?_
  exact loopBody_endsIn hrule hbody (.behind fun next => .behind fun _ => hnext next)

theorem execFor_endsIn {start : Option ForStart} {test update : Option Expr}
    (hloop : ∀ first isFresh,
      (ev.run (.forLoop first ⟨test, update, body, label, isFresh⟩)).EndsIn P) :
    (ev.execFor scope start test update body label).EndsIn P :=
  .behind fun _ => .behind fun isFresh => .behind fun first => hloop first isFresh

/-- A loop over items ends in what its body may leave it with. -/
theorem execEach_endsIn {word : String} {kind : Option DeclarationKind} {target : Pattern}
    {line : Nat} (hrule : LoopRule label Q P)
    (hbody : ∀ inner, (ev.statement inner body).EndsIn Q) :
    ∀ vs, (ev.execEach scope word kind target body label line vs).EndsIn P
  | [] => .pure hrule.normal
  | _ :: vs => by
    refine .behind fun _ => .behind fun inner => .behind fun _ => .behind fun _ => ?_
    refine .behind fun _ => .behind fun _ => loopBody_endsIn hrule (hbody inner) ?_
    exact execEach_endsIn hrule hbody vs

theorem execForEach_endsIn {loop : LoopOver} {kind : Option DeclarationKind} {target : Pattern}
    {source : Expr} (hrule : LoopRule label Q P)
    (hbody : ∀ inner, (ev.statement inner body).EndsIn Q) :
    (ev.execForEach scope loop kind target source body label).EndsIn P :=
  .behind fun _ => .behind fun items => execEach_endsIn hrule hbody items

/-- The cases that are executed are cases of the `switch`. -/
theorem matchingCases_endsIn {v : Value} : ∀ {cs : List Case},
    (ev.matchingCases scope v cs).EndsIn fun found => ∀ c ∈ found, c ∈ cs
  | [] => .pure nofun
  | c :: cs => by
    have hrest : (ev.matchingCases scope v cs).EndsIn fun found => ∀ c' ∈ found, c' ∈ c :: cs :=
      fun _ _ _ h c' hc' => List.mem_cons_of_mem _ (matchingCases_endsIn h c' hc')
    unfold Evaluator.matchingCases
    split
    · exact hrest
    · exact .behind fun _ => .ite (.pure fun _ => id) hrest

end Evaluator

/-! ## What loops take up -/

/-- Loops behind a label, from the start or from one of their iterations on. -/
inductive Work.IsLoop (label : Option String) : Work Completion → Prop
  | whileStart {scope : ScopeId} {test : Expr} {body : Stmt} {p : Grammar.Position} {t : String} :
    IsLoop label (.statement scope label (.mk (.while test body) p t))
  | doStart {scope : ScopeId} {test : Expr} {body : Stmt} {p : Grammar.Position} {t : String} :
    IsLoop label (.statement scope label (.mk (.doWhile body test) p t))
  | forStart {scope : ScopeId} {start : Option ForStart} {test update : Option Expr} {body : Stmt}
    {p : Grammar.Position} {t : String} :
    IsLoop label (.statement scope label (.mk (.forLoop start test update body) p t))
  | each {scope : ScopeId} {loop : LoopOver} {kind : Option DeclarationKind} {target : Pattern}
    {source : Expr} {body : Stmt} {p : Grammar.Position} {t : String} :
    IsLoop label (.statement scope label (.mk (.forEach loop kind target source body) p t))
  | while {scope : ScopeId} {test : Expr} {body : Stmt} {line : Nat} :
    IsLoop label (.whileLoop scope test body label line)
  | do {scope : ScopeId} {test : Expr} {body : Stmt} {line : Nat} :
    IsLoop label (.doLoop scope body test label line)
  | for {scope : ScopeId} {test update : Option Expr} {body : Stmt} {isFresh : Bool} :
    IsLoop label (.forLoop scope ⟨test, update, body, label, isFresh⟩)

/-- A loop takes up the jumps at it, by induction on the fuel. -/
theorem Work.IsLoop.absorbs {label : Option String} {w : Work Completion} (h : w.IsLoop label) :
    ∀ fuel, (w.exec fuel).EndsIn fun c => ¬ c.IsAt label
  | 0 => by rintro m m' c ⟨⟩
  | fuel + 1 => by
    have hrule := LoopRule.absorbs label
    have hbody {scope : ScopeId} {body : Stmt} :
        ((Evaluator.bounded fuel).statement scope body).EndsIn fun _ => True :=
      fun _ _ _ _ => trivial
    have hnext {w : Work Completion} (hw : w.IsLoop label) :
        ((Evaluator.bounded fuel).run w).EndsIn fun c => ¬ c.IsAt label := hw.absorbs fuel
    cases h with
    | whileStart => exact .behind fun _ => .behind fun _ => hnext .while
    | doStart => exact .behind fun _ => .behind fun _ => hnext .do
    | forStart =>
      refine .behind fun _ => .behind fun _ => ?_
      exact Evaluator.execFor_endsIn fun _ _ => hnext .for
    | each =>
      refine .behind fun _ => .behind fun _ => ?_
      exact Evaluator.execForEach_endsIn hrule fun _ => hbody
    | «while» => exact Evaluator.execWhile_endsIn hrule hbody (hnext .while)
    | «do» => exact Evaluator.execDoWhile_endsIn hrule hbody (hnext .do)
    | «for» => exact Evaluator.execCounting_endsIn hrule hbody fun _ => hnext .for

/-- A statement behind a label takes up the `break` to it. -/
theorem Work.labeled_absorbs {scope : ScopeId} {label : Option String} {name : String}
    {body : Stmt} {p : Grammar.Position} {t : String} :
    ∀ fuel, ((Work.statement scope label (.mk (.labeled name body) p t)).exec fuel).EndsIn
      (· ≠ .broken (some name))
  | 0 => by rintro m m' c ⟨⟩
  | fuel + 1 => by
    refine .behind fun _ => .behind fun _ => .behind fun c => ?_
    split
    · refine .pure ?_
      split
      · exact nofun
      · rename_i hl
        exact fun h => hl (Option.some.inj (Completion.broken.inj h))
    · rename_i hc
      exact .pure (hc name)

/-! ## Jumps that land are taken up -/

/-- Work on statements whose jumps land. -/
inductive Work.Lands (a : Aims) : Work Completion → Prop
  | statement {scope : ScopeId} {s : Stmt} (front : List String)
    (h : s.lands nearest a front = true) : Lands a (.statement scope front.head? s)
  | while {scope : ScopeId} {test : Expr} {body : Stmt} {label : Option String} {line : Nat}
    (h : body.lands nearest (a.inLoop label.toList) [] = true) :
    Lands a (.whileLoop scope test body label line)
  | do {scope : ScopeId} {test : Expr} {body : Stmt} {label : Option String} {line : Nat}
    (h : body.lands nearest (a.inLoop label.toList) [] = true) :
    Lands a (.doLoop scope body test label line)
  | for {scope : ScopeId} {loop : CountingLoop}
    (h : loop.body.lands nearest (a.inLoop loop.label.toList) [] = true) :
    Lands a (.forLoop scope loop)

/-- An evaluator whose statements end as their jumps may. -/
def Evaluator.Lands (ev : Evaluator) : Prop :=
  ∀ {a : Aims} {w : Work Completion}, w.Lands a → (ev.run w).EndsIn a.Admits

namespace Evaluator.Lands

variable {ev : Evaluator} (hev : ev.Lands) {scope : ScopeId} {a : Aims}

include hev

open Exec (EndsIn)

theorem statement {s : Stmt} (h : s.lands nearest a [] = true) :
    (ev.statement scope s).EndsIn a.Admits := hev (.statement [] h)

/-- A list of statements ends in a jump that was in reach in one of them. -/
theorem statements : ∀ {body : List Stmt}, Syntax.listLands nearest a body = true →
    (ev.statements scope body).EndsIn a.Admits
  | [], _ => .pure trivial
  | s :: ss, h => by
    obtain ⟨hs, hss⟩ := (Bool.and_eq_true _ _).mp h
    refine .bind (hev.statement hs) fun c hc => ?_
    split
    · exact statements hss
    · exact .pure hc

theorem execBlock {body : List Stmt} (h : Syntax.listLands nearest a body = true) :
    (ev.execBlock scope body).EndsIn a.Admits :=
  .behind fun _ => .behind fun _ => hev.statements h

/-- A handler ends in a jump that is in reach in it. -/
theorem handle {handler : Option Handler} {outcome : Except Thrown Completion} {line : Nat}
    (hh : Syntax.handlerLands nearest a handler = true) (ho : ∀ c, outcome = .ok c → a.Admits c) :
    (ev.handle scope handler outcome line).EndsIn fun r => ∀ c, r = .ok c → a.Admits c := by
  unfold Evaluator.handle
  split
  · rename_i t h
    obtain ⟨parameter, body⟩ := h
    refine .behind fun inner => .behind fun _ => .behind fun _ => .behind fun _ => ?_
    exact .catchThrown (hev.statements hh)
  · exact .pure ho

/-- **A `try` statement**: what stands behind `finally` counts if it jumps. -/
theorem execTry {body : List Stmt} {handler : Option Handler} {finalizer : Option (List Stmt)}
    {line : Nat} (hb : Syntax.listLands nearest a body = true)
    (hh : Syntax.handlerLands nearest a handler = true)
    (hf : Syntax.finalizerLands nearest a finalizer = true) :
    (ev.execTry scope body handler finalizer line).EndsIn a.Admits := by
  refine .behind fun _ => .bind (.catchThrown (hev.execBlock hb)) fun outcome ho => ?_
  refine .bind (hev.handle hh ho) fun outcome ho => ?_
  cases finalizer with
  | none => exact .resume ho
  | some last =>
    refine .behind fun _ => .behind fun _ => .bind (hev.execBlock hf) fun c hc => ?_
    split
    · exact .resume ho
    · exact .pure hc

/-- The cases of a `switch` take up the `break` without label. -/
theorem execCases : ∀ {cs : List Case}, (∀ c ∈ cs, c.lands nearest a.inSwitch = true) →
    (ev.execCases scope cs).EndsIn a.Admits
  | [], _ => .pure trivial
  | ⟨test, body⟩ :: cs, h => by
    have hbody : Syntax.listLands nearest a.inSwitch body = true := h _ List.mem_cons_self
    refine .bind (hev.statements hbody) fun c hc => ?_
    split
    · exact execCases fun c hc => h c (List.mem_cons_of_mem _ hc)
    · exact .pure trivial
    · rename_i hbroken
      refine .pure ?_
      obtain _ | v | (_ | l) | l := c
      · trivial
      · trivial
      · exact absurd rfl hbroken
      · exact hc
      · cases l <;> exact hc

/-- A `break` in a `switch` stays in it. -/
theorem execSwitch {value : Expr} {cases : List Case} {line : Nat}
    (h : ∀ c ∈ cases, c.lands nearest a.inSwitch = true) :
    (ev.execSwitch scope value cases line).EndsIn a.Admits := by
  refine .behind fun v => .behind fun inner => .behind fun _ => ?_
  refine .bind matchingCases_endsIn fun found hfound => .behind fun _ => ?_
  refine hev.execCases fun c hc => h c ?_
  split at hc
  · exact (List.dropWhile_sublist _).subset hc
  · exact hfound c hc

/-- **A statement whose jumps land ends as they may.** -/
theorem execStatement {s : Stmt} {front : List String} (h : s.lands nearest a front = true) :
    (ev.execStatement scope front.head? s).EndsIn a.Admits := by
  obtain ⟨node, position, excerpt⟩ := s
  have hrule : LoopRule front.head? (a.inLoop (nearest front)).Admits a.Admits :=
    nearest_eq front ▸ .admits a front.head?
  refine .behind fun _ => .behind fun _ => ?_
  cases node with
  | declare | function | expr => exact .behind fun _ => .pure trivial
  | «return» => exact .behind fun _ => .behind fun _ => .behind fun _ => .pure trivial
  | ifElse test yes no =>
    obtain ⟨hyes, hno⟩ := (Bool.and_eq_true _ _).mp h
    refine .behind fun v => .behind fun _ => .ite (hev.statement hyes) ?_
    cases no with
    | none => exact .pure trivial
    | some s => exact hev.statement hno
  | forLoop start test update body =>
    exact execFor_endsIn fun _ _ => hev (.for (nearest_eq front ▸ h))
  | forEach => exact execForEach_endsIn hrule fun _ => hev.statement h
  | «while» => exact hev (.while (nearest_eq front ▸ h))
  | doWhile => exact hev (.do (nearest_eq front ▸ h))
  | «break» label => exact .behind fun _ => .pure h
  | «continue» label => exact .behind fun _ => .pure h
  | throw =>
    refine .behind fun v => .behind fun _ => .behind fun _ => ?_
    rintro m m' c ⟨⟩
  | «try» =>
    obtain ⟨h, hf⟩ := (Bool.and_eq_true _ _).mp h
    obtain ⟨hb, hh⟩ := (Bool.and_eq_true _ _).mp h
    exact hev.execTry hb hh hf
  | switch value cases => exact hev.execSwitch (Syntax.casesLand_iff.mp h)
  | labeled name body =>
    refine .bind (hev (.statement (name :: front) h)) fun c hc => ?_
    split
    · rename_i l
      refine .pure ?_
      split
      · trivial
      · rename_i hl
        have hmem : l ∈ name :: a.labels := of_decide_eq_true hc
        exact decide_eq_true ((List.mem_cons.mp hmem).resolve_left hl)
    · rename_i hbroken
      refine .pure ?_
      obtain _ | v | (_ | l) | (_ | l) := c
      · trivial
      · trivial
      · exact hc
      · exact absurd rfl (hbroken l)
      · exact hc
      · exact hc
  | block => exact hev.execBlock h
  | empty => exact .pure trivial

/-- Every piece of work on statements whose jumps land ends as they may, if the work inside it
does. -/
theorem step {w : Work Completion} (h : w.Lands a) : (ev.step w).EndsIn a.Admits := by
  cases h with
  | statement _ h => exact hev.execStatement h
  | «while» h => exact execWhile_endsIn (.admits a _) (hev.statement h) (hev (.while h))
  | «do» h => exact execDoWhile_endsIn (.admits a _) (hev.statement h) (hev (.do h))
  | «for» h =>
    exact execCounting_endsIn (.admits a _) (hev.statement h) fun _ => hev (.for h)

end Evaluator.Lands

/-- **Statements whose jumps land end as they may**, by induction on the fuel. -/
theorem Evaluator.lands_bounded : ∀ fuel, (bounded fuel).Lands
  | 0, _, _, _ => fun _ _ _ h => nomatch h
  | fuel + 1, _, _, hw => Evaluator.Lands.step (lands_bounded fuel) hw

/-- The bodies of a program: its own statements and those of its functions. -/
inductive Syntax.IsBody (program : Program) : List Stmt → Prop
  | program : IsBody program program
  | function {f : Syntax.Function} (h : .function f ∈ Syntax.stmtsNodes program) :
    IsBody program f.body.row

/-- In a function no jump leads out of its body. -/
theorem Syntax.IsBody.lands {carry : List String → List String} {program : Program}
    {body : List Stmt} (h : IsBody program body) (hp : jumpsLand carry program = true) :
    listLands carry .none body = true := by
  obtain ⟨hprogram, hnodes⟩ := (Bool.and_eq_true _ _).mp hp
  cases h with
  | program => exact hprogram
  | function hf => exact List.all_eq_true.mp hnodes _ hf

/-- **Jumps to the nearest label land.**  In a program whose jumps land if a loop carries the label
directly in front of it, the statements of a body end normally or by a `return`.  In all programs, a
loop takes up the jumps without label in its body and those to the label directly in front of it,
and a statement behind a label takes up each `break` to it. -/
theorem jumps_to_the_nearest_label_land (program : Program)
    (h : Syntax.jumpsLand nearest program = true) :
    (∀ body, Syntax.IsBody program body → ∀ (fuel : Nat) (scope : ScopeId),
      ((Evaluator.bounded fuel).statements scope body).EndsIn
        fun c => c = .normal ∨ ∃ v, c = .returned v) ∧
    (∀ label (w : Work Completion), w.IsLoop label → ∀ fuel,
      (w.exec fuel).EndsIn fun c => ¬ c.IsAt label) ∧
    ∀ scope label name body position excerpt fuel,
      ((Work.statement scope label (.mk (.labeled name body) position excerpt)).exec fuel).EndsIn
        (· ≠ .broken (some name)) := by
  refine ⟨fun body hbody fuel scope m m' c hc => ?_, fun label w hw => hw.absorbs,
    fun _ _ _ _ _ _ => Work.labeled_absorbs⟩
  have hadmits : Aims.none.Admits c :=
    Evaluator.Lands.statements (Evaluator.lands_bounded fuel) (hbody.lands h) hc
  obtain _ | v | (_ | l) | (_ | l) := c
  · exact .inl rfl
  · exact .inr ⟨v, rfl⟩
  all_goals cases hadmits

/-- The program of a source with a property that can be computed. -/
theorem Syntax.exists_program {source : String} {p : Program → Bool}
    (h : (readProgram source).toOption.any p = true) :
    ∃ program, readProgram source = .ok program ∧ p program = true := by
  cases hread : readProgram source with
  | ok program =>
    rw [hread] at h
    exact ⟨program, rfl, h⟩
  | error e =>
    rw [hread] at h
    cases h

/-- A loop whose body goes on with it by its label. -/
def nearestLabelUse : String := "L: for (const x of [1, 2]) \x7b continue L \x7d"

/-- A program all of whose jumps land where their labels are. -/
theorem nearestLabelUse_lands :
    ∃ program, Syntax.readProgram nearestLabelUse = .ok program ∧
      Syntax.jumpsLand nearest program = true ∧
      (∀ body, Syntax.IsBody program body → ∀ (fuel : Nat) (scope : ScopeId),
        ((Evaluator.bounded fuel).statements scope body).EndsIn
          fun c => c = .normal ∨ ∃ v, c = .returned v) ∧
      (∀ label (w : Work Completion), w.IsLoop label → ∀ fuel,
        (w.exec fuel).EndsIn fun c => ¬ c.IsAt label) ∧
      ∀ scope label name body position excerpt fuel,
        ((Work.statement scope label (.mk (.labeled name body) position excerpt)).exec fuel).EndsIn
          (· ≠ .broken (some name)) := by
  have hlands : (Syntax.readProgram nearestLabelUse).toOption.any
      (Syntax.jumpsLand nearest) = true := by decide +kernel
  obtain ⟨program, hread, hprogram⟩ := Syntax.exists_program hlands
  exact ⟨program, hread, hprogram, jumps_to_the_nearest_label_land program hprogram⟩

/-- A loop behind two labels whose body goes on with it by the first one. -/
def outerLabelUse : String :=
  "L1: L2: for (const x of [1, 2]) \x7b console.log(x); continue L1; \x7d console.log(\"done\")"

/-- Whether the statements of a program end in a `continue` to this label. -/
def Syntax.continuesTo (label : String) (program : Program) : Bool :=
  match (Evaluator.bounded 40).statements Scopes.globalId program (.initial .default) with
  | .ok (.continued (some l)) _ => l = label
  | _ => false

/-- Then they do end in it. -/
theorem Syntax.statements_of_continuesTo {label : String} {program : Program}
    (h : continuesTo label program = true) :
    ∃ m, (Evaluator.bounded 40).statements Scopes.globalId program (.initial .default) =
      .ok (.continued (some label)) m := by
  unfold continuesTo at h
  split at h
  · rename_i l m hl
    exact ⟨m, of_decide_eq_true h ▸ hl⟩
  · cases h

/-- A `continue` to a label that is not the nearest one leaves the loop that carries it, and the
program: all jumps land if a loop carries all labels in front of it, but the statements end in the
jump.  What is behind the loop is not executed, and there is no error. -/
theorem outerLabelUse_escapes :
    (∃ program m, Syntax.readProgram outerLabelUse = .ok program ∧
      Syntax.jumpsLand id program = true ∧ Syntax.IsBody program program ∧
      (Evaluator.bounded 40).statements Scopes.globalId program (.initial .default) =
        .ok (.continued (some "L1")) m) ∧
    ((run .default outerLabelUse).consoleTexts, (run .default outerLabelUse).error) =
      (["1"], none) := by
  have hescapes : (Syntax.readProgram outerLabelUse).toOption.any
        (fun p => Syntax.jumpsLand id p && Syntax.continuesTo "L1" p) = true ∧
      ((run .default outerLabelUse).consoleTexts, (run .default outerLabelUse).error) =
        (["1"], none) := by decide +kernel
  refine ⟨?_, hescapes.2⟩
  obtain ⟨program, hread, hprogram⟩ := Syntax.exists_program hescapes.1
  obtain ⟨hlands, hcontinues⟩ := (Bool.and_eq_true _ _).mp hprogram
  obtain ⟨m, hm⟩ := Syntax.statements_of_continuesTo hcontinues
  exact ⟨program, m, hread, hlands, .program, hm⟩

end ScriptTrace
