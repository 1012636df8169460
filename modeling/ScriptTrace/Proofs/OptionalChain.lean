import ScriptTrace.Proofs.HostMethod
import ScriptTrace.Proofs.Syntax.Suffix
import ScriptTrace.Proofs.Termination.Unbounded

/-!
# Proofs/OptionalChain — how far an optional chain is cut short

    b?.s₁ s₂ ⋯ sₙ

Where `b` comes to `null` or `undefined`, the first suffix is left out, and the next one meets
`undefined` in its turn.  The cut is remembered only by a call, which looks at the member that it
calls.  So the chain comes to `undefined` exactly if each suffix stops by itself: it is optional, or
it calls an optional member (`Suffix.allStop`).  Then nothing of the suffixes is evaluated; any
other chain fails at the first suffix that goes on (`optional_chain_stops_iff`).
-/

namespace ScriptTrace

open Syntax (Expr ExprNode Element Key Suffix applySuffixes)
open Exec

namespace Syntax.Suffix

/-- Whether a suffix is written with `?.`. -/
def isOptional : Suffix → Bool
  | .call _ isOptional | .member _ isOptional => isOptional

/-- Whether a suffix calls what stands before it. -/
def isCall : Suffix → Bool
  | .call .. => true
  | .member .. => false

/-- **Whether each suffix stops by itself** behind something nullish: it is optional, or it is a
call directly behind an optional member. -/
def allStop (behindMember : Bool) : List Suffix → Bool
  | [] => true
  | .call _ isOptional :: more => (behindMember || isOptional) && allStop false more
  | .member _ isOptional :: more => isOptional && allStop true more

end Syntax.Suffix

/-! ## Chains -/

/-- **A chain of which each suffix stops**: `s`, which is optional, and `n` suffixes behind it.
`isMember` tells whether the last one is a member. -/
inductive Stops (b : Expr) (s : Suffix) : Nat → Bool → Expr → Prop
  | first {isMember : Bool} {p : Expr} (hp : applySuffixes b [s] = .ok p)
    (hs : s.isOptional = true) (hmember : isMember = !s.isCall) : Stops b s 0 isMember p
  | member {n : Nat} {isMember : Bool} {p : Expr} {key : Key} (h : Stops b s n isMember p) :
    Stops b s (n + 1) true (.mk (.member p key true) p.position)
  | call {n : Nat} {isMember isOptional : Bool} {p : Expr} {args : List Element}
    (h : Stops b s n isMember p) (hs : (isMember || isOptional) = true) :
    Stops b s (n + 1) false (.mk (.call p args isOptional) p.position)

/-- **A chain that goes on** at some suffix behind `s`. -/
inductive GoesOn (b : Expr) (s : Suffix) : Expr → Prop
  | member {n : Nat} {isMember : Bool} {p : Expr} {key : Key} (h : Stops b s n isMember p) :
    GoesOn b s (.mk (.member p key false) p.position)
  | call {n : Nat} {p : Expr} {args : List Element} (h : Stops b s n false p) :
    GoesOn b s (.mk (.call p args false) p.position)
  | behindMember {p : Expr} {key : Key} {isOptional : Bool} (h : GoesOn b s p) :
    GoesOn b s (.mk (.member p key isOptional) p.position)
  | behindCall {p : Expr} {args : List Element} {isOptional : Bool} (h : GoesOn b s p) :
    GoesOn b s (.mk (.call p args isOptional) p.position)

/-- The chain up to one of its suffixes. -/
def IsFront (b e p : Expr) : Prop :=
  ∃ taken left, applySuffixes b taken = .ok p ∧ applySuffixes p left = .ok e

section

variable {b e p : Expr} {n : Nat} {isMember : Bool} {s : Suffix} {more : List Suffix}

/-- What goes on in front of more suffixes goes on behind them. -/
theorem GoesOn.behind (h : GoesOn b s p) (he : applySuffixes p more = .ok e) :
    GoesOn b s e := by
  induction more generalizing p with
  | nil =>
    cases he
    exact h
  | cons t more ih =>
    cases t with
    | call args isOptional =>
      cases args with
      | error _ => cases he
      | ok args => exact ih h.behindCall he
    | member key isOptional =>
      cases key with
      | error _ => cases he
      | ok key => exact ih h.behindMember he

/-- A chain stops at all its suffixes or goes on at one. -/
theorem Stops.stops_or_goesOn (h : Stops b s n isMember p) (he : applySuffixes p more = .ok e) :
    if Suffix.allStop isMember more then ∃ isMember, Stops b s (n + more.length) isMember e
    else GoesOn b s e := by
  induction more generalizing n isMember p with
  | nil =>
    cases he
    exact ⟨isMember, h⟩
  | cons t more ih =>
    have hlength : n + (t :: more).length = n + 1 + more.length := by
      rw [List.length_cons]
      omega
    rw [hlength]
    cases t with
    | call args isOptional =>
      cases args with
      | error _ => cases he
      | ok args =>
        by_cases hs : (isMember || isOptional) = true
        · simpa only [Suffix.allStop, hs, Bool.true_and] using ih (h.call hs) he
        · obtain ⟨rfl, rfl⟩ : isMember = false ∧ isOptional = false := by simpa using hs
          exact GoesOn.behind (.call h) he
    | member key isOptional =>
      cases key with
      | error _ => cases he
      | ok key =>
        cases isOptional with
        | true => exact ih h.member he
        | false => exact GoesOn.behind (.member h) he

end

/-! ## What a chain comes to -/

section

variable {σ : ScopeId} {m m' m₁ : Machine} {k j : Nat} {b e p : Expr} {s : Suffix} {n : Nat}
  {v : Value} {isMember : Bool}

theorem steady_expr (σ : ScopeId) (p : Expr) :
    Steady (fun ev => ev.expr σ p) (Within Set.univ) := (Action.expr (sees_univ σ)).steady

theorem steady_callTarget (σ : ScopeId) (p : Expr) :
    Steady (fun ev => ev.callTarget? σ p) (Within Set.univ) :=
  (Action.callTarget? (sees_univ σ)).steady

/-- What is behind a chain that was cut short: an optional member cuts a call of it short, too, and
the value of anything else is called. -/
def cutTarget (isMember : Bool) : Option CallTarget :=
  if isMember then none else some (.value .undefined .undefined)

/-- **A chain that was cut short** comes to `undefined`, and leaves the machine as its base did. -/
structure CutShort (σ : ScopeId) (m m' : Machine) (k : Nat) (isMember : Bool) (p : Expr) :
    Prop where
  value : (Evaluator.bounded k).expr σ p m = .ok .undefined m'
  callee : (Evaluator.bounded k).callTarget? σ p m = .ok (cutTarget isMember) m'

/-- A callee that cuts its call short: itself, or because the call is optional and the value is
nullish. -/
def IsShort (isOptional : Bool) (target : Option CallTarget) : Prop :=
  ∀ t, target = some t → isOptional = true ∧ ∃ f this, f.isNullish = true ∧ t = .value f this

/-- A chain that is cut short gives no target, or `undefined` as one. -/
theorem cutTarget_isShort {isOptional : Bool} (h : (isMember || isOptional) = true) :
    IsShort isOptional (cutTarget isMember) := by
  intro t ht
  cases isMember with
  | true => cases ht
  | false =>
    cases ht
    exact ⟨h, _, _, rfl, rfl⟩

/-- A base that comes to nothing and, where it is called, means nothing that can be. -/
structure ComesToNothing (σ : ScopeId) (m m' : Machine) (k : Nat) (isCalled : Bool) (b : Expr) :
    Prop where
  value : ∃ v, v.isNullish = true ∧ (Evaluator.bounded k).expr σ b m = .ok v m'
  callee : isCalled = true → ∃ target, (Evaluator.bounded k).callTarget? σ b m = .ok target m' ∧
    IsShort true target

/-- What a call gives is called without a receiver. -/
theorem callTarget_of_call {ev : Evaluator} (hnode : ∃ callee args isOptional,
    p.node = .call callee args isOptional) (h : ev.expr σ p m = .ok v m') :
    ev.callTarget? σ p m = .ok (some (.value v .undefined)) m' := by
  obtain ⟨callee, args, isOptional, hnode⟩ := hnode
  unfold Evaluator.callTarget?
  rw [hnode]
  exact bind_of_ok h

/-- An optional member of something nullish. -/
theorem CutShort.of_member {key : Key} {position : Grammar.Position} (hv : v.isNullish = true)
    (h : (Evaluator.bounded k).expr σ p m = .ok v m') :
    CutShort σ m m' (k + 1) true (.mk (.member p key true) position) where
  value := (bind_of_ok h).trans (congrFun (if_pos hv) m')
  callee := (bind_of_ok (((steady_expr σ p).settled h).1 k.le_succ)).trans (congrFun (if_pos hv) m')

/-- A call that is cut short by its callee or because it is optional. -/
theorem CutShort.of_call {args : List Element} {isOptional : Bool} {position : Grammar.Position}
    {target : Option CallTarget} (h : (Evaluator.bounded k).callTarget? σ p m = .ok target m')
    (htarget : IsShort isOptional target) :
    CutShort σ m m' (k + 1) false (.mk (.call p args isOptional) position) := by
  have hvalue : (Evaluator.bounded (k + 1)).expr σ (.mk (.call p args isOptional) position) m =
      .ok .undefined m' := by
    refine (bind_of_ok h).trans ?_
    cases target with
    | none => rfl
    | some t =>
      obtain ⟨rfl, f, this, hf, rfl⟩ := htarget t rfl
      exact congrFun (if_pos hf) m'
  exact ⟨hvalue, callTarget_of_call ⟨_, _, _, rfl⟩ hvalue⟩

/-- **A chain of which each suffix stops comes to `undefined`.** -/
theorem Stops.cutShort (h : Stops b s n isMember p) (hb : ComesToNothing σ m m' k s.isCall b) :
    CutShort σ m m' (k + n + 1) isMember p := by
  induction h with
  | first hp hs hmember =>
    subst hmember
    cases s with
    | call args isOptional =>
      cases args with
      | error _ => cases hp
      | ok args =>
        cases hp
        obtain ⟨target, htarget, hshort⟩ := hb.callee rfl
        obtain rfl : isOptional = true := hs
        exact .of_call htarget hshort
    | member key isOptional =>
      cases key with
      | error _ => cases hp
      | ok key =>
        cases hp
        obtain rfl : isOptional = true := hs
        obtain ⟨v, hv, hvalue⟩ := hb.value
        exact .of_member hv hvalue
  | member _ ih => exact .of_member rfl ih.value
  | call _ hs ih => exact .of_call ih.callee (cutTarget_isShort hs)

/-! ## Chains that go on -/

/-- An expression that never comes to a value, nor to something to call. -/
structure Fails (σ : ScopeId) (m : Machine) (p : Expr) : Prop where
  value : ∀ {j v m₁}, (Evaluator.bounded j).expr σ p m ≠ .ok v m₁
  callee : ∀ {j target m₁}, (Evaluator.bounded j).callTarget? σ p m ≠ .ok target m₁

/-- What an expression gives within a run it gives by itself. -/
theorem evalExpr_of_expr (h : (Evaluator.bounded j).expr σ p m = .ok v m₁) :
    ∃ i, (Evaluator.bounded i).evalExpr σ p m = .ok v m₁ := by
  cases j with
  | zero => cases h
  | succ i => exact ⟨i, h⟩

/-- A member of `undefined` is a fault. -/
theorem Fails.of_member {key : Key} {position : Grammar.Position}
    (h : ∀ {j v m₁}, (Evaluator.bounded j).expr σ p m = .ok v m₁ → v = .undefined) :
    Fails σ m (.mk (.member p key false) position) where
  value he := by
    obtain ⟨i, he⟩ := evalExpr_of_expr he
    obtain ⟨v, m₂, hv, he⟩ := bind_eq_ok he
    cases h hv
    obtain ⟨key, m₃, -, he⟩ := bind_eq_ok he
    cases he
  callee he := by
    obtain ⟨v, m₂, hv, he⟩ := bind_eq_ok he
    cases h hv
    obtain ⟨key, m₃, -, he⟩ := bind_eq_ok he
    cases he

/-- A call of `undefined` is a fault. -/
theorem Fails.of_call {args : List Element} {position : Grammar.Position}
    (h : ∀ {j target m₁}, (Evaluator.bounded j).callTarget? σ p m = .ok target m₁ →
      target = some (.value .undefined .undefined)) :
    Fails σ m (.mk (.call p args false) position) := by
  have hvalue {j v m₁} :
      (Evaluator.bounded j).expr σ (.mk (.call p args false) position) m ≠ .ok v m₁ := by
    intro he
    obtain ⟨i, he⟩ := evalExpr_of_expr he
    obtain ⟨target, m₂, htarget, he⟩ := bind_eq_ok he
    cases h htarget
    obtain ⟨args, m₃, -, he⟩ := bind_eq_ok he
    cases he
  refine ⟨hvalue, fun he => ?_⟩
  obtain ⟨v, m₂, hv, -⟩ := bind_eq_ok he
  exact hvalue hv

/-- A fault in the object is one of its member. -/
theorem Fails.behindMember (h : Fails σ m p) {key : Key} {isOptional : Bool}
    {position : Grammar.Position} : Fails σ m (.mk (.member p key isOptional) position) where
  value he := by
    obtain ⟨i, he⟩ := evalExpr_of_expr he
    obtain ⟨v, m₂, hv, -⟩ := bind_eq_ok he
    exact h.value hv
  callee he := by
    obtain ⟨v, m₂, hv, -⟩ := bind_eq_ok he
    exact h.value hv

/-- A fault in the callee is one of the call. -/
theorem Fails.behindCall (h : Fails σ m p) {args : List Element} {isOptional : Bool}
    {position : Grammar.Position} : Fails σ m (.mk (.call p args isOptional) position) := by
  have hvalue {j v m₁} :
      (Evaluator.bounded j).expr σ (.mk (.call p args isOptional) position) m ≠ .ok v m₁ := by
    intro he
    obtain ⟨i, he⟩ := evalExpr_of_expr he
    obtain ⟨target, m₂, htarget, -⟩ := bind_eq_ok he
    exact h.callee htarget
  refine ⟨hvalue, fun he => ?_⟩
  obtain ⟨v, m₂, hv, -⟩ := bind_eq_ok he
  exact hvalue hv

/-- **A chain that goes on fails.** -/
theorem GoesOn.fails (h : GoesOn b s e) (hb : ComesToNothing σ m m' k s.isCall b) :
    Fails σ m e := by
  induction h with
  | member h =>
    exact .of_member fun hv => (((steady_expr σ _).settled (h.cutShort hb).value).2 hv).1
  | call h =>
    exact .of_call fun ht => (((steady_callTarget σ _).settled (h.cutShort hb).callee).2 ht).1
  | behindMember _ ih => exact ih.behindMember
  | behindCall _ ih => exact ih.behindCall

/-! ## What is evaluated -/

variable {β : Type} {w : Work β} {i : Nat}

/-- A chain stops at one of its own suffixes. -/
theorem Stops.exists_taken (h : Stops b s n isMember p) :
    ∃ taken, applySuffixes b taken = .ok p := by
  have hsnoc {p e : Expr} {t : Suffix} (hp : ∃ taken, applySuffixes b taken = .ok p)
      (he : applySuffixes p [t] = .ok e) : ∃ taken, applySuffixes b taken = .ok e := by
    obtain ⟨taken, hp⟩ := hp
    refine ⟨taken ++ [t], ?_⟩
    rw [Syntax.applySuffixes_append, hp]
    exact he
  induction h with
  | first hp => exact ⟨[s], hp⟩
  | @member _ _ _ key _ ih => exact hsnoc (t := .member (.ok key) true) ih rfl
  | @call _ _ isOptional _ args _ _ ih => exact hsnoc (t := .call (.ok args) isOptional) ih rfl

/-- What is in front of a chain is in front of a longer one. -/
theorem IsFront.append {q : Expr} (h : IsFront b p q) (he : applySuffixes p more = .ok e) :
    IsFront b e q := by
  obtain ⟨taken, left, hq, hp⟩ := h
  refine ⟨taken, left ++ more, hq, ?_⟩
  rw [Syntax.applySuffixes_append, hp]
  exact he

theorem Stops.isFront (h : Stops b s n isMember p) : IsFront b p p := by
  obtain ⟨taken, hp⟩ := h.exists_taken
  exact ⟨taken, [], hp, rfl⟩

/-- A piece of work that does a chain up to one of its suffixes, or finds out what its
base calls. -/
def PartOfChain (σ : ScopeId) (b : Expr) (s : Suffix) (e : Expr) (m : Machine) (j : Nat) {β : Type}
    (w : Work β) (m₁ : Machine) : Prop :=
  (∃ q, IsFront b e q ∧ (q = b ∨ ∃ n isMember, Stops b s n isMember q) ∧
    (⟨Value, .expr σ q⟩ : Σ α, Work α) = ⟨β, w⟩ ∧ m = m₁) ∨
  Asks (fun ev => ev.callTarget? σ b) (.bounded j) m w m₁

/-- What is a part of a chain is one of a longer chain. -/
theorem PartOfChain.append (h : PartOfChain σ b s p m j w m₁)
    (he : applySuffixes p more = .ok e) : PartOfChain σ b s e m j w m₁ := by
  refine h.imp_left ?_
  rintro ⟨q, hq, hstops, hw, hm⟩
  exact ⟨q, hq.append he, hstops, hw, hm⟩

/-- An optional member of something nullish asks for that alone. -/
theorem asks_of_optional_member {key : Key} {position : Grammar.Position}
    (hp : ∀ {v m₁}, (Evaluator.bounded j).expr σ p m = .ok v m₁ → v.isNullish = true)
    (h : Asks (fun ev => ev.evalExpr σ (.mk (.member p key true) position)) (.bounded j) m w m₁ ∨
      Asks (fun ev => ev.callTarget? σ (.mk (.member p key true) position)) (.bounded j) m w m₁) :
    (⟨Value, .expr σ p⟩ : Σ α, Work α) = ⟨β, w⟩ ∧ m = m₁ := by
  rcases h with h | h
  all_goals
    rcases h.of_bind with h | ⟨v, m₂, hv, h⟩
    · exact h.of_run
    · have hcut : (true && v.isNullish) = true := hp hv
      exact absurd (h.congr fun ev => congrFun (if_pos hcut) m₂) not_asks_const

/-- A call that is cut short asks for nothing but its callee. -/
theorem asks_of_short_call {args : List Element} {isOptional : Bool} {position : Grammar.Position}
    (hp : ∀ {target m₁}, (Evaluator.bounded j).callTarget? σ p m = .ok target m₁ →
      IsShort isOptional target)
    (h : Asks (fun ev => ev.evalExpr σ (.mk (.call p args isOptional) position)) (.bounded j) m w m₁ ∨
      Asks (fun ev => ev.callTarget? σ (.mk (.call p args isOptional) position)) (.bounded j) m w
        m₁) :
    Asks (fun ev => ev.callTarget? σ p) (.bounded j) m w m₁ ∨
      (⟨Value, .expr σ (.mk (.call p args isOptional) position)⟩ : Σ α, Work α) = ⟨β, w⟩ ∧
        m = m₁ := by
  rcases h with h | h
  · rcases h.of_bind with h | ⟨target, m₂, htarget, h⟩
    · exact .inl h
    · have hconst : Asks (fun _ => (pure .undefined : Exec Value)) (.bounded j) m₂ w m₁ := by
        refine h.congr fun ev => ?_
        cases target with
        | none => rfl
        | some t =>
          obtain ⟨rfl, f, this, hf, rfl⟩ := hp htarget t rfl
          exact congrFun (if_pos hf) m₂
      exact absurd hconst not_asks_const
  · rcases h.of_bind with h | ⟨v, m₂, -, h⟩
    · exact .inr h.of_run
    · exact absurd h not_asks_const

/-- **Each part of a chain that stops asks for parts before it only.** -/
theorem Stops.asks (h : Stops b s n isMember p) (hb : ComesToNothing σ m m' k s.isCall b)
    (hw : Asks (fun ev => ev.evalExpr σ p) (.bounded j) m w m₁ ∨
      Asks (fun ev => ev.callTarget? σ p) (.bounded j) m w m₁) :
    PartOfChain σ b s p m j w m₁ := by
  induction h with
  | @first isMember p hp hs hmember =>
    have hself : IsFront b p b := ⟨[], [s], rfl, hp⟩
    have hstops : Stops b s 0 isMember p := .first hp hs hmember
    cases s with
    | call args isOptional =>
      cases args with
      | error _ => cases hp
      | ok args =>
        cases hp
        obtain rfl : isOptional = true := hs
        obtain ⟨target, htarget, hshort⟩ := hb.callee rfl
        refine (asks_of_short_call (fun ht => ?_) hw).elim .inr fun h => .inl ?_
        · exact (((steady_callTarget σ b).settled htarget).2 ht).1 ▸ hshort
        · exact ⟨_, hstops.isFront, .inr ⟨_, _, hstops⟩, h⟩
    | member key isOptional =>
      cases key with
      | error _ => cases hp
      | ok key =>
        cases hp
        obtain rfl : isOptional = true := hs
        obtain ⟨v, hv, hvalue⟩ := hb.value
        refine .inl ⟨b, hself, .inl rfl, asks_of_optional_member (fun hb => ?_) hw⟩
        exact (((steady_expr σ b).settled hvalue).2 hb).1 ▸ hv
  | @member n isMember p key h ih =>
    have hnext : applySuffixes p [.member (.ok key) true] = .ok (.mk (.member p key true) _) := rfl
    refine .inl ⟨p, h.isFront.append hnext, .inr ⟨n, isMember, h⟩,
      asks_of_optional_member (fun hp => ?_) hw⟩
    cases (((steady_expr σ p).settled (h.cutShort hb).value).2 hp).1
    rfl
  | @call n isMember isOptional p args h hs ih =>
    refine (asks_of_short_call (fun ht => ?_) hw).elim (fun h => ?_) fun hw => .inl ?_
    · cases (((steady_callTarget σ p).settled (h.cutShort hb).callee).2 ht).1
      exact cutTarget_isShort hs
    · have hnext : applySuffixes p [.call (.ok args) isOptional] =
          .ok (.mk (.call p args isOptional) _) := rfl
      exact (ih (.inr h)).append hnext
    · exact ⟨_, (h.call hs).isFront, .inr ⟨_, _, h.call hs⟩, hw⟩

/-- A piece of work is nested in itself. -/
theorem Nested.self (w : Work β) : Nested (fun ev => ev.run w) j m w j m :=
  .asked (.of_fails fun _ _ h => h)

/-- **What is evaluated in a chain that stops**: the chain up to each suffix, and what its base asks
for, as a value or as a callee. -/
theorem Stops.nested (h : Stops b s n isMember e) (hb : ComesToNothing σ m m' k s.isCall b)
    (hw : Nested (fun ev => ev.expr σ e) j m w i m₁) :
    (∃ q, IsFront b e q ∧ (⟨Value, .expr σ q⟩ : Σ α, Work α) = ⟨β, w⟩ ∧ m = m₁) ∨
      (∃ j, Nested (fun ev => ev.expr σ b) j m w i m₁) ∨
      ∃ j, Nested (fun ev => ev.callTarget? σ b) j m w i m₁ := by
  -- Of the parts it is kept in mind that they stop, too.
  suffices hpart : (∃ q, IsFront b e q ∧ (q = b ∨ ∃ n isMember, Stops b s n isMember q) ∧
      (⟨Value, .expr σ q⟩ : Σ α, Work α) = ⟨β, w⟩ ∧ m = m₁) ∨
      (∃ j, Nested (fun ev => ev.expr σ b) j m w i m₁) ∨
      ∃ j, Nested (fun ev => ev.callTarget? σ b) j m w i m₁ by
    exact hpart.imp_left fun ⟨q, hq, _, hw⟩ => ⟨q, hq, hw⟩
  induction hw with
  | asked hasks => exact .inl ⟨e, h.isFront, .inr ⟨n, isMember, h⟩, hasks.of_run⟩
  | @inside β γ w v l m₁ m₂ _ hasks ih =>
    rcases ih with ⟨q, hq, rfl | ⟨n', isMember', hstops⟩, hw, rfl⟩ | ⟨j, hb⟩ | ⟨j, hb⟩
    · cases hw
      exact .inr (.inl ⟨_, (Nested.self (.expr σ q)).inside hasks⟩)
    · cases hw
      obtain ⟨taken, left, -, hleft⟩ := hq
      rcases (hstops.asks hb (.inl hasks)).append hleft with hpart | hasks
      · exact .inl hpart
      · exact .inr (.inr ⟨l, .asked hasks⟩)
    · exact .inr (.inl ⟨j, hb.inside hasks⟩)
    · exact .inr (.inr ⟨j, hb.inside hasks⟩)

/-! ## Where a chain is cut short -/

/-- A receiver with a method of the host is there. -/
theorem within_of_hasMethod {receiver : Value} {key : String}
    (h : m.heap.hasMethod receiver key = true) : Within m.world receiver := by
  cases receiver with
  | object id =>
    refine within_object.mpr (Nat.lt_of_not_le fun hle => ?_)
    have hnone : m.heap.body? id = none := by
      rw [Heap.body?, Heap.get?, Array.getElem?_eq_none hle]
      rfl
    simp [Heap.hasMethod, Heap.isCallable, hnone] at h
  | _ => exact Set.empty_subset _

/-- What reads as nothing, and is no method that can only be called on the spot, means nothing to
call. -/
theorem callTarget_of_nullish (hv : v.isNullish = true)
    (hb : (Evaluator.bounded k).expr σ b m = .ok v m')
    (hcall : ∀ receiver key m₁, (Evaluator.bounded k).Names σ b m receiver key m₁ →
      ¬ receiver.OnlyCalled key) :
    ∃ target, (Evaluator.bounded k).callTarget? σ b m = .ok target m' ∧ IsShort true target := by
  have hshort {this : Value} : IsShort true (some (.value v this)) := by
    rintro _ ⟨⟩
    exact ⟨rfl, v, this, hv, rfl⟩
  by_cases hmember : ∃ object key isOptional, b.node = .member object key isOptional
  · obtain ⟨object, key, isOptional, hnode⟩ := hmember
    obtain ⟨node, position⟩ := b
    cases hnode
    cases k with
    | zero => cases hb
    | succ i =>
      obtain ⟨receiver, m₁, hobject, hb⟩ := bind_eq_ok hb
      have hobject := ((steady_expr σ object).settled hobject).1 i.le_succ
      by_cases hcut : (isOptional && receiver.isNullish) = true
      · cases (congrFun (if_pos hcut) m₁).symm.trans hb
        refine ⟨none, (bind_of_ok hobject).trans ?_, fun _ ht => nomatch ht⟩
        exact congrFun (if_pos hcut) m'
      · obtain ⟨name, m₂, hkey, hread⟩ := bind_eq_ok ((congrFun (if_neg hcut) m₁).symm.trans hb)
        have hkey := ((Action.key (sees_univ σ)).steady.settled hkey).1 i.le_succ
        have hother : ¬ m₂.heap.hasMethod receiver name = true := by
          intro hmethod
          have hcalled := hcall receiver name m₂ ⟨object, key, isOptional, m₁, rfl, hobject, hkey⟩
          have hgives : m₂.GivesMethod receiver name position.line :=
            getMember_of_method (within_of_hasMethod hmethod) hmethod hcalled
          cases hread.symm.trans hgives
          cases hv
        refine ⟨some (.value v receiver), ?_, hshort⟩
        refine (bind_of_ok hobject).trans ((congrFun (if_neg hcut) m₁).trans ?_)
        refine (bind_of_ok hkey).trans ((congrFun (if_neg hother) m₂).trans ?_)
        exact bind_of_ok hread
  · refine ⟨some (.value v .undefined), ?_, hshort⟩
    obtain ⟨node, position⟩ := b
    cases node with
    | member object key isOptional => exact absurd ⟨object, key, isOptional, rfl⟩ hmember
    | _ => exact bind_of_ok hb

/-- Behind an optional suffix the first of the others decides. -/
theorem Suffix.allStop_of_first (hs : s.isOptional = true) :
    Suffix.allStop false (s :: more) = Suffix.allStop (!s.isCall) more := by
  cases s with
  | call args isOptional =>
    obtain rfl : isOptional = true := hs
    rfl
  | member key isOptional =>
    obtain rfl : isOptional = true := hs
    rfl

/-- **An optional chain whose base is nullish.**  If each suffix stops by itself, the chain comes to
`undefined`, and nothing is evaluated but the chain up to each suffix and what belongs to the base.
Any other chain never comes to a value. -/
theorem optional_chain_stops_iff {suffixes : List Suffix} (hs : s.isOptional = true)
    (he : applySuffixes b (s :: suffixes) = .ok e) (hv : v.isNullish = true)
    (hb : (Evaluator.bounded k).expr σ b m = .ok v m')
    (hcall : s.isCall = true → ∀ receiver key m₁,
      (Evaluator.bounded k).Names σ b m receiver key m₁ → ¬ receiver.OnlyCalled key) :
    if Suffix.allStop false (s :: suffixes) then
      (∀ j, k + suffixes.length + 1 ≤ j → (Evaluator.bounded j).expr σ e m = .ok .undefined m') ∧
      ∀ {j i} {β : Type} {w : Work β} {m₁}, Nested (fun ev => ev.expr σ e) j m w i m₁ →
        (∃ q, IsFront b e q ∧ (⟨Value, .expr σ q⟩ : Σ α, Work α) = ⟨β, w⟩ ∧ m = m₁) ∨
        (∃ j, Nested (fun ev => ev.expr σ b) j m w i m₁) ∨
        ∃ j, Nested (fun ev => ev.callTarget? σ b) j m w i m₁
    else ∀ j v m₁, (Evaluator.bounded j).expr σ e m ≠ .ok v m₁ := by
  have hnothing : ComesToNothing σ m m' k s.isCall b :=
    ⟨⟨v, hv, hb⟩, fun hs => callTarget_of_nullish hv hb (hcall hs)⟩
  obtain ⟨p, hp, he⟩ : ∃ p, applySuffixes b [s] = .ok p ∧ applySuffixes p suffixes = .ok e := by
    have hsplit := Syntax.applySuffixes_append b [s] suffixes
    rw [List.singleton_append, he] at hsplit
    cases hp : applySuffixes b [s] with
    | error f =>
      rw [hp] at hsplit
      cases hsplit
    | ok p =>
      rw [hp] at hsplit
      exact ⟨p, rfl, hsplit.symm⟩
  have hchain := (Stops.first hp hs rfl).stops_or_goesOn he
  rw [Suffix.allStop_of_first hs]
  split
  · rename_i hall
    rw [if_pos hall, Nat.zero_add] at hchain
    obtain ⟨isMember, hstops⟩ := hchain
    refine ⟨fun j hj => ?_, fun hw => hstops.nested hnothing hw⟩
    exact ((steady_expr σ e).settled (hstops.cutShort hnothing).value).1 hj
  · rename_i hnot
    rw [if_neg hnot] at hchain
    exact fun j v m₁ => (hchain.fails hnothing).value

end

/-- The expression `null?.b`. -/
def optionalMember : Expr := .mk (.member (.mk .null ⟨1, 1⟩) (.static "b") true) ⟨1, 1⟩

/-- The expression `null?.b()`. -/
def shortCall : Expr := .mk (.call optionalMember [] false) ⟨1, 1⟩

/-- The expression `null?.b.c`. -/
def longMember : Expr := .mk (.member optionalMember (.static "c") false) ⟨1, 1⟩

/-- A call looks at the member that it calls, a member does not look at the one before it. -/
theorem optional_chain_of_null :
    (∀ j, 3 ≤ j → (Evaluator.bounded j).expr Scopes.globalId shortCall (.initial .default) =
      .ok .undefined (.initial .default)) ∧
    ∀ j v m,
      (Evaluator.bounded j).expr Scopes.globalId longMember (.initial .default) ≠ .ok v m := by
  let s : Suffix := .member (.ok (.static "b")) true
  have hnull : (Evaluator.bounded 1).expr Scopes.globalId (.mk .null ⟨1, 1⟩) (.initial .default) =
      .ok .null (.initial .default) := rfl
  have hcall : applySuffixes (.mk .null ⟨1, 1⟩) [s, .call (.ok []) false] = .ok shortCall := rfl
  have hmember : applySuffixes (.mk .null ⟨1, 1⟩) [s, .member (.ok (.static "c")) false] =
      .ok longMember := rfl
  exact ⟨(optional_chain_stops_iff rfl hcall rfl hnull nofun).1,
    optional_chain_stops_iff rfl hmember rfl hnull nofun⟩

/-- A program with a long chain. -/
def longChainUse : String := "const a = null; console.log(a?.b.c)"

/-- The same program with a second `?.`. -/
def optionalChainUse : String := "const a = null; console.log(a?.b?.c)"

/-- **An optional chain is not cut short as a whole**, but suffix by suffix. -/
theorem longChainUse_fails :
    (¬ ∀ {σ : ScopeId} {m m' : Machine} {k : Nat} {v : Value} {b e : Expr} {s : Suffix}
      {suffixes : List Suffix}, s.isOptional = true → applySuffixes b (s :: suffixes) = .ok e →
      v.isNullish = true → (Evaluator.bounded k).expr σ b m = .ok v m' →
      ∃ j, (Evaluator.bounded j).expr σ e m = .ok .undefined m') ∧
    ((run .default optionalChainUse).consoleTexts, (run .default optionalChainUse).error) =
      (["undefined"], none) ∧
    ((run .default longChainUse).consoleTexts, (run .default longChainUse).error) =
      ([], some "TypeError: Cannot read properties of undefined (reading 'c')") := by
  refine ⟨fun h => ?_, by decide +kernel, by decide +kernel⟩
  let s : Suffix := .member (.ok (.static "b")) true
  let more : Suffix := .member (.ok (.static "c")) false
  have hnull : (Evaluator.bounded 1).expr Scopes.globalId (.mk .null ⟨1, 1⟩) (.initial .default) =
      .ok .null (.initial .default) := rfl
  have hstops : Stops (.mk .null ⟨1, 1⟩) s 0 true optionalMember := .first rfl rfl rfl
  obtain ⟨j, hj⟩ := @h _ _ _ _ _ (.mk .null ⟨1, 1⟩) longMember s [more] rfl rfl rfl hnull
  exact (GoesOn.member hstops).fails ⟨⟨_, rfl, hnull⟩, nofun⟩ |>.value hj

end ScriptTrace
