import ScriptTrace.Proofs.EventLoop.Resolvers
import ScriptTrace.Proofs.Growth

/-!
# Proofs/HostMethod — two ways to a method of the host

`receiver.key(…)` calls a method of the host if `Heap.hasMethod` says so; `receiver.key` alone is a
method of the host if `getMember` makes one.  The two tables agree on every receiver and key but
for `call`, `apply` and `bind` of a host object, which can be called only on the spot
(`method_spellings`).
-/

namespace ScriptTrace

open Exec

/-- A method that `receiver.key(…)` calls and that `receiver.key` alone does not give. -/
def Value.OnlyCalled (receiver : Value) (key : String) : Prop :=
  ∃ o, receiver = .host o ∧ key ∈ functionMethods

/-- **A property is a fresh method of the host**, bound to its receiver and its name. -/
def Machine.GivesMethod (m : Machine) (receiver : Value) (key : String) (line : Nat) : Prop :=
  getMember receiver key line m =
    .ok (.object m.heap.size) (m.making (.method receiver key))

namespace Exec

/-- What `receiver.key(…)` calls. -/
def memberTarget (receiver : Value) (key : String) (line : Nat) : Exec CallTarget := do
  if (← heap).hasMethod receiver key then return .method receiver key
  return .value (← getMember receiver key line) receiver

end Exec

/-- **A member expression names a property**: its parts come to a receiver and a key. -/
def Evaluator.Names (ev : Evaluator) (scope : ScopeId) (e : Syntax.Expr) (m : Machine)
    (receiver : Value) (key : String) (m' : Machine) : Prop :=
  ∃ object k isOptional m₁, e.node = .member object k isOptional ∧
    ev.expr scope object m = .ok receiver m₁ ∧ ev.key scope k m₁ = .ok key m'

/-- The call of a target. -/
def CallTarget.call (ev : Evaluator) (args : List Value) (line : Nat) : CallTarget → Exec Value
  | .method receiver name => ev.callMethod receiver name args line
  | .value f this => ev.applyValue f this args line

section

variable {m m₁ : Machine} {receiver v : Value} {key : String} {line : Nat} {id : ObjectId}

/-- A member expression is read, as a callee and as a value, where its parts are known. -/
theorem Evaluator.Names.read {ev : Evaluator} {scope : ScopeId} {e : Syntax.Expr}
    (h : ev.Names scope e m receiver key m₁) (hnullish : receiver.isNullish = false) :
    ev.callTarget? scope e m = (some <$> memberTarget receiver key e.line) m₁ ∧
      ev.evalExpr scope e m = getMember receiver key e.line m₁ := by
  obtain ⟨object, k, isOptional, m₂, hnode, hobject, hkey⟩ := h
  obtain ⟨node, position⟩ := e
  cases hnode
  have hshort : ¬ (isOptional && receiver.isNullish) = true := by simp [hnullish]
  refine ⟨(bind_of_ok hobject).trans ?_, (bind_of_ok hobject).trans ?_⟩
  · refine (congrFun (if_neg hshort) _).trans ((bind_of_ok hkey).trans (congrFun ?_ m₁))
    simp only [memberTarget, map_eq_pure_bind, bind_assoc]
    refine bind_congr fun h => ?_
    split
    · rfl
    · simp only [bind_assoc, pure_bind]
  · exact (congrFun (if_neg hshort) _).trans (bind_of_ok hkey)

/-! ## Names of methods are no other properties -/

theorem indexOf?_stringMethods : ∀ k ∈ stringMethods, Number.indexOf? k = none := by decide

theorem indexOf?_arrayMethods : ∀ k ∈ arrayMethods, Number.indexOf? k = none := by decide

theorem methodOf_eq (m : Machine) (receiver : Value) (key : String) :
    methodOf receiver key m = .ok (.object m.heap.size) (m.making (.method receiver key)) := rfl

/-- A method of strings is given for its name. -/
theorem stringMember_of_method {s : String} (h : stringMethods.contains key = true) :
    stringMember s key = methodOf (.string s) key := by
  have hmem : key ∈ stringMethods := by simpa using h
  have hlength : key ≠ "length" := fun hk => absurd (hk ▸ hmem) (by decide)
  simp only [stringMember, if_neg hlength, indexOf?_stringMethods key hmem, if_pos h]

/-- What is no method of strings is a property of the string. -/
theorem stringMember_of_other {s : String} (h : stringMethods.contains key = false) :
    ∃ v, stringMember s key = pure v := by
  unfold stringMember
  split
  · exact ⟨_, rfl⟩
  · split
    · exact ⟨_, rfl⟩
    · exact ⟨.undefined, if_neg (by rw [h]; exact Bool.false_ne_true)⟩

/-- No method of functions is called `name` or `length`. -/
theorem functionMethods_ne (h : functionMethods.contains key = true) :
    key ≠ "name" ∧ key ≠ "length" := by
  have hmem : key ∈ functionMethods := by simpa using h
  exact ⟨fun hk => absurd (hk ▸ hmem) (by decide), fun hk => absurd (hk ▸ hmem) (by decide)⟩

/-- There is a property if there is a value under its key. -/
theorem Props.contains_eq_isSome (props : Props) :
    props.contains key = (props.get? key).isSome := by
  rw [get?, Option.isSome_map, List.isSome_find?]
  rfl

theorem body?_eq_ok {body : Body} (h : m.heap.body? id = some body) :
    body? id m = .ok (some body) m := by
  rw [← h]
  rfl

theorem Heap.body?_of_lt {h : Heap} (hid : id < h.size) : ∃ body, h.body? id = some body :=
  ⟨_, congrArg (Option.map HeapObject.body) (Array.getElem?_eq_getElem hid)⟩

/-- A method that an object has is given for its name. -/
theorem objectMember_of_method (hid : id < m.heap.size)
    (h : m.heap.hasMethod (.object id) key = true) :
    objectMember id key m = methodOf (.object id) key m := by
  obtain ⟨body, hbody⟩ := Heap.body?_of_lt hid
  refine (bind_of_ok (body?_eq_ok hbody)).trans ?_
  simp only [Heap.hasMethod, Heap.isCallable, hbody] at h
  cases body with
  | plain props =>
    simp only [Props.contains_eq_isSome, Bool.and_eq_true, Bool.not_eq_true',
      Option.isSome_eq_false_iff, Option.isNone_iff_eq_none] at h
    simp only [h.1, if_pos h.2]
  | array items =>
    have hmem : key ∈ arrayMethods := by simpa using h
    have hlength : key ≠ "length" := fun hk => absurd (hk ▸ hmem) (by decide)
    simp only [if_neg hlength, indexOf?_arrayMethods key hmem, if_pos h]
  | promise record => simp only [if_pos h]
  | closure | bound | method | resolver =>
    simp only [Bool.and_eq_true] at h
    obtain ⟨hname, hlength⟩ := functionMethods_ne h.2
    simp only [if_neg hname, if_neg hlength, if_pos h.2]

/-- What is no method is a property, or nothing. -/
theorem objectMember_of_other (hid : id < m.heap.size)
    (h : m.heap.hasMethod (.object id) key = false) :
    ∃ v, objectMember id key m = .ok v m := by
  obtain ⟨body, hbody⟩ := Heap.body?_of_lt hid
  simp only [objectMember, bind_of_ok (body?_eq_ok hbody)]
  simp only [Heap.hasMethod, Heap.isCallable, hbody, Option.any_some] at h
  cases body with
  | plain props =>
    cases hget : props.get? key with
    | some v => simp only [hget]; exact ⟨v, rfl⟩
    | none =>
      simp only [Props.contains_eq_isSome, hget, Option.isSome_none, Bool.not_false,
        Bool.true_and] at h
      simp only [hget, h]
      exact ⟨_, rfl⟩
  | array items =>
    simp only [h]
    split
    · exact ⟨_, rfl⟩
    · cases Number.indexOf? key <;> exact ⟨_, rfl⟩
  | promise record => simp only [h]; exact ⟨_, rfl⟩
  | closure c =>
    simp only [show functionMethods.contains key = false from h]
    split
    · exact ⟨_, rfl⟩
    · split <;> exact ⟨_, rfl⟩
  | bound | method | resolver =>
    simp only [show functionMethods.contains key = false from h]
    split <;> exact ⟨_, rfl⟩

/-! ## All receivers -/

/-- A method that a value has is given for its name, unless it can only be called. -/
theorem getMember_of_method (hreceiver : Within m.world receiver)
    (h : m.heap.hasMethod receiver key = true) (hcalled : ¬ receiver.OnlyCalled key) :
    m.GivesMethod receiver key line := by
  refine Eq.trans ?_ (methodOf_eq m receiver key)
  cases receiver with
  | undefined | null | bool | globalThis => cases h
  | number x => exact congrFun (if_pos h) m
  | string s => exact congrFun (stringMember_of_method h) m
  | function f =>
    exact congrFun ((if_neg (functionMethods_ne h).1).trans (if_pos h)) m
  | host o => exact absurd ⟨o, rfl, by simpa [Heap.hasMethod] using h⟩ hcalled
  | object id => exact objectMember_of_method (within_object.mp hreceiver) h

/-- What is no method is read without a fault. -/
theorem getMember_of_other (hnullish : receiver.isNullish = false)
    (hreceiver : Within m.world receiver) (h : m.heap.hasMethod receiver key = false) :
    ∃ v, getMember receiver key line m = .ok v m := by
  cases receiver with
  | undefined | null => cases hnullish
  | bool | globalThis | host => exact ⟨_, rfl⟩
  | number x =>
    refine ⟨.undefined, ?_⟩
    simp only [getMember, show numberMethods.contains key = false from h]
    rfl
  | string s =>
    obtain ⟨v, hv⟩ := stringMember_of_other (s := s) h
    exact ⟨v, congrFun hv m⟩
  | function f =>
    simp only [getMember, show functionMethods.contains key = false from h]
    split <;> exact ⟨_, rfl⟩
  | object id => exact objectMember_of_other (within_object.mp hreceiver) h

/-- A machine with another object is another machine. -/
theorem Machine.GivesMethod.hasMethod (h : m.GivesMethod receiver key line)
    (hnullish : receiver.isNullish = false) (hreceiver : Within m.world receiver) :
    m.heap.hasMethod receiver key = true := by
  by_contra hother
  obtain ⟨v, hread⟩ : ∃ v, getMember receiver key line m = .ok v m :=
    getMember_of_other hnullish hreceiver (Bool.eq_false_iff.mpr hother)
  have hm : m = m.making (.method receiver key) := by
    injection hread.symm.trans h
  have hsize : m.heap.size = m.heap.size + 1 :=
    (congrArg (·.heap.size) hm).trans (m.size_making _)
  omega

/-- What can only be called on the spot is undefined when it is read. -/
theorem getMember_of_onlyCalled (h : receiver.OnlyCalled key) :
    getMember receiver key line m = .ok .undefined m := by
  obtain ⟨o, rfl, hmem⟩ := h
  have hkey : key = "call" ∨ key = "apply" ∨ key = "bind" := by
    simpa [functionMethods] using hmem
  have hundefined : o.member key = .undefined := by
    obtain rfl | rfl | rfl := hkey <;> cases o <;> rfl
  exact congrArg (EStateM.Result.ok · m) hundefined

theorem memberTarget_of_method (h : m.heap.hasMethod receiver key = true) :
    memberTarget receiver key line m = .ok (.method receiver key) m :=
  congrFun (if_pos h) m

/-- What is no method is called with its object as the receiver. -/
theorem memberTarget_of_other (h : m.heap.hasMethod receiver key = false)
    (hread : getMember receiver key line m = .ok v m) :
    memberTarget receiver key line m = .ok (.value v receiver) m := by
  refine (congrFun (if_neg (by rw [h]; nofun)) m).trans ?_
  exact bind_of_ok hread

/-! ## The two ways -/

/-- What can be called never changes. -/
theorem Body.GivesWay.eq_of_isCallable {b b' : Body} (h : b.GivesWay b')
    (hcallable : b.isCallable = true) : b' = b := by
  cases h with
  | plain | array | promise => cases hcallable
  | function => rfl

/-- Objects that can be called stay as they are. -/
theorem Machine.Grows.body? (h : m.Grows m₁) {body : Body} (hbody : m.heap.body? id = some body)
    (hcallable : body.isCallable = true) : m₁.heap.body? id = some body := by
  obtain ⟨o, hget, rfl⟩ := Option.map_eq_some_iff.mp hbody
  obtain ⟨o', hget', hlater⟩ := h.objects.getElem?_later (Array.getElem?_toList.trans hget)
  rw [← hlater.body.eq_of_isCallable hcallable]
  exact congrArg (Option.map HeapObject.body) (Array.getElem?_toList.symm.trans hget')

/-- A method that was taken from its receiver is called like one on the spot, at any later time. -/
theorem Evaluator.applyValue_making (ev : Evaluator) {this : Value} {args : List Value}
    (h : (m.making (.method receiver key)).Grows m₁) :
    ev.applyValue (.object m.heap.size) this args line m₁ =
      ev.callMethod receiver key args line m₁ := by
  have hbody : (m.making (.method receiver key)).heap.body? m.heap.size =
      some (.method receiver key) := (m.body?_making _ _).trans (if_pos rfl)
  exact bind_of_ok (body?_eq_ok (h.body? hbody rfl))

/-- Only functions of the program know their `this`. -/
theorem Evaluator.applyValue_this (ev : Evaluator) {this this' : Value} {args : List Value}
    (h : ∀ id c, v = .object id → m.heap.body? id ≠ some (.closure c)) :
    ev.applyValue v this args line m = ev.applyValue v this' args line m := by
  cases v with
  | object id =>
    have hread : body? id m = .ok (m.heap.body? id) m := rfl
    refine (bind_of_ok hread).trans (Eq.trans ?_ (bind_of_ok hread).symm)
    cases hbody : m.heap.body? id with
    | none => rfl
    | some body =>
      cases body with
      | closure c => exact absurd hbody (h id c rfl)
      | _ => rfl
  | _ => rfl

end

/-- **The two ways to a property that is called agree.**  What `receiver.key(…)` calls, and what
`receiver.key` gives to be called at any later time, do the same, unless it is a function of the
program, which has its receiver as `this` only on the spot. -/
def Machine.SpellingsAgree (m : Machine) (receiver : Value) (key : String) (line : Nat) : Prop :=
  ∃ target v m₁, memberTarget receiver key line m = .ok target m ∧
    getMember receiver key line m = .ok v m₁ ∧
    ∀ m', m₁.Grows m' → (∀ id c, v = .object id → m'.heap.body? id ≠ some (.closure c)) →
      ∀ (ev : Evaluator) (this : Value) (args : List Value) (line : Nat),
        target.call ev args line m' = ev.applyValue v this args line m'

/-- **A method of the host is the same on the spot and as a value.**  Of a receiver that has
properties, `receiver.key(…)` calls a method of the host exactly if `receiver.key` makes one; the
only exceptions are `call`, `apply` and `bind` of a host object, which `receiver.key` does not know.
But for these, calling a property on the spot and calling it later come to the same. -/
theorem method_spellings {m : Machine} {receiver : Value} (key : String) (line : Nat)
    (hnullish : receiver.isNullish = false) (hreceiver : Within m.world receiver) :
    (∀ {ev : Evaluator} {scope e m₀}, ev.Names scope e m₀ receiver key m →
      ev.callTarget? scope e m₀ = (some <$> memberTarget receiver key e.line) m ∧
      ev.evalExpr scope e m₀ = getMember receiver key e.line m) ∧
    (m.heap.hasMethod receiver key = true ↔
      m.GivesMethod receiver key line ∨ receiver.OnlyCalled key) ∧
    (receiver.OnlyCalled key → memberTarget receiver key line m = .ok (.method receiver key) m ∧
      getMember receiver key line m = .ok .undefined m) ∧
    (¬ receiver.OnlyCalled key → m.SpellingsAgree receiver key line) := by
  refine ⟨fun h => h.read hnullish, ⟨fun h => ?_, ?_⟩, fun h => ?_, fun hcalled => ?_⟩
  · by_cases hcalled : receiver.OnlyCalled key
    · exact .inr hcalled
    · exact .inl (getMember_of_method hreceiver h hcalled)
  · rintro (hgives | ⟨o, rfl, hmem⟩)
    · exact hgives.hasMethod hnullish hreceiver
    · simpa [Heap.hasMethod] using hmem
  · obtain ⟨o, rfl, hmem⟩ := id h
    exact ⟨memberTarget_of_method (by simpa [Heap.hasMethod] using hmem), getMember_of_onlyCalled h⟩
  · cases h : m.heap.hasMethod receiver key with
    | true =>
      exact ⟨_, _, _, memberTarget_of_method h, getMember_of_method hreceiver h hcalled,
        fun m' hm' _ ev _ _ _ => (ev.applyValue_making hm').symm⟩
    | false =>
      obtain ⟨v, hread⟩ : ∃ v, getMember receiver key line m = .ok v m :=
        getMember_of_other hnullish hreceiver h
      exact ⟨_, _, _, memberTarget_of_other h hread, hread,
        fun m' _ hv ev _ _ _ => ev.applyValue_this hv⟩

/-- A method of an array, the only object of a machine. -/
theorem method_spellings_push :
    let m := (Machine.initial .default).making (.array #[])
    m.heap.hasMethod (.object 0) "push" = true ∧ m.GivesMethod (.object 0) "push" 1 ∧
      m.SpellingsAgree (.object 0) "push" 1 := by
  intro m
  have hcalled : ¬ (Value.object 0).OnlyCalled "push" := fun ⟨_, h, _⟩ => nomatch h
  have hreceiver : Within m.world (Value.object 0) :=
    within_object.mpr (Nat.zero_lt_one : 0 < m.heap.size)
  obtain ⟨-, hiff, -, hagree⟩ := method_spellings "push" 1 rfl hreceiver
  have hmethod : m.heap.hasMethod (.object 0) "push" = true := by decide
  exact ⟨hmethod, (hiff.mp hmethod).resolve_right hcalled, hagree hcalled⟩

/-- A program that takes a method from a constructor and calls it later. -/
def detachedUse : String := "const c = String.call; console.log(c(null, 5))"

/-- The same call on the spot. -/
def attachedUse : String := "console.log(String.call(null, 5))"

/-- A constructor has methods on the spot that it has not as values. -/
theorem detachedUse_fails :
    (¬ ∀ {m : Machine} {receiver : Value} (key : String) (line : Nat),
      receiver.isNullish = false → Within m.world receiver →
      (m.heap.hasMethod receiver key = true ↔ m.GivesMethod receiver key line)) ∧
    ((run .default attachedUse).consoleTexts, (run .default attachedUse).error) = (["5"], none) ∧
    ((run .default detachedUse).consoleTexts, (run .default detachedUse).error) =
      ([], some "TypeError: c is not a function") := by
  refine ⟨fun h => ?_, by decide +kernel, by decide +kernel⟩
  have hgives : (Machine.initial .default).GivesMethod (.host .string) "call" 1 :=
    (h "call" 1 rfl within_host).mp rfl
  cases hgives

end ScriptTrace
