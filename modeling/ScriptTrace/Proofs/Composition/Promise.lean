import ScriptTrace.Proofs.Composition.Member

/-!
# Proofs/Composition/Promise — promises, timers and printing

Settling a promise and registering a reaction are elementary; what a program does with promises is
put together from these.
-/

namespace ScriptTrace

namespace Plain

variable {l : Layer} {W : World}

theorem recordHere {line : Nat} {kind : StepKind} {description : String}
    (h : kind.isAside = true) : Plain l W (Exec.recordHere line kind description) Any :=
  .elementary (.recordHere h)

/-! ## Settling -/

theorem promise? {id : ObjectId} : Plain l W (Exec.promise? id) (Within W) := by
  refine .bind body? fun b hb => ?_
  split
  · exact .pure hb
  · exact .pure within_none

theorem addReaction {id : ObjectId} {r : Reaction} (hid : .object id ∈ W) (hr : Within W r) :
    Plain l W (Exec.addReaction id r) Any := .elementary (.addReaction hid hr)

theorem settle {id : ObjectId} {outcome : PromiseState} {line : Nat} (hid : .object id ∈ W)
    (ho : Within W outcome) (hp : outcome.isPending = false) :
    Plain l W (Exec.settleFlat id outcome line) Any := .elementary (.settle hid ho hp)

theorem rejectPromise {id : ObjectId} {reason : Value} {line : Nat} (hid : .object id ∈ W)
    (hr : Within W reason) : Plain l W (Exec.rejectPromise id reason line) Any :=
  settle hid (within_rejected.mpr hr) rfl

/-- **Resolving a promise** settles it or lets it wait for another one. -/
theorem resolvePromise {id : ObjectId} {v : Value} {line : Nat}
    (hid : .object id ∈ W ∧ .promise id ∈ W) (hv : Within W v) :
    Plain l W (Exec.resolvePromise id v line) Any := by
  rw [Exec.resolvePromise_eq_flat]
  refine withHeap fun h _ => ?_
  split
  · rename_i other ho
    have hother : v = .object other := by
      cases v <;> simp_all [Value.objectId?, Option.filter_eq_some_iff]
    subst hother
    refine .bind (P := Any) ?_ fun _ _ => recordHere rfl
    refine .map (addReaction (within_object.mp hv) ?_) fun _ _ => trivial
    exact within_reaction.mpr ⟨within_none, within_none, hid⟩
  · exact settle hid.1 (within_fulfilled.mpr hv) rfl

/-- The outcome of a reaction settles the promise that was derived for it. -/
theorem passOn {derived : ObjectId} {outcome : PromiseState} {line : Nat}
    (hid : .object derived ∈ W ∧ .promise derived ∈ W) (ho : Within W outcome) :
    Plain l W (Exec.passOn derived outcome line) Any := by
  cases outcome with
  | pending => exact .pure trivial
  | fulfilled v => exact resolvePromise hid ho
  | rejected v => exact rejectPromise hid.1 ho

/-- A resolver settles its own promise. -/
theorem callResolver {id : ObjectId} {rejects : Bool} {v : Value} {line : Nat}
    (hid : .object id ∈ W ∧ .promise id ∈ W) (hv : Within W v) :
    Plain l W (Exec.callResolver id rejects v line) (Within W) := by
  refine .bind promise? fun record _ => ?_
  refine .ite (fun _ => ?_) fun _ => .pure within_undefined
  refine .ite (fun _ => ?_) fun _ => ?_
  · exact .bind (rejectPromise hid.1 hv) fun _ _ => .pure within_undefined
  · exact .bind (resolvePromise hid hv) fun _ _ => .pure within_undefined

end Plain

namespace Action

variable {l : Layer} {W : World}

theorem makePromise : Action l W (fun _ => Exec.makePromise) fun W' id =>
    .object id ∈ W' ∧ .promise id ∈ W' :=
  have hfresh := within_promiseBody.mpr (within_record.mpr ⟨within_pending, within_nil⟩)
  .weaken (.allocate hfresh rfl nofun) fun _ _ _ hid => ⟨hid.1, hid.2 ⟨_, rfl⟩⟩

/-- `Promise.resolve` gives a promise back as it is. -/
theorem promiseResolve {v : Value} {line : Nat} (hv : Within W v) :
    Action l W (fun _ => Exec.promiseResolve v line) Within := by
  rw [Exec.promiseResolve_eq_flat]
  refine .seq (.elementary .heap) fun h _ => .ite (fun _ => .pure hv) fun _ => ?_
  refine .bind makePromise fun W₁ h₁ id hid => ?_
  exact .seq (.settle hid.1 (within_fulfilled.mpr (hv.mono h₁)) rfl) fun _ _ =>
    .pure (within_object.mpr hid.1)

theorem promiseReject {reason : Value} {line : Nat} (hr : Within W reason) :
    Action l W (fun _ => Exec.promiseReject reason line) Within := by
  refine .bind makePromise fun W₁ h₁ id hid => ?_
  exact .seq (.settle hid.1 (within_rejected.mpr (hr.mono h₁)) rfl) fun _ _ =>
    .pure (within_object.mpr hid.1)

/-- A reaction waits with the promise, or goes to the queue at once. -/
theorem register {id : ObjectId} {method : String} {args : List Value} {line : Nat}
    (hid : .object id ∈ W) (ha : Within W args) :
    Action l W (fun _ => Exec.register id method args line) Within := by
  refine .seq (.elementary .heap) fun h _ => ?_
  have hcallable (n : Nat) : Within W (args[n]?.filter h.isCallable) :=
    within_option.mpr fun v hv =>
      ha.of_mem (List.mem_of_getElem? (Option.filter_eq_some_iff.mp hv).1)
  dsimp only
  split
  · exact .never (.misuse rfl)
  · rename_i kind onFulfilled onRejected hparts
    have hparts : Within W onFulfilled ∧ Within W onRejected := by
      split at hparts
      all_goals cases hparts
      · exact ⟨hcallable 0, hcallable 1⟩
      · exact ⟨within_none, hcallable 0⟩
      · exact ⟨hcallable 0, hcallable 0⟩
    refine .bind makePromise fun W₁ h₁ derived hd => ?_
    refine .seq (.addReaction (h₁ hid) ?_) fun _ _ => .seq (.recordHere rfl) fun _ _ =>
      .pure (within_object.mpr hd.1)
    exact within_reaction.mpr ⟨hparts.1.mono h₁, hparts.2.mono h₁, hd⟩

/-! ## Executors and reactions -/

theorem apply {f this : Value} {args : List Value} {line : Nat} (hf : Within W f)
    (ht : Within W this) (ha : Within W args) :
    Action l W (fun ev => ev.apply f this args line) Within := .eval ⟨hf, ht, ha⟩

/-- The executor is called with the two resolvers of the new promise. -/
theorem newPromise {executor : Value} {line : Nat} (hx : Within W executor) :
    Action l W (fun ev => ev.newPromise executor line) Within := by
  refine .seq .isCallable fun c _ => .ite (fun _ => ?_) fun _ => ?_
  · exact .seq (.inspect) fun _ _ => .never (.misuse rfl)
  refine .bind makePromise fun W₁ h₁ id hid => ?_
  refine .seq (.recordHere rfl) fun _ _ => ?_
  refine .bind (make (within_resolverBody.mpr hid) rfl nofun) fun W₂ h₂ resolve hresolve => ?_
  have hid₂ := And.intro (h₂ hid.1) (h₂ hid.2)
  refine .bind (make (within_resolverBody.mpr hid₂) rfl nofun) fun W₃ h₃ reject hreject => ?_
  have hargs : Within W₃ [resolve, reject] := by simp [hresolve.mono h₃, hreject]
  have hx₃ : Within W₃ executor := hx.mono (h₁.trans (h₂.trans h₃))
  refine .bind (.catchThrown (apply hx₃ within_undefined hargs)) fun W₄ h₄ outcome ho => ?_
  have hid₄ := (h₃.trans h₄) hid₂.1
  cases outcome with
  | ok _ => exact .pure (within_object.mpr hid₄)
  | error t =>
    exact .seq (.rejectPromise hid₄ ho) fun _ _ => .pure (within_object.mpr hid₄)

theorem within_handlerOf {r : Reaction} {outcome : PromiseState} (hr : Within W r) :
    Within W (Evaluator.handlerOf r outcome) := by
  obtain ⟨hf, hj, -⟩ := within_reaction.mp hr
  unfold Evaluator.handlerOf
  split
  all_goals first | exact within_none | exact hf | exact hj

theorem within_handlerArguments {r : Reaction} {outcome : PromiseState} (ho : Within W outcome) :
    Within W (Evaluator.handlerArguments r outcome) := by
  unfold Evaluator.handlerArguments
  split
  all_goals first | exact within_nil | exact within_cons.mpr ⟨ho, within_nil⟩

/-- A reaction hands the outcome to its function, and the result to the derived promise. -/
theorem react {r : Reaction} {outcome : PromiseState} (hr : Within W r) (ho : Within W outcome) :
    Action l W (fun ev => ev.react r outcome) Free := by
  have hd := (within_reaction.mp hr).2.2
  unfold Evaluator.react
  split
  · exact .done (.passOn hd ho)
  · rename_i handler hhandler
    have hh : Within W handler := within_some.mp (hhandler ▸ within_handlerOf hr)
    refine .bind (.catchThrown (apply hh within_undefined (within_handlerArguments ho)))
      fun W₁ h₁ result hresult => ?_
    have hd₁ := And.intro (h₁ hd.1) (h₁ hd.2)
    cases result with
    | ok v =>
      refine .ite (fun _ => .done (.passOn hd₁ (ho.mono h₁))) fun _ => ?_
      exact .done (.resolvePromise hd₁ hresult)
    | error t => exact .done (.rejectPromise hd₁.1 hresult)

end Action

end ScriptTrace
