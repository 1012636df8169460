import ScriptTrace.Proofs.Closed
import ScriptTrace.Proofs.Scope.Watch

/-!
# Proofs/Scope/Assignment — an assignment reaches the scopes that see the binding, and no others

The search for a name goes outward from scope to scope and ends at the next binding or behind the
global scope (`Scopes.Resolves`).  An assignment writes to what the search finds, so the name has
the new value in all scopes from which that binding is not shadowed (`Scopes.Unshadowed`), and
nothing else means anything new (`assign_exact`).
-/

namespace ScriptTrace

namespace Scopes

/-- **The search for a name** outward from a scope ends at the next scope that binds it, or behind
the outermost one. -/
inductive Resolves (scopes : Scopes) (x : String) : ScopeId → Option ScopeId → Prop
  | here {id : ScopeId} {s : Scope} (hs : scopes[id]? = some s) (hx : (s.find? x).isSome = true) :
    Resolves scopes x id (some id)
  | outward {id p : ScopeId} {s : Scope} {r : Option ScopeId} (hs : scopes[id]? = some s)
    (hx : s.find? x = none) (hp : s.parent = some p) (h : Resolves scopes x p r) :
    Resolves scopes x id r
  | unbound {id : ScopeId} {s : Scope} (hs : scopes[id]? = some s) (hx : s.find? x = none)
    (hp : s.parent = none) : Resolves scopes x id none

/-- The way outward from a scope passes another one, and no scope before that binds the name. -/
def Unshadowed (scopes : Scopes) (x : String) (id owner : ScopeId) : Prop :=
  ∃ inner outer, scopes.chain id = inner ++ owner :: outer ∧
    ∀ s ∈ inner, scopes.bindingIn? x s = none

variable {scopes : Scopes} {x y : String} {id owner : ScopeId} {r : Option ScopeId} {b : Binding}

/-! ## The search ends -/

namespace IsTree

/-- The binder of a name is the scope itself or that of its parent. -/
theorem binder?_eq (h : scopes.IsTree) {s : Scope} (hs : scopes[id]? = some s) :
    scopes.binder? id x =
      if (s.find? x).isSome then some id else s.parent.bind (scopes.binder? · x) := by
  have hself : scopes.bindingIn? x id = s.find? x := by rw [bindingIn?, hs, Option.bind_some]
  rw [binder?, h.chain_eq hs, List.find?_cons, hself]
  cases (s.find? x).isSome with
  | true => rfl
  | false =>
    cases s.parent with
    | none => rfl
    | some p => rfl

/-- **The search from a scope ends**, with what `binder?` finds. -/
theorem resolves_iff (h : scopes.IsTree) (hid : id < scopes.size) :
    scopes.Resolves x id r ↔ scopes.binder? id x = r := by
  constructor
  · intro hr
    induction hr with
    | here hs hx => rw [h.binder?_eq hs, if_pos hx]
    | outward hs hx hp _ ih =>
      rw [h.binder?_eq hs, hx, hp]
      exact ih (h.parent_lt hs hp).2
    | unbound hs hx hp =>
      rw [h.binder?_eq hs, hx, hp]
      rfl
  · rintro rfl
    induction id using Nat.strongRecOn with
    | ind id ih =>
      obtain ⟨s, hs⟩ := exists_of_lt hid
      rw [h.binder?_eq hs]
      cases hx : s.find? x with
      | some b => exact .here hs (by rw [hx]; rfl)
      | none =>
        cases hp : s.parent with
        | none => exact .unbound hs hx hp
        | some p =>
          obtain ⟨hlt, hsize⟩ := h.parent_lt hs hp
          exact .outward hs hx hp (ih p hlt hsize)

/-- What a name resolves to is not shadowed, and binds it. -/
theorem resolves_some_iff (h : scopes.IsTree) (hid : id < scopes.size) :
    scopes.Resolves x id (some owner) ↔
      scopes.Unshadowed x id owner ∧ (scopes.bindingIn? x owner).isSome = true := by
  rw [h.resolves_iff hid, binder?, List.find?_eq_some_iff_append]
  simp [Unshadowed, and_comm]

/-- A global name is shadowed from a scope if a scope around it, other than the global one, binds
the name. -/
theorem unshadowed_global_iff (h : scopes.IsTree) (hid : id < scopes.size) :
    scopes.Unshadowed x id globalId ↔
      ∀ s ∈ scopes.chain id, s ≠ globalId → scopes.bindingIn? x s = none := by
  obtain ⟨⟨inner, hinner⟩, hsorted, -⟩ := h.chain_outward hid
  constructor
  · rintro ⟨inner', outer, hchain, hnone⟩ s hs hne
    rw [hchain] at hs hsorted
    rcases List.mem_append.mp hs with hs | hs
    · exact hnone s hs
    · have hs := (List.mem_cons.mp hs).resolve_left hne
      have hlt := List.rel_of_pairwise_cons (List.pairwise_append.mp hsorted).2.1 hs
      exact absurd hlt (Nat.not_lt_zero s)
  · intro hnone
    refine ⟨inner, [], hinner, fun s hs => hnone s ?_ ?_⟩
    · rw [hinner]
      exact List.mem_append_left _ hs
    · rw [hinner] at hsorted
      exact ((List.pairwise_append.mp hsorted).2.2 s hs _ List.mem_cons_self).ne'

end IsTree

/-! ## What names mean after a binding is put -/

/-- A binding that is put in changes no chain. -/
theorem chain_put : chain (scopes.modify owner (·.put x b)) id = scopes.chain id := by
  have hwithin : ∀ (n : Nat) (id : ScopeId),
      chainWithin (scopes.modify owner (·.put x b)) n id = scopes.chainWithin n id := by
    intro n
    induction n with
    | zero => exact fun _ => rfl
    | succ n ih =>
      intro id
      simp only [chainWithin, Array.getElem?_modify, ih]
      cases scopes[id]? with
      | none => simp
      | some s =>
        by_cases hid : owner = id
        · rw [if_pos hid]
          rfl
        · rw [if_neg hid]
  exact hwithin _ id

/-- A search that only finds nothing before an element finds what is there. -/
theorem findSome?_of_none_before {α β : Type} {f : α → Option β} {a : α} {v : β} {inner : List α}
    (outer : List α) (hinner : ∀ c ∈ inner, c ≠ a → f c = none) (ha : f a = some v) :
    (inner ++ a :: outer).findSome? f = some v := by
  induction inner with
  | nil => simp [ha]
  | cons c inner ih =>
    have hrest := ih fun d hd => hinner d (List.mem_cons_of_mem _ hd)
    by_cases hca : c = a
    · simp [hca, ha]
    · simpa [hinner c List.mem_cons_self hca] using hrest

/-- A search does not see an element that always stands behind what it finds. -/
theorem findSome?_congr_of_some_before {α β : Type} {f g : α → Option β} {a : α} {l : List α}
    (hfg : ∀ c, c ≠ a → f c = g c)
    (hl : ∀ inner outer, l = inner ++ a :: outer → ∃ c ∈ inner, g c ≠ none) :
    l.findSome? f = l.findSome? g := by
  induction l with
  | nil => rfl
  | cons c l ih =>
    have hca : c ≠ a := by
      rintro rfl
      obtain ⟨d, hd, -⟩ := hl [] l rfl
      exact absurd hd List.not_mem_nil
    rw [List.findSome?_cons, List.findSome?_cons, hfg c hca]
    cases hc : g c with
    | some v => rfl
    | none =>
      refine ih fun inner outer hsplit => ?_
      obtain ⟨d, hd, hsome⟩ := hl (c :: inner) outer (by rw [hsplit, List.cons_append])
      rcases List.mem_cons.mp hd with rfl | hd
      · exact absurd hc hsome
      · exact ⟨d, hd, hsome⟩

/-- **Where the scope is seen**, the name has the binding that is put. -/
theorem lookup?_put_of_unshadowed (howner : owner < scopes.size)
    (h : scopes.Unshadowed x id owner) :
    lookup? (scopes.modify owner (·.put x b)) id x = some b := by
  obtain ⟨inner, outer, hchain, hnone⟩ := h
  rw [lookup?, chain_put, hchain]
  refine findSome?_of_none_before outer (fun s hs hne => ?_) (bindingIn?_put_self howner)
  rw [bindingIn?_put fun heq => absurd heq.symm hne, hnone s hs]

/-- **Everywhere else**, and for other names, nothing changes. -/
theorem lookup?_put_of_shadowed (h : y = x → ¬ scopes.Unshadowed x id owner) :
    lookup? (scopes.modify owner (·.put x b)) id y = scopes.lookup? id y := by
  rw [lookup?, chain_put]
  by_cases hy : y = x
  · subst hy
    refine findSome?_congr_of_some_before (a := owner)
      (fun s hs => bindingIn?_put fun heq => absurd heq.symm hs) fun inner outer hchain => ?_
    by_contra hnone
    push Not at hnone
    exact h rfl ⟨inner, outer, hchain, hnone⟩
  · exact congrArg (List.findSome? · _) (funext fun s => bindingIn?_put fun _ => Ne.symm hy)

end Scopes

/-! ## What an assignment does -/

/-- **What an assignment changes**: a name gets a binding in all scopes from which that is seen
(`seen`), its value is labeled if it is data without label, and all else is kept. -/
structure Machine.Assigned (m m' : Machine) (x : String) (b : Binding) (seen : ScopeId → Prop) :
    Prop where
  written : ∀ id, id < m.scopes.size → seen id → m'.scopes.lookup? id x = some b
  kept : ∀ id y, id < m.scopes.size → (y = x → ¬ seen id) →
    m'.scopes.lookup? id y = m.scopes.lookup? id y
  labeled : ∀ id o, b.value = .object id → m.heap.get? id = some o → o.label = none →
    o.body.isData = true → m'.heap.get? id = some { o with label := some x }
  objects : ∀ id, (∀ o, b.value = .object id → m.heap.get? id = some o → o.label = none →
    o.body.isData = false) → m'.heap.get? id = m.heap.get? id
  size_eq : m'.scopes.size = m.scopes.size
  rest : m' = { m with scopes := m'.scopes, heap := m'.heap }

namespace Heap

variable {h : Heap} {v : Value} {x : String} {id : ObjectId} {o : HeapObject}

/-- An object without a label takes the name that it is bound to. -/
theorem get?_label_of_data (hv : v = .object id) (ho : h.get? id = some o) (hl : o.label = none)
    (hd : o.body.isData = true) : (h.label v x).get? id = some { o with label := some x } := by
  subst hv
  rw [get?] at ho
  simp [label, modify, get?, Array.getElem?_modify, ho, labeled, hl, hd]

/-- Without a label to set the heap stays. -/
theorem get?_label_of_not (hn : ∀ o, v = .object id → h.get? id = some o → o.label = none →
    o.body.isData = false) : (h.label v x).get? id = h.get? id := by
  unfold label
  split
  · rename_i id'
    rw [get?, get?, modify, Array.getElem?_modify]
    split
    · rename_i hid
      subst hid
      cases ho : h.objects[id']? with
      | none => rfl
      | some o =>
        have hkept : labeled x o = o := by
          have hdata := hn o rfl ho
          unfold labeled
          cases hl : o.label with
          | none => simp [hdata hl]
          | some l => rfl
        rw [Option.map_some, hkept]
    · rfl
  · rfl

end Heap

/-- What follows from where a binding is put. -/
theorem Machine.Assigned.of_put {m : Machine} {owner : ScopeId} {x : String} {b : Binding}
    {seen : ScopeId → Prop} (howner : owner < m.scopes.size)
    (hseen : ∀ id, id < m.scopes.size → (seen id ↔ m.scopes.Unshadowed x id owner)) :
    ∃ m', Exec.putIn owner x b m = .ok () m' ∧ m.Assigned m' x b seen := by
  refine ⟨_, rfl, ?_, ?_, ?_, ?_, ?_, rfl⟩
  · exact fun id hid h => Scopes.lookup?_put_of_unshadowed howner ((hseen id hid).mp h)
  · exact fun id y hid h =>
      Scopes.lookup?_put_of_shadowed fun hy hshadow => h hy ((hseen id hid).mpr hshadow)
  · exact fun id o => Heap.get?_label_of_data
  · exact fun id => Heap.get?_label_of_not
  · exact Array.size_modify

/-- **Assignment along the way outward is exact.**  In every machine of a run the search for a name
from any scope ends.  A constant is not written to, and then nothing changes.  Any other binding is:
its new value is seen from where the name resolves to it.  A name that is not bound becomes a global
variable, which is seen from where no scope below the global one binds the name. -/
theorem assign_exact {limits : Limits} {m : Machine} (hm : Reachable limits m) {id : ScopeId}
    (hid : id < m.scopes.size) (x : String) (v : Value) (line : Nat) :
    (∃ r, m.scopes.Resolves x id r) ∧
    (∀ owner, m.scopes.Resolves x id (some owner) →
      ∃ b, m.scopes.bindingIn? x owner = some b ∧
        (b.kind = .const →
          Exec.assign id x v line m = .error (.misuse .assignmentToConstant line) m) ∧
        (b.kind ≠ .const → ∃ m', Exec.assign id x v line m = .ok () m' ∧
          m.Assigned m' x ⟨v, b.kind⟩ fun id' => m.scopes.Resolves x id' (some owner))) ∧
    (m.scopes.Resolves x id none → ∃ m', Exec.assign id x v line m = .ok () m' ∧
      m.Assigned m' x ⟨v, .var⟩ fun id' =>
        ∀ s ∈ m.scopes.chain id', s ≠ Scopes.globalId → m.scopes.bindingIn? x s = none) := by
  have ht := hm.closed.tree
  refine ⟨⟨_, (ht.resolves_iff hid).mpr rfl⟩, fun owner hr => ?_, fun hr => ?_⟩
  · rw [ht.resolves_iff hid] at hr
    rcases Exec.assign_cases id x v line m with ⟨hnone, -⟩ | ⟨owner', b, howner, hb, hassign⟩
    · cases hnone.symm.trans hr
    · cases howner.symm.trans hr
      refine ⟨b, hb, fun hk => ?_, fun hk => ?_⟩
      · rw [hassign, if_pos hk]
        rfl
      · have hlt : owner < m.scopes.size := by
          obtain ⟨s, hs, -⟩ := Option.bind_eq_some_iff.mp hb
          exact (Array.getElem?_eq_some_iff.mp hs).1
        rw [hassign, if_neg hk]
        refine Machine.Assigned.of_put hlt fun id' hid' => ?_
        rw [ht.resolves_some_iff hid', hb]
        exact and_iff_left rfl
  · rw [ht.resolves_iff hid] at hr
    rcases Exec.assign_cases id x v line m with ⟨-, hassign⟩ | ⟨owner, b, howner, -⟩
    · rw [hassign]
      exact Machine.Assigned.of_put ht.nonempty fun id' hid' => (ht.unshadowed_global_iff hid').symm
    · cases howner.symm.trans hr

/-- The program `let a; { const a = null; }`. -/
def shadowingConstant : Syntax.Program :=
  [.mk (.declare .lexical [.mk (.name "a") none]) ⟨1, 1⟩ "let a;",
    .mk (.block [.mk (.declare .const [.mk (.name "a") (some (.mk .null ⟨1, 20⟩))]) ⟨1, 10⟩
      "const a = null;"]) ⟨1, 8⟩ "{ const a = null; }"]

/-- A constant that shadows a variable: each scope assigns its own binding. -/
theorem assign_shadowingConstant :
    let m := finalMachine .default 8 shadowingConstant
    Exec.assign 1 "a" .null 1 m = .error (.misuse .assignmentToConstant 1) m ∧
      (∃ m', Exec.assign 0 "a" .null 1 m = .ok () m' ∧
        m'.scopes.lookup? 0 "a" = some ⟨.null, .lexical⟩ ∧
        m'.scopes.lookup? 1 "a" = m.scopes.lookup? 1 "a") ∧
      ∃ m', Exec.assign 1 "b" .null 1 m = .ok () m' ∧
        m'.scopes.lookup? 0 "b" = some ⟨.null, .var⟩ := by
  intro m
  have hm : Reachable .default m := reachable_finalMachine _ _ _
  have ht := hm.closed.tree
  have hglobal : 0 < m.scopes.size := ht.nonempty
  have hblock : 1 < m.scopes.size := Nat.lt_of_lt_of_eq Nat.one_lt_two (rfl : 2 = m.scopes.size)
  refine ⟨?_, ?_, ?_⟩
  · obtain ⟨b, hb, hconst, -⟩ := (assign_exact hm hblock "a" .null 1).2.1 1
      ((ht.resolves_iff hblock).mpr rfl)
    cases hb
    exact hconst rfl
  · obtain ⟨b, hb, -, hwrite⟩ := (assign_exact hm hglobal "a" .null 1).2.1 0
      ((ht.resolves_iff hglobal).mpr rfl)
    cases hb
    obtain ⟨m', hassign, hdone⟩ := hwrite nofun
    refine ⟨m', hassign, ?_, ?_⟩
    · exact hdone.written 0 hglobal ((ht.resolves_iff hglobal).mpr rfl)
    · refine hdone.kept 1 "a" hblock fun _ hseen => ?_
      cases (ht.resolves_iff hblock).mp hseen
  · obtain ⟨m', hassign, hdone⟩ := (assign_exact hm hblock "b" .null 1).2.2
      ((ht.resolves_iff hblock).mpr rfl)
    refine ⟨m', hassign, hdone.written 0 hglobal fun s hs hne => absurd ?_ hne⟩
    exact List.mem_singleton.mp hs

end ScriptTrace
