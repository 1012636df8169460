import Mathlib.Data.String.Basic
import ScriptTrace.Proofs.Closed
import ScriptTrace.Proofs.Growth
import ScriptTrace.Proofs.HostMethod
import ScriptTrace.Proofs.Sorting.Stable

/-!
# Proofs/Sorting/Comparator — sorting arrays

A sort that returns has put the elements that its array had at the call in another order, with
`undefined` behind all others, whatever its comparator answered and did meanwhile.  It is stable by
the texts of the elements, or by any preorder that the answers of the comparator agree with
(`sort_arranges`).
-/

namespace ScriptTrace

open Exec

/-! ## Runs of comparisons -/

/-- Comparisons one behind the other, from one machine to another. -/
inductive Chained : Machine → List Comparison → Machine → Prop
  | nil {m : Machine} : Chained m [] m
  | cons {c : Comparison} {cs : List Comparison} {m' : Machine} (h : Chained c.stop cs m') :
    Chained c.start (c :: cs) m'

namespace Chained

variable {m m₁ m' : Machine} {cs cs' : List Comparison}

/-- Comparisons one behind the other are chained. -/
theorem append (h : Chained m cs m₁) (h' : Chained m₁ cs' m') : Chained m (cs ++ cs') m' := by
  induction h with
  | nil => exact h'
  | cons _ ih => exact .cons (ih h')

/-- Comparisons that leave the machine as it is can be left out. -/
theorem filter {p : Comparison → Bool} (h : Chained m cs m')
    (hp : ∀ c ∈ cs, p c = false → c.stop = c.start) : Chained m (cs.filter p) m' := by
  induction h with
  | nil => exact .nil
  | @cons c cs m' _ ih =>
    have hrest := ih fun c hc => hp c (List.mem_cons_of_mem _ hc)
    rw [List.filter_cons]
    split
    · exact .cons hrest
    · rename_i hc
      exact hp c List.mem_cons_self (Bool.eq_false_iff.mpr hc) ▸ hrest

/-- Comparisons that all leave the machine as it is. -/
theorem still (h : Chained m cs m') (hcs : ∀ c ∈ cs, c.stop = c.start) :
    m' = m ∧ ∀ c ∈ cs, c.start = m := by
  induction h with
  | nil => exact ⟨rfl, fun _ hc => absurd hc List.not_mem_nil⟩
  | @cons c cs m' _ ih =>
    obtain ⟨hm', hrest⟩ := ih fun c hc => hcs c (List.mem_cons_of_mem _ hc)
    rw [hcs c List.mem_cons_self] at hm' hrest
    exact ⟨hm', List.forall_mem_cons.mpr ⟨rfl, hrest⟩⟩

end Chained

/-- **An action compares elements**, one pair after the other, and asks for nothing else. -/
structure Compares {α : Type} (comparator : Option Value) (line : Nat) (ev : Evaluator)
    (x : Evaluator → Exec α) (m : Machine) (cs : List Comparison) (m' : Machine) : Prop where
  chained : Chained m cs m'
  made : ∀ c ∈ cs, ev.order comparator line c.left c.right c.start = .ok c.ordering c.stop
  asked : ∀ {β : Type} {w : Work β} {m₁ : Machine}, Asks x ev m w m₁ → ∃ c ∈ cs,
    Asks (fun ev => ev.order comparator line c.left c.right) ev c.start w m₁

namespace Compares

variable {α β : Type} {comparator : Option Value} {line : Nat} {ev : Evaluator}
  {m m₁ m' : Machine} {cs cs' : List Comparison}

theorem const {x : Exec α} : Compares comparator line ev (fun _ => x) m [] m where
  chained := .nil
  made _ hc := absurd hc List.not_mem_nil
  asked h := absurd h not_asks_const

/-- A comparison is a single one. -/
theorem order {a b : Value} {o : Ordering} (h : ev.order comparator line a b m = .ok o m') :
    Compares comparator line ev (fun ev => ev.order comparator line a b) m [⟨a, b, o, m, m'⟩]
      m' where
  chained := .cons (c := ⟨a, b, o, m, m'⟩) .nil
  made c hc := by
    obtain rfl := List.mem_singleton.mp hc
    exact h
  asked h := ⟨_, List.mem_singleton_self _, h⟩

/-- The comparisons of one action behind another are those of both. -/
theorem bind {x : Evaluator → Exec α} {k : α → Evaluator → Exec β} {a : α}
    (hxa : x ev m = .ok a m₁) (hx : Compares comparator line ev x m cs m₁)
    (hk : Compares comparator line ev (k a) m₁ cs' m') :
    Compares comparator line ev (fun ev => x ev >>= fun a => k a ev) m (cs ++ cs') m' where
  chained := hx.chained.append hk.chained
  made c hc := (List.mem_append.mp hc).elim (hx.made c) (hk.made c)
  asked h := by
    obtain h | ⟨a', m₂, hxa', h⟩ := h.of_bind
    · obtain ⟨c, hc, h⟩ := hx.asked h
      exact ⟨c, List.mem_append_left _ hc, h⟩
    · cases hxa.symm.trans hxa'
      obtain ⟨c, hc, h⟩ := hk.asked h
      exact ⟨c, List.mem_append_right _ hc, h⟩

end Compares

/-! ## The sort as it is written -/

section

variable {ev : Evaluator} {comparator : Option Value} {line : Nat} {m m' : Machine}

/-- A value that is put in its place was compared with those that it passed. -/
theorem insertSorted_compares {v : Value} {before after : List Value}
    (h : ev.insertSorted comparator line v before m = .ok after m') :
    ∃ cs, Inserts v before cs after ∧
      Compares comparator line ev (fun ev => ev.insertSorted comparator line v before) m cs m' := by
  induction before generalizing m after with
  | nil =>
    cases h
    exact ⟨[], .first, .const⟩
  | cons last before ih =>
    obtain ⟨o, m₁, ho, h⟩ := Exec.bind_eq_ok h
    by_cases hgt : o = .gt
    · rw [if_pos hgt] at h
      obtain ⟨rest, m₂, hrest, h⟩ := Exec.bind_eq_ok h
      cases h
      obtain ⟨cs, hins, hcs⟩ := ih hrest
      refine ⟨_, .passes (c := ⟨last, v, o, m, m₁⟩) rfl rfl hgt hins, ?_⟩
      refine .bind ho (.order ho) ?_
      simp only [if_pos hgt]
      rw [← List.append_nil cs]
      exact .bind hrest hcs .const
    · rw [if_neg hgt] at h
      cases h
      refine ⟨_, .stays (c := ⟨last, v, o, m, m'⟩) rfl rfl hgt, ?_⟩
      refine .bind ho (.order ho) ?_
      simp only [if_neg hgt]
      exact .const

/-- **What is sorted has been arranged by the comparisons that were made.** -/
theorem sortFrom_compares {before vs out : List Value}
    (h : ev.sortFrom comparator line before vs m = .ok out m') :
    ∃ cs, Arranges before vs cs out ∧
      Compares comparator line ev (fun ev => ev.sortFrom comparator line before vs) m cs m' := by
  induction vs generalizing m before with
  | nil =>
    cases h
    exact ⟨[], .done, .const⟩
  | cons v vs ih =>
    obtain ⟨after, m₁, hafter, h⟩ := Exec.bind_eq_ok h
    obtain ⟨cs, hins, hcs⟩ := insertSorted_compares hafter
    obtain ⟨cs', harr, hcs'⟩ := ih h
    exact ⟨cs ++ cs', .next hins harr, .bind hafter hcs hcs'⟩

end

/-! ## What one comparison does -/

/-- The order that the answer of a comparator stands for. -/
def Machine.orderOf (m : Machine) (answer : Value) : Ordering :=
  let x := m.heap.number m.limits.maxLength answer
  if x < 0 then .lt else if x > 0 then .gt else .eq

/-- Whether the text of one value comes no later than that of another by code points.  The text of
an array that is longer than the ceiling, for which `String(v)` throws, is cut short here. -/
def Machine.textLE (m : Machine) (a b : Value) : Bool :=
  decide (m.heap.text m.limits.maxLength a ≤ m.heap.text m.limits.maxLength b)

/-- **A call of a comparator** with two elements, neither of them `undefined`, and what its answer
says of them. -/
def Comparison.IsCall (ev : Evaluator) (f : Value) (line : Nat) (c : Comparison) : Prop :=
  c.left.isUndefined = false ∧ c.right.isUndefined = false ∧
    ∃ answer, ev.apply f .undefined [c.left, c.right] line c.start = .ok answer c.stop ∧
      c.ordering = c.stop.orderOf answer

section

variable {ev : Evaluator} {f : Value} {comparator : Option Value} {line : Nat} {m m' : Machine}
  {a b : Value} {o : Ordering} {c : Comparison} {le : Value → Value → Bool}

/-- **No comparator sees `undefined`**: it comes last by itself. -/
theorem order_of_undefined (h : a.isUndefined = true ∨ b.isUndefined = true) :
    ∃ o : Ordering, (∀ ev : Evaluator, ev.order comparator line a b = pure o) ∧
      (o = .gt ↔ a.isUndefined = true ∧ b.isUndefined = false) := by
  unfold Evaluator.order
  cases ha : a.isUndefined <;> cases hb : b.isUndefined
  · simp [ha, hb] at h
  all_goals exact ⟨_, fun _ => rfl, by decide⟩

/-- Without a comparator texts are compared. -/
theorem order_none (ha : a.isUndefined = false) (hb : b.isUndefined = false) :
    ∃ o, ev.order none line a b m = .ok o m ∧ (o = .gt ↔ m.textLE a b = false) := by
  unfold Evaluator.order
  rw [ha, hb]
  refine ⟨_, rfl, ?_⟩
  rw [Machine.textLE, decide_eq_false_iff_not, not_le]
  generalize m.heap.text m.limits.maxLength a = s
  generalize m.heap.text m.limits.maxLength b = t
  obtain h | rfl | h := lt_trichotomy s t
  · simp [h, h.not_gt]
  · simp
  · simp [h, h.not_gt, h.ne']

/-- With a comparator its answer decides. -/
theorem order_some (ha : a.isUndefined = false) (hb : b.isUndefined = false)
    (h : ev.order (some f) line a b m = .ok o m') :
    ∃ answer, ev.apply f .undefined [a, b] line m = .ok answer m' ∧ o = m'.orderOf answer := by
  unfold Evaluator.order at h
  rw [ha, hb] at h
  obtain ⟨answer, m₁, hanswer, h⟩ := Exec.bind_eq_ok h
  cases h
  exact ⟨answer, hanswer, rfl⟩

/-- A comparison that a sort makes puts `undefined` last, and leaves the machine as it is if it
does so. -/
theorem Comparison.of_undefined (hc : c.isDefined = false)
    (h : ev.order comparator line c.left c.right c.start = .ok c.ordering c.stop) :
    c.stop = c.start ∧ (c.ordering = .gt ↔ c.left.isUndefined = true ∧ c.right.isUndefined = false) ∧
      ∀ {β : Type} {w : Work β} {m₁ : Machine},
        ¬ Asks (fun ev => ev.order comparator line c.left c.right) ev c.start w m₁ := by
  have hund : c.left.isUndefined = true ∨ c.right.isUndefined = true := by
    rw [isDefined, Bool.and_eq_false_iff] at hc
    exact hc.imp (fun h => by simpa using h) fun h => by simpa using h
  obtain ⟨o, ho, hgt⟩ := @order_of_undefined comparator line c.left c.right hund
  rw [ho] at h
  have hdone : EStateM.Result.ok o c.start = .ok c.ordering c.stop := h
  obtain ⟨rfl, hstop⟩ := EStateM.Result.ok.inj hdone
  refine ⟨hstop.symm, hgt, fun hasks => ?_⟩
  simp only [ho] at hasks
  exact not_asks_const hasks

end

/-! ## Sorting an array -/

/-- **The calls of a sort**: they follow one another, at most one for each pair of elements, and are
all the work that the sort asks for. -/
structure SortCalls {α : Type} (ev : Evaluator) (f : Value) (line count : Nat)
    (x : Evaluator → Exec α) (m : Machine) (calls : List Comparison) (m' : Machine) : Prop where
  chained : Chained m calls m'
  isCall : ∀ c ∈ calls, c.IsCall ev f line
  length_le : calls.length ≤ count * (count - 1) / 2
  asked : ∀ {β : Type} {w : Work β} {m₁ : Machine}, Asks x ev m w m₁ → ∃ c ∈ calls,
    (⟨Value, .apply f .undefined [c.left, c.right] line⟩ : Σ α, Work α) = ⟨β, w⟩ ∧ c.start = m₁

section

variable {ev : Evaluator} {f : Value} {line : Nat} {m m' : Machine} {l out : List Value}

/-- A comparison asks for one call of the comparator. -/
theorem order_asks {a b : Value} {β : Type} {w : Work β} {m₁ : Machine}
    (h : Asks (fun ev => ev.order (some f) line a b) ev m w m₁) (ha : a.isUndefined = false)
    (hb : b.isUndefined = false) :
    (⟨Value, .apply f .undefined [a, b] line⟩ : Σ α, Work α) = ⟨β, w⟩ ∧ m = m₁ := by
  have hx (ev : Evaluator) : ev.order (some f) line a b = ev.apply f .undefined [a, b] line >>=
      fun answer => number answer >>= fun x =>
        pure (if x < 0 then .lt else if x > 0 then .gt else .eq) := by
    unfold Evaluator.order
    rw [ha, hb]
  simp only [hx] at h
  obtain h | ⟨answer, m₂, -, h⟩ := h.of_bind
  · exact h.of_run
  · exact absurd h not_asks_const

/-- **A sort by a comparator.** -/
theorem sortFrom_calls (h : ev.sortFrom (some f) line [] l m = .ok out m') :
    IsArrangement l out ∧ ∃ calls,
      SortCalls ev f line l.length (fun ev => ev.sortFrom (some f) line [] l) m calls m' ∧
      ∀ le, IsPreorderOn le (definedOnes l) →
        (∀ c ∈ calls, c.ordering = .gt ↔ le c.left c.right = false) →
        IsStableSort le (definedOnes l) (definedOnes out) := by
  obtain ⟨cs, harr, hcs⟩ := sortFrom_compares h
  have hlast (c : Comparison) (hc : c ∈ cs) : c.PutsUndefinedLast := fun hdef =>
    (c.of_undefined hdef (hcs.made c hc)).2.1
  refine ⟨harr.isArrangement hlast, cs.filter Comparison.isDefined, ⟨?_, ?_, ?_, ?_⟩, ?_⟩
  · exact hcs.chained.filter fun c hc hdef => (c.of_undefined hdef (hcs.made c hc)).1
  · intro c hc
    obtain ⟨hc, hdef⟩ := List.mem_filter.mp hc
    obtain ⟨hl, hr⟩ := Comparison.isDefined_iff.mp hdef
    exact ⟨hl, hr, order_some hl hr (hcs.made c hc)⟩
  · have hlength := harr.length_le
    have hfilter := List.length_filter_le Comparison.isDefined cs
    rw [List.length_nil, Nat.zero_mul, Nat.mul_zero, Nat.zero_add] at hlength
    rw [Nat.le_div_iff_mul_le Nat.zero_lt_two]
    omega
  · intro β w m₁ hasks
    obtain ⟨c, hc, hasks⟩ := hcs.asked hasks
    cases hdef : c.isDefined with
    | true =>
      obtain ⟨hl, hr⟩ := Comparison.isDefined_iff.mp hdef
      exact ⟨c, List.mem_filter.mpr ⟨hc, hdef⟩, order_asks hasks hl hr⟩
    | false => exact absurd hasks (c.of_undefined hdef (hcs.made c hc)).2.2
  · intro le hle hagree
    exact harr.isStableSort hlast hle fun c hc hdef => hagree c (List.mem_filter.mpr ⟨hc, hdef⟩)

/-- Texts can be put in order. -/
theorem textLE_preorder (m : Machine) (l : List Value) : IsPreorderOn m.textLE l where
  total a _ b _ := by
    rw [Machine.textLE, Machine.textLE, decide_eq_true_iff, decide_eq_true_iff]
    exact le_total _ _
  trans a _ b _ c _ := by
    rw [Machine.textLE, Machine.textLE, Machine.textLE, decide_eq_true_iff, decide_eq_true_iff,
      decide_eq_true_iff]
    exact le_trans

/-- **A sort without comparator** goes by the texts of the elements and only reads. -/
theorem sortFrom_texts (h : ev.sortFrom none line [] l m = .ok out m') :
    IsArrangement l out ∧ m' = m ∧
      IsStableSort m.textLE (definedOnes l) (definedOnes out) := by
  obtain ⟨cs, harr, hcs⟩ := sortFrom_compares h
  have hlast (c : Comparison) (hc : c ∈ cs) : c.PutsUndefinedLast := fun hdef =>
    (c.of_undefined hdef (hcs.made c hc)).2.1
  have hstill (c : Comparison) (hc : c ∈ cs) : c.stop = c.start ∧
      (c.isDefined = true → (c.ordering = .gt ↔ c.start.textLE c.left c.right = false)) := by
    cases hdef : c.isDefined with
    | true =>
      obtain ⟨hl, hr⟩ := Comparison.isDefined_iff.mp hdef
      obtain ⟨o, ho, hgt⟩ := @order_none ev line c.start c.left c.right hl hr
      obtain ⟨hordering, hstop⟩ := EStateM.Result.ok.inj (ho.symm.trans (hcs.made c hc))
      exact ⟨hstop.symm, fun _ => hordering ▸ hgt⟩
    | false => exact ⟨(c.of_undefined hdef (hcs.made c hc)).1,
        fun h => absurd h Bool.false_ne_true⟩
  obtain ⟨hm', hstart⟩ := hcs.chained.still fun c hc => (hstill c hc).1
  refine ⟨harr.isArrangement hlast, hm', ?_⟩
  exact harr.isStableSort hlast (textLE_preorder m _) fun c hc hdef =>
    hstart c hc ▸ (hstill c hc).2 hdef

end

section

variable {ev : Evaluator} {id : ObjectId} {items out : Array Value} {args : List Value}
  {comparator : Value} {line : Nat} {m m' : Machine}

/-- What a sort of an array consists of. -/
theorem callMethod_sort (hid : m.heap.body? id = some (.array items)) (ev : Evaluator) :
    ev.callMethod (.object id) "sort" args line m =
      (ev.sorted items (argument args 0) line >>= fun out =>
        replaceItems id "sort" out line >>= fun _ => pure (.object id)) m := by
  refine (Exec.bind_of_ok (x := body? id) (a := m.heap.body? id) rfl).trans ?_
  rw [hid]
  refine (Exec.bind_of_ok (x := Exec.heap) rfl).trans ?_
  rw [Heap.items?, hid]
  rfl

/-- With a function values are sorted by its answers. -/
theorem sorted_of_callable (h : m.heap.isCallable comparator = true) (ev : Evaluator) :
    ev.sorted items comparator line m =
      (ev.sortFrom (some comparator) line [] items.toList >>= fun out => pure out.toArray) m := by
  refine (Exec.bind_of_ok (x := isCallable comparator) rfl).trans ?_
  rw [h, if_pos rfl]

/-- Without a function values are sorted by their texts. -/
theorem sorted_of_undefined (h : comparator.isUndefined = true) (ev : Evaluator) :
    ev.sorted items comparator line m =
      (ev.sortFrom none line [] items.toList >>= fun out => pure out.toArray) m := by
  obtain rfl := eq_undefined h
  rfl

/-- Nothing but a function or `undefined` is a comparator. -/
theorem sorted_of_other (h : m.heap.isCallable comparator = false)
    (h' : comparator.isUndefined = false) (ev : Evaluator) :
    ev.sorted items comparator line m = .error (.misuse .comparator line) m := by
  refine (Exec.bind_of_ok (x := isCallable comparator) rfl).trans ?_
  rw [h, h']
  rfl

/-- **Elements that were replaced**; an object that is not there has none. -/
theorem replaceItems_ok {method : String} {u : Unit}
    (h : replaceItems id method out line m = .ok u m') :
    m.heap.get? id = none ∧ m' = m ∨ (∃ items, m.heap.body? id = some (.array items)) ∧
      m' = { m with heap := m.heap.modify id (·.changed (.items out)) } := by
  obtain ⟨h₁, m₁, hread, h⟩ := Exec.bind_eq_ok h
  cases hread
  cases hget : m.heap.get? id with
  | none =>
    rw [hget] at h
    cases h
    exact .inl ⟨rfl, rfl⟩
  | some o =>
    rw [hget] at h
    cases hfrozen : o.frozen with
    | true =>
      simp only [hfrozen, if_true] at h
      cases h
    | false =>
      cases hbody : o.body with
      | array items =>
        simp only [hfrozen, hbody] at h
        cases h
        exact .inr ⟨⟨items, by rw [Heap.body?, hget, Option.map_some, hbody]⟩, rfl⟩
      | _ =>
        simp only [hfrozen, hbody] at h
        cases h

end

/-- **A sort arranges the elements** that the array had at the call, whatever happens meanwhile.
Without comparator it is stable by the texts of the elements.  With one it makes few calls, none
with `undefined`, and is stable by every preorder that their answers agree with. -/
theorem sort_arranges {fuel line : Nat} {id : ObjectId} {items : Array Value} {args : List Value}
    {m m' : Machine} {v : Value} (hid : m.heap.body? id = some (.array items))
    (h : (Evaluator.bounded fuel).callMethod (.object id) "sort" args line m = .ok v m') :
    v = .object id ∧ ∃ out : Array Value, m'.heap.body? id = some (.array out) ∧
      IsArrangement items.toList out.toList ∧
      ((argument args 0).isUndefined = true ∧
          IsStableSort m.textLE (definedOnes items.toList) (definedOnes out.toList) ∧
          m' = { m with heap := m.heap.modify id (·.changed (.items out)) } ∨
        m.heap.isCallable (argument args 0) = true ∧ ∃ calls m₁,
          SortCalls (.bounded fuel) (argument args 0) line items.size
            (fun ev => ev.callMethod (.object id) "sort" args line) m calls m₁ ∧
          m' = { m₁ with heap := m₁.heap.modify id (·.changed (.items out)) } ∧
          ∀ le, IsPreorderOn le (definedOnes items.toList) →
            (∀ c ∈ calls, c.ordering = .gt ↔ le c.left c.right = false) →
            IsStableSort le (definedOnes items.toList) (definedOnes out.toList)) := by
  have hgrows := (Evaluation.callMethod (.object id) "sort" args line).grows fuel m
  rw [Exec.after_of_ok h] at hgrows
  rw [callMethod_sort hid] at h
  obtain ⟨out, m₁, hsorted, h⟩ := Exec.bind_eq_ok h
  obtain ⟨u, m₂, hreplace, h⟩ := Exec.bind_eq_ok h
  cases h
  -- The array is still there, since no object is ever removed.
  obtain ⟨⟨items', hbody⟩, rfl⟩ : (∃ items, m₁.heap.body? id = some (.array items)) ∧
      m' = { m₁ with heap := m₁.heap.modify id (·.changed (.items out)) } := by
    obtain ⟨hnone, rfl⟩ | hchanged := replaceItems_ok hreplace
    · obtain ⟨o, ho, -⟩ := Option.map_eq_some_iff.mp hid
      obtain ⟨o', ho', -⟩ := hgrows.objects.getElem?_later (Array.getElem?_toList.trans ho)
      cases hnone.symm.trans (Array.getElem?_toList.symm.trans ho')
    · exact hchanged
  refine ⟨rfl, out, ?_, ?_⟩
  · obtain ⟨o, ho, hbody⟩ := Option.map_eq_some_iff.mp hbody
    have hchanged : (o.changed (.items out)).body = .array out := by
      unfold HeapObject.changed
      rw [hbody]
    rw [Heap.body?_modify, if_pos rfl, ho, Option.map_some, hchanged]
  cases hcallable : m.heap.isCallable (argument args 0) with
  | true =>
    rw [sorted_of_callable hcallable] at hsorted
    obtain ⟨l, m₃, hl, hsorted⟩ := Exec.bind_eq_ok hsorted
    cases hsorted
    obtain ⟨harr, calls, hcalls, hstable⟩ := sortFrom_calls hl
    refine ⟨harr, .inr ⟨rfl, calls, m₁, ⟨hcalls.chained, hcalls.isCall, hcalls.length_le, ?_⟩, rfl,
      hstable⟩⟩
    intro β w m₄ hasks
    obtain hasks | ⟨_, _, -, hasks⟩ := (hasks.congr (callMethod_sort hid)).of_bind
    · obtain hasks | ⟨_, _, -, hasks⟩ := (hasks.congr (sorted_of_callable hcallable)).of_bind
      · exact hcalls.asked hasks
      · exact absurd hasks not_asks_const
    · exact absurd hasks not_asks_const
  | false =>
    cases hund : (argument args 0).isUndefined with
    | true =>
      rw [sorted_of_undefined hund] at hsorted
      obtain ⟨l, m₃, hl, hsorted⟩ := Exec.bind_eq_ok hsorted
      cases hsorted
      obtain ⟨harr, rfl, hstable⟩ := sortFrom_texts hl
      exact ⟨harr, .inl ⟨rfl, hstable, rfl⟩⟩
    | false =>
      rw [sorted_of_other hcallable hund] at hsorted
      cases hsorted

/-- An array of two numbers and `undefined`. -/
def sortUse : Machine :=
  { Machine.initial .default with
    heap := Heap.empty.add (.array #[.number 1, .undefined, .number 2]) none }

/-- By `Math.max` every number belongs behind every other one, and still nothing is lost. -/
theorem sortUse_max : ∃ v m',
    (Evaluator.bounded 2).callMethod (.object 0) "sort" [.function (.math .max)] 1 sortUse =
      .ok v m' ∧
    m'.heap.body? 0 = some (.array #[.number 2, .number 1, .undefined]) ∧
    ∃ out : Array Value, m'.heap.body? 0 = some (.array out) ∧
      IsArrangement [.number 1, .undefined, .number 2] out.toList := by
  refine ⟨_, _, rfl, rfl, ?_⟩
  obtain ⟨-, out, hout, harr, -⟩ := @sort_arranges 2 1 0 #[.number 1, .undefined, .number 2]
    [.function (.math .max)] sortUse _ _ rfl rfl
  exact ⟨out, hout, harr⟩

end ScriptTrace
