import ScriptTrace.Proofs.Numbers
import ScriptTrace.Proofs.StepLimit

/-!
# Proofs/Ceiling — how long texts get

Operations that make texts compare lengths with the ceiling before they put text together, each in
its own way.  What they compare is never more than the ceiling; what they leave out is what the
result may be longer:

* a template, and a replacement, leave out the text behind the last value,
* a text that nothing is added to is not looked at again,
* padding counts characters, where the ceiling counts bytes.

Sums, repetitions, joined arrays, conversions and documents leave out nothing.
-/

namespace ScriptTrace

open Syntax (Expr)

/-- **Operations that make a text.** -/
inductive TextOperation where
  | sum (left right : Value)
  | template (scope : ScopeId) (pieces : List String) (values : List Expr)
  | concat (s : String) (args : List Value)
  | repeat (s : String) (args : List Value)
  | pad (s : String) (atStart : Bool) (args : List Value)
  | replace (s : String) (isGlobal : Bool) (args : List Value)
  | join (id : ObjectId) (args : List Value)
  | convert (args : List Value)
  | stringify (args : List Value)

namespace TextOperation

/-- The operation as a program asks for it. -/
def exec (op : TextOperation) (line : Nat) (ev : Evaluator) : Exec Value :=
  match op with
  | .sum left right => Exec.binary .add left right line
  | .template scope pieces values => ev.evalExpr scope (.mk (.template pieces values) ⟨line, 0⟩)
  | .concat s args => ev.callMethod (.string s) "concat" args line
  | .repeat s args => ev.callMethod (.string s) "repeat" args line
  | .pad s atStart args =>
    ev.callMethod (.string s) (if atStart then "padStart" else "padEnd") args line
  | .replace s isGlobal args =>
    ev.callMethod (.string s) (if isGlobal then "replaceAll" else "replace") args line
  | .join id args => ev.arrayMethod id "join" args line
  | .convert args => ev.callConstructor .string args line
  | .stringify args => ev.callHost .stringify args line

/-- The text behind the last occurrence of a pattern that is replaced; the whole text if there is
none. -/
def unreplaced (s : String) (isGlobal : Bool) (pattern : String) : List Char :=
  match replacedPieces pattern.toList s.toList with
  | [] => s.toList
  | first :: others =>
    (if isGlobal || others.isEmpty then others
      else [s.toList.drop (first.length + pattern.length)]).getLastD first

/-- What is not compared of a text that was padded: all of it if nothing was added, and otherwise
what its characters take beyond one byte each. -/
def unpadded (s result : String) : Nat :=
  if result = s then s.utf8ByteSize else result.utf8ByteSize - result.length

/-- **The bytes of a result that an operation does not compare with the ceiling.** -/
def uncounted (op : TextOperation) (m : Machine) (result : String) : Nat :=
  match op with
  | .template _ pieces values => ((pieces.drop values.length).headD "").utf8ByteSize
  | .concat s args => if args.isEmpty then s.utf8ByteSize else 0
  | .pad s _ _ => unpadded s result
  | .replace s isGlobal args =>
    let pattern := m.heap.text m.limits.maxLength (argument args 0)
    (String.ofList (unreplaced s isGlobal pattern)).utf8ByteSize
  | _ => 0

end TextOperation

/-! ## Results under a ceiling -/

/-- **What is known of the results of an action** that begins under a ceiling and keeps it. -/
def Exec.Gives {α : Type} (limit : Nat) (x : Exec α) (P : α → Prop) : Prop :=
  ∀ (m m' : Machine) (a : α), m.limits.maxLength = limit → x m = .ok a m' →
    m'.limits.maxLength = limit ∧ P a

namespace Exec.Gives

variable {α β : Type} {limit fuel line : Nat} {x : Exec α} {P : α → Prop}

theorem pure {a : α} (h : P a) : (Pure.pure a : Exec α).Gives limit P := by
  intro m m' b hm hx
  cases hx
  exact ⟨hm, h⟩

theorem bind {k : α → Exec β} {R : β → Prop} (hx : x.Gives limit P)
    (hk : ∀ a, P a → (k a).Gives limit R) : (x >>= k).Gives limit R := by
  intro m m' b hm h
  obtain ⟨a, m₁, hxa, hka⟩ := Exec.bind_eq_ok h
  obtain ⟨hm₁, ha⟩ := hx _ _ _ hm hxa
  exact hk a ha _ _ _ hm₁ hka

theorem weaken {R : α → Prop} (hx : x.Gives limit P) (h : ∀ a, P a → R a) : x.Gives limit R := by
  intro m m' a hm hxa
  exact (hx _ _ _ hm hxa).imp_right (h a)

/-- A result computed from that of an action. -/
theorem map {R : β → Prop} {g : α → β} (hx : x.Gives limit P) (h : ∀ a, P a → R (g a)) :
    (x >>= fun a => Pure.pure (g a)).Gives limit R :=
  hx.bind fun a ha => .pure (h a ha)

theorem ite {c : Prop} [Decidable c] {y : Exec α} (hx : c → x.Gives limit P)
    (hy : ¬ c → y.Gives limit P) : (if c then x else y : Exec α).Gives limit P := by
  split
  · exact hx ‹_›
  · exact hy ‹_›

/-- Evaluation keeps the ceiling. -/
theorem action {x : Evaluator → Exec α} {Q : World → α → Prop}
    (hx : Action .loop Set.univ x Q) : (x (.bounded fuel)).Gives limit Any := by
  intro m m' a hm hxa
  have hlimits : ((x (.bounded fuel)).after m).limits = m.limits :=
    (hx.moves (metered_stepwise .loop).lawful m).limits
  rw [Exec.after_of_ok hxa] at hlimits
  exact ⟨hlimits ▸ hm, trivial⟩

theorem plain (hx : Plain .loop Set.univ x P) : x.Gives limit P := by
  induction hx with
  | pure h => exact .pure h
  | elementary h =>
    intro m m' a hm hxa
    have hkeeps := @action _ limit 0 _ _ (.done (.elementary h))
    exact ⟨(hkeeps m m' a hm hxa).1, h.yields_univ hxa⟩
  | bind _ _ ihx ihk => exact ihx.bind ihk
  | weaken _ h ih => exact ih.weaken h

/-- What a check of a length lets through is below the ceiling. -/
theorem checkStringLength {n : Nat} :
    (Exec.checkStringLength n line).Gives limit fun _ => n ≤ limit := by
  refine bind (P := (· = limit)) (fun m m' a hm hx => ?_) ?_
  · cases hx
    exact ⟨hm, hm⟩
  · rintro _ rfl
    exact ite (fun _ => plain Plain.raise.never) fun h => pure (Nat.le_of_not_lt h)

end Exec.Gives

/-! ## Texts and their bytes -/

/-- No text has more characters than bytes. -/
theorem length_le_utf8ByteSize (cs : List Char) : cs.length ≤ (String.ofList cs).utf8ByteSize := by
  induction cs with
  | nil => exact Nat.zero_le _
  | cons c cs ih =>
    rw [String.ofList_cons, String.utf8ByteSize_append, String.utf8ByteSize_singleton,
      List.length_cons]
    have hc := c.utf8Size_pos
    omega

/-- A text that is repeated grows by its own size each time. -/
theorem utf8ByteSize_join_replicate (n : Nat) (s : String) :
    (String.join (List.replicate n s)).utf8ByteSize = n * s.utf8ByteSize := by
  induction n with
  | zero => simp
  | succ n ih =>
    rw [List.replicate_succ, String.join_cons, String.utf8ByteSize_append, ih, Nat.succ_mul,
      Nat.add_comm]

/-- A text of which all but `rest` bytes are below a ceiling. -/
def Surpasses (limit rest : Nat) (s : String) : Prop :=
  ∃ counted ≤ limit, s.utf8ByteSize = counted + rest

/-- A value that, if it is a text, surpasses a ceiling by so much at most. -/
def Value.Surpasses (limit : Nat) (rest : String → Nat) (v : Value) : Prop :=
  ∀ s, v = .string s → ScriptTrace.Surpasses limit (rest s) s

section

variable {limit rest : Nat} {s t : String}

theorem Surpasses.within (h : s.utf8ByteSize ≤ limit) : Surpasses limit 0 s := ⟨_, h, rfl⟩

/-- What nothing was added to is not compared at all. -/
theorem Surpasses.unchecked : Surpasses limit s.utf8ByteSize s :=
  ⟨0, Nat.zero_le _, (Nat.zero_add _).symm⟩

theorem Surpasses.behind (h : s.utf8ByteSize ≤ limit) :
    Surpasses limit t.utf8ByteSize (s ++ t) := ⟨_, h, String.utf8ByteSize_append⟩

theorem Value.Surpasses.string {rest : String → Nat} (h : ScriptTrace.Surpasses limit (rest s) s) :
    (Value.string s).Surpasses limit rest := by
  rintro _ ⟨⟩
  exact h

end

/-! ## Each operation -/

namespace Exec.Gives

open Exec (Gives)

variable {limit fuel line : Nat}

theorem raise {α : Type} {c : ErrorClass} {message : String} {P : α → Prop} :
    (Exec.raise c message line : Exec α).Gives limit P := plain (.never .raise)

theorem join {l r : Value} : (Exec.join l r line).Gives limit (Value.Surpasses limit fun _ => 0) :=
  bind (plain .text) fun _ _ => bind (plain .text) fun _ _ => checkStringLength.map fun _ h =>
    .string (.within (String.utf8ByteSize_append.trans_le h))

theorem concatTexts : ∀ {out : String} {v : Value} {vs : List Value},
    (Exec.concatTexts line out (v :: vs)).Gives limit fun s => s.utf8ByteSize ≤ limit
  | _, _, [] => bind (plain .text) fun _ _ => checkStringLength.map fun _ h => h
  | _, _, _ :: _ => bind (plain .text) fun _ _ => checkStringLength.bind fun _ _ => concatTexts

/-- `join` asks for the length of everything up to each piece. -/
theorem joinTexts {id : ObjectId} {separator : String} : ∀ {first : Bool} {out : String}
    {vs : List Value}, out.utf8ByteSize ≤ limit →
      (Exec.joinTexts id separator line first out vs).Gives limit fun s => s.utf8ByteSize ≤ limit
  | _, _, [], h => pure h
  | first, out, v :: vs, _ => by
    have hrest (out : String) : Gives limit (do
        Exec.checkStringLength out.utf8ByteSize line
        Exec.joinTexts id separator line false out vs) fun s => s.utf8ByteSize ≤ limit :=
      checkStringLength.bind fun _ h => joinTexts h
    unfold Exec.joinTexts
    refine ite (fun _ => ?_) fun _ => bind (plain .text) fun _ _ => ?_
    all_goals exact bind (P := Any) (pure trivial) fun out _ => hrest out

/-- `repeat` asks for the length of the result before it makes it. -/
theorem repeatText {s : String} {count : Value} :
    (Exec.repeatText s count line).Gives limit (Value.Surpasses limit fun _ => 0) := by
  refine bind (plain .number) fun x _ => ite (fun _ => ?_) fun hx => ?_
  · exact bind (plain .text) fun _ _ => raise
  refine checkStringLength.map fun _ h => .string (.within ?_)
  split
  · exact Nat.zero_le _
  rw [utf8ByteSize_join_replicate, Nat.mul_comm]
  refine le_trans (Nat.mul_le_mul_left _ (Number.toCount_le ?_)) h
  exact Bool.eq_false_iff.mpr fun hinf => hx (by rw [hinf, Bool.or_true])

/-- Padding together with the text stays below the ceiling in characters. -/
theorem paddingFor {cs : List Char} {args : List Value} :
    (Exec.paddingFor cs args line).Gives limit fun p => p = [] ∨ cs.length + p.length ≤ limit := by
  have hrest (target : Nat) (fill : List Char) : Gives limit (do
      if target ≤ cs.length || fill.isEmpty then return []
      Exec.checkStringLength target line
      return padding fill (target - cs.length)) fun p => p = [] ∨ cs.length + p.length ≤ limit := by
    refine ite (fun _ => pure (.inl rfl)) fun hmore => checkStringLength.map fun _ h => .inr ?_
    have hlen : (padding fill (target - cs.length)).length ≤ target - cs.length :=
      List.length_take_le ..
    have hlt : cs.length < target := by
      by_contra hle
      exact hmore (by rw [decide_eq_true (Nat.le_of_not_lt hle), Bool.true_or])
    omega
  refine bind (plain .number) fun x _ => ite (fun _ => ?_) fun _ => bind (plain .text) fun _ _ => ?_
  all_goals exact bind (P := Any) (pure trivial) fun fill _ => hrest _ fill

theorem convert {args : List Value} :
    (Exec.convert .string args line).Gives limit (Value.Surpasses limit fun _ => 0) :=
  match args with
  | [] => pure (.string (.within (Nat.zero_le _)))
  | _ :: _ => bind (plain .text) fun _ _ => checkStringLength.map fun _ h => .string (.within h)

/-- The text of a document is measured once it is written. -/
theorem stringify {args : List Value} :
    (Exec.stringify args line).Gives limit (Value.Surpasses limit fun _ => 0) := by
  refine bind (plain (.elementary .heap)) fun heap _ => ?_
  refine bind (plain (.elementary .ceiling)) fun n _ => ?_
  split
  · exact raise
  · exact raise
  · exact pure nofun
  · exact checkStringLength.map fun _ h => .string (.within h)

/-- **The piece behind the last value of a template is not measured.** -/
theorem templateText {scope : ScopeId} : ∀ {out : String} {e : Expr} {es : List Expr}
    {pieces : List String},
      ((Evaluator.bounded fuel).templateText scope line out (e :: es) pieces).Gives limit
        (Surpasses limit ((pieces.drop es.length).headD "").utf8ByteSize)
  | out, e, es, pieces => by
    refine bind (action (.expr (sees_univ _))) fun v _ => bind (plain .text) fun t _ => ?_
    refine checkStringLength.bind fun _ h => ?_
    cases es with
    | nil => exact pure (.behind h)
    | cons e' es =>
      rw [List.length_cons, Nat.add_comm, ← List.drop_drop, List.drop_one]
      exact templateText

/-- **The piece behind the last place where a text is replaced is not measured.** -/
theorem joinReplaced {pattern whole : String} {replacement : Value} : ∀ {place : Nat}
    {out : String} {piece : List Char} {pieces : List (List Char)},
      ((Evaluator.bounded fuel).joinReplaced pattern whole replacement line place out
        (piece :: pieces)).Gives limit
        (Surpasses limit (String.ofList (pieces.getLastD piece)).utf8ByteSize)
  | place, out, piece, pieces => by
    refine bind (action (.replacementText (within_univ _))) fun new _ => ?_
    refine checkStringLength.bind fun _ h => ?_
    cases pieces with
    | nil => exact pure (.behind (String.utf8ByteSize_append.trans_le h))
    | cons piece' pieces =>
      rw [List.getLastD_cons]
      exact joinReplaced

end Exec.Gives

namespace TextOperation

variable {limit fuel line : Nat} {s : String} {args : List Value}

/-- A text that is padded has at most as many characters as the ceiling allows bytes. -/
theorem unpadded_surpasses {cs p : List Char} (hp : p = [] ∨ s.toList.length + p.length ≤ limit)
    (hs : p = [] → String.ofList cs = s) (hlen : cs.length = s.toList.length + p.length) :
    (Value.chars cs).Surpasses limit (unpadded s) := by
  refine .string ?_
  unfold unpadded
  split
  · rename_i heq
    exact heq ▸ .unchecked
  · rename_i hne
    have hbytes := length_le_utf8ByteSize cs
    refine ⟨cs.length, hlen.trans_le (hp.resolve_left fun h => hne (hs h)), ?_⟩
    rw [String.length_ofList]
    omega

/-- A text that is padded surpasses the ceiling only if it did so before. -/
theorem pad_surpasses {ev : Evaluator} {atStart : Bool} :
    ((TextOperation.pad s atStart args).exec line ev).Gives limit
      (Value.Surpasses limit (unpadded s)) := by
  cases atStart with
  | true =>
    refine Exec.Gives.paddingFor.map fun p hp => unpadded_surpasses hp ?_ ?_
    · rintro rfl
      exact String.ofList_toList
    · rw [List.length_append, Nat.add_comm]
  | false =>
    refine Exec.Gives.paddingFor.map fun p hp => unpadded_surpasses hp ?_ ?_
    · rintro rfl
      rw [List.append_nil, String.ofList_toList]
    · exact List.length_append

/-- All but what stands behind the last occurrence is compared. -/
theorem replace_surpasses {isGlobal : Bool} {m m' : Machine} {result : String}
    (h : (Evaluator.bounded fuel).replacedText s isGlobal args line m = .ok result m') :
    Surpasses m.limits.maxLength ((TextOperation.replace s isGlobal args).uncounted m result)
      result := by
  have hpattern : Exec.text (argument args 0) m =
    .ok (m.heap.text m.limits.maxLength (argument args 0)) m := rfl
  rw [Evaluator.replacedText, Exec.bind_of_ok hpattern] at h
  unfold uncounted unreplaced
  dsimp only
  generalize m.heap.text m.limits.maxLength (argument args 0) = pattern at h ⊢
  cases hpieces : replacedPieces pattern.toList s.toList with
  | nil =>
    rw [hpieces] at h
    cases h
    rw [String.ofList_toList]
    exact .unchecked
  | cons first others =>
    rw [hpieces] at h
    dsimp only at h ⊢
    generalize (if isGlobal || others.isEmpty then others
      else [s.toList.drop (first.length + pattern.length)]) = rest at h ⊢
    cases rest with
    | nil =>
      cases h
      exact .unchecked
    | cons piece pieces =>
      rw [List.getLastD_cons]
      exact (Exec.Gives.joinReplaced _ _ _ rfl h).2

end TextOperation

/-- **Texts surpass the ceiling only by what was not compared with it.**  Whatever an operation
gives as a text, all of it but the uncounted bytes is below the ceiling, in every machine.  Nothing
is uncounted of a sum, a repetition, a joined array, a conversion and a document. -/
theorem texts_surpass_only_uncounted (op : TextOperation) {line fuel : Nat} {m m' : Machine}
    {result : String} (h : op.exec line (.bounded fuel) m = .ok (.string result) m') :
    Surpasses m.limits.maxLength (op.uncounted m result) result := by
  -- what an operation gives in every machine, it gives here
  have happly {R : String → Nat}
      (hop : (op.exec line (.bounded fuel)).Gives m.limits.maxLength
        (Value.Surpasses m.limits.maxLength R)) :
      Surpasses m.limits.maxLength (R result) result :=
    (hop _ _ _ rfl h).2 result rfl
  cases op with
  | sum l r =>
    refine happly (R := fun _ => 0) (.ite (fun _ => .join) fun _ => ?_)
    exact .bind (.plain .number) fun _ _ => .map (.plain .number) fun _ _ => nofun
  | template scope pieces values =>
    have hbody : ((Evaluator.bounded fuel).templateText scope line (pieces.headD "") values
        pieces.tail).Gives m.limits.maxLength
        (Surpasses m.limits.maxLength ((pieces.drop values.length).headD "").utf8ByteSize) := by
      cases values with
      | nil =>
        rw [List.length_nil, List.drop_zero]
        exact .pure .unchecked
      | cons e es =>
        rw [List.length_cons, Nat.add_comm, ← List.drop_drop, List.drop_one]
        exact .templateText
    exact happly (R := fun _ => _) (hbody.map fun _ h => .string h)
  | concat s args =>
    cases args with
    | nil =>
      cases h
      exact .unchecked
    | cons v vs => exact happly (R := fun _ => 0) (.map .concatTexts fun _ h => .string (.within h))
  | «repeat» s args => exact happly (R := fun _ => 0) .repeatText
  | pad s atStart args => exact happly TextOperation.pad_surpasses
  | replace s isGlobal args =>
    have hreplaced : ∃ m', (Evaluator.bounded fuel).replacedText s isGlobal args line m =
        .ok result m' := by
      cases isGlobal
      all_goals
        obtain ⟨t, m₁, ht, hp⟩ := Exec.bind_eq_ok h
        cases hp
        exact ⟨_, ht⟩
    exact TextOperation.replace_surpasses hreplaced.choose_spec
  | join id args =>
    refine happly (R := fun _ => 0) (.bind (.plain (.elementary .heap)) fun heap _ => ?_)
    have hjoin (separator : String) (items : List Value) :
        (do return Value.string (← Exec.joinTexts id separator line true "" items)).Gives
          m.limits.maxLength (Value.Surpasses m.limits.maxLength fun _ => 0) :=
      .map (.joinTexts (Nat.zero_le _)) fun _ h => .string (.within h)
    change (if (argument args 0).isUndefined = true then _ else _ : Exec Value).Gives _ _
    exact .ite (fun _ => hjoin _ _) fun _ => .bind (.plain .text) fun _ _ => hjoin _ _
  | convert args => exact happly (R := fun _ => 0) .convert
  | stringify args => exact happly (R := fun _ => 0) .stringify

/-- The template of `"abc"` and, behind it, `d`. -/
def templateUse : TextOperation :=
  .template Scopes.globalId ["", "d"] [.mk (.string "abc") ⟨1, 12⟩]

/-- Its text has one byte more than the ceiling allows, the one that is not compared. -/
theorem templateUse_surpasses :
    ∃ m', templateUse.exec 1 (.bounded 1) (.initial ⟨10, 100, 3⟩) = .ok (.string "abcd") m' ∧
      Surpasses 3 1 "abcd" := by
  have hexec : ∃ m', templateUse.exec 1 (.bounded 1) (.initial ⟨10, 100, 3⟩) =
      .ok (.string "abcd") m' := ⟨_, rfl⟩
  obtain ⟨m', h⟩ := hexec
  exact ⟨m', h, texts_surpass_only_uncounted templateUse h⟩

/-- So not every text is at most as long as the ceiling allows. -/
theorem templateUse_longer_than_ceiling :
    ¬ ∀ (op : TextOperation) (line fuel : Nat) (m m' : Machine) (result : String),
      op.exec line (.bounded fuel) m = .ok (.string result) m' →
        result.utf8ByteSize ≤ m.limits.maxLength := by
  intro h
  have hlong : (4 : Nat) ≤ 3 := h templateUse 1 1 (.initial ⟨10, 100, 3⟩) _ "abcd" rfl
  omega

end ScriptTrace
