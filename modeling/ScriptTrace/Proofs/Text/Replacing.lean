import ScriptTrace.Proofs.Text.Splitting
import ScriptTrace.Proofs.Traversal.ArrayText

/-!
# Proofs/Text/Replacing — splitting, joining and replacing agree

Joining puts a separator in front of every piece but the first, and replacing puts the new text in
front of what stands behind every occurrence.  Both loops add the same text (`led`) to the first
piece and compare lengths with the ceiling on their way; a length that is refused is never more than
that of the whole.
-/

namespace ScriptTrace

/-- Texts with a separator in front of each. -/
def led (separator : String) : List String → String
  | [] => ""
  | t :: ts => separator ++ t ++ led separator ts

theorem intercalate_cons (separator t : String) (ts : List String) :
    separator.intercalate (t :: ts) = t ++ led separator ts := by
  induction ts generalizing t with
  | nil => rw [led, String.append_empty, String.intercalate_singleton]
  | cons u us ih =>
    rw [String.intercalate_cons_cons, ih, led, String.append_assoc, String.append_assoc]

/-- With nothing between them characters are the text of them. -/
theorem intercalate_singleton (cs : List Char) :
    "".intercalate (cs.map String.singleton) = String.ofList cs := by
  rw [← String.toList_inj, String.toList_intercalate, String.toList_ofList, List.map_map]
  induction cs with
  | nil => rfl
  | cons c cs ih =>
    cases cs with
    | nil => simp
    | cons d cs =>
      rw [List.map_cons] at ih ⊢
      rw [List.map_cons, List.intercalate_cons_cons, ih]
      simp

namespace Exec

variable {α β : Type} {x : Exec α} {m : Machine} {s out separator : String} {a : α} {line : Nat}
  {id : ObjectId} {ts : List String}

/-- **An action that makes a text** and gives `a`, or finds that the text is too long. -/
def Makes (x : Exec α) (m : Machine) (s : String) (a : α) (line : Nat) : Prop :=
  x m = .ok a m ∨
    m.limits.maxLength < s.utf8ByteSize ∧ x m = raise .rangeError "Invalid string length" line m

theorem Makes.congr {y : Exec α} (h : y.Makes m s a line) (hsame : x m = y m) :
    x.Makes m s a line :=
  h.imp hsame.trans fun ⟨hlong, hraise⟩ => ⟨hlong, hsame.trans hraise⟩

theorem Makes.map (h : x.Makes m s a line) (g : α → β) :
    (x >>= fun a => pure (g a)).Makes m s (g a) line :=
  h.imp (fun hok => bind_of_ok hok) fun ⟨hlong, hraise⟩ => ⟨hlong, bind_of_error hraise⟩

/-- The length of a text in front is compared with the ceiling on the way. -/
theorem Makes.checked {front back : String} (h : x.Makes m (front ++ back) a line) :
    (checkStringLength front.utf8ByteSize line >>= fun _ => x).Makes m (front ++ back) a line := by
  rcases Nat.lt_or_ge m.limits.maxLength front.utf8ByteSize with hlong | hfits
  · refine .inr ⟨?_, bind_of_error (checkStringLength_of_gt hlong)⟩
    rw [String.utf8ByteSize_append]
    omega
  · exact h.congr (bind_of_ok (checkStringLength_of_le hfits))

/-- One text more is joined. -/
theorem joinTexts_string (first : Bool) (out t : String) (vs : List Value) :
    joinTexts id separator line first out (.string t :: vs) =
      (checkStringLength ((if first then out else out ++ separator) ++ t).utf8ByteSize line >>=
        fun _ => joinTexts id separator line false
          ((if first then out else out ++ separator) ++ t) vs) := by
  rfl

/-- `join` puts the separator before each text but the first. -/
theorem makes_joinTexts_led (ts : List String) (out : String) :
    (joinTexts id separator line false out (ts.map .string)).Makes m (out ++ led separator ts)
      (out ++ led separator ts) line := by
  induction ts generalizing out with
  | nil => exact .inl (congrArg (EStateM.Result.ok · m) String.append_empty.symm)
  | cons t ts ih =>
    have hled : out ++ led separator (t :: ts) = out ++ separator ++ t ++ led separator ts := by
      simp only [led, String.append_assoc]
    rw [List.map_cons, joinTexts_string, hled]
    exact (ih _).checked

/-- **Texts are joined.** -/
theorem makes_joinTexts (ts : List String) :
    (joinTexts id separator line true "" (ts.map .string)).Makes m (separator.intercalate ts)
      (separator.intercalate ts) line := by
  cases ts with
  | nil => exact .inl rfl
  | cons t ts =>
    have hgrown : (if true then "" else "" ++ separator) ++ t = t := String.empty_append
    rw [List.map_cons, joinTexts_string, hgrown, intercalate_cons]
    exact (makes_joinTexts_led ts t).checked

end Exec

namespace Evaluator

open Exec

variable {ev : Evaluator} {m : Machine} {s p r first : String} {others : List String} {line : Nat}

/-- One occurrence more is replaced. -/
theorem joinReplaced_cons (place : Nat) (out : String) (piece : List Char)
    (pieces : List (List Char)) :
    ev.joinReplaced p s (.string r) line place out (piece :: pieces) =
      (checkStringLength (out ++ r).utf8ByteSize line >>= fun _ =>
        ev.joinReplaced p s (.string r) line (place + p.length + piece.length)
          (out ++ r ++ String.ofList piece) pieces) := by
  rw [String.utf8ByteSize_append]
  rfl

/-- **Occurrences are replaced.** -/
theorem makes_joinReplaced (pieces : List (List Char)) (place : Nat) (out : String) :
    (ev.joinReplaced p s (.string r) line place out pieces).Makes m
      (out ++ led r (pieces.map String.ofList)) (out ++ led r (pieces.map String.ofList)) line := by
  induction pieces generalizing place out with
  | nil => exact .inl (congrArg (EStateM.Result.ok · m) String.append_empty.symm)
  | cons piece pieces ih =>
    have hled : out ++ led r ((piece :: pieces).map String.ofList) =
        out ++ r ++ (String.ofList piece ++ led r (pieces.map String.ofList)) := by
      simp only [led, List.map_cons, String.append_assoc]
    rw [joinReplaced_cons, hled]
    refine Makes.checked ?_
    rw [← String.append_assoc]
    exact ih _ _

/-- All occurrences, or only the first. -/
theorem makes_replaced (hp : p ≠ "") (isGlobal : Bool) {first : List Char}
    {others : List (List Char)} (hsplit : Text.splitAt p.toList s.toList = first :: others) :
    (ev.replacedText s isGlobal [.string p, .string r] line).Makes m
      (String.ofList first ++ led r ((if isGlobal || others.isEmpty then others
        else [s.toList.drop (first.length + p.length)]).map String.ofList))
      (String.ofList first ++ led r ((if isGlobal || others.isEmpty then others
        else [s.toList.drop (first.length + p.length)]).map String.ofList)) line := by
  have hpieces : replacedPieces p.toList s.toList = first :: others := by
    rw [replacedPieces, if_neg (by simpa using hp)]
    exact hsplit
  have hpattern : Exec.text (argument [.string p, .string r] 0) = pure p := rfl
  rw [replacedText, hpattern, pure_bind, hpieces]
  exact makes_joinReplaced ..

/-! ## The methods -/

variable {id : ObjectId} {ts : List String} {pieces : List (List Char)}

/-- `split` makes an array of the pieces. -/
theorem callMethod_split (hp : p ≠ "") (hsplit : Text.splitAt p.toList s.toList = pieces) :
    ev.callMethod (.string s) "split" [.string p] line m =
      .ok (.object m.heap.size) { m with
        heap := m.heap.add (.array ((pieces.map String.ofList).map Value.string).toArray) none } := by
  have hpieces : ev.callMethod (.string s) "split" [.string p] line =
      makeArray (((if p.toList.isEmpty then s.toList.map fun c => [c]
        else Text.splitAt p.toList s.toList).map Value.chars).toArray) := rfl
  rw [hpieces, if_neg (by simpa using hp), hsplit, List.map_map]
  rfl

/-- An empty pattern stands between any two characters. -/
theorem callMethod_split_empty :
    ev.callMethod (.string s) "split" [.string ""] line m =
      .ok (.object m.heap.size) { m with
        heap := m.heap.add (.array ((s.toList.map String.singleton).map Value.string).toArray)
          none } := by
  have hpieces : ev.callMethod (.string s) "split" [.string ""] line =
      makeArray (((s.toList.map fun c => [c]).map Value.chars).toArray) := rfl
  rw [hpieces, List.map_map, List.map_map]
  rfl

/-- `join` makes the text of the pieces with the separator between them. -/
theorem makes_join (hid : m.heap.body? id = some (.array (ts.map Value.string).toArray))
    {joined : String} (hjoined : r.intercalate ts = joined) :
    (ev.callMethod (.object id) "join" [.string r] line).Makes m joined (.string joined) line := by
  subst hjoined
  have hitems : (m.heap.items? (.object id)).getD #[] = (ts.map Value.string).toArray := by
    rw [Heap.items?, hid]
    rfl
  have htexts : (joinTexts id r line true "" (ts.map .string)).Makes m (r.intercalate ts)
      (r.intercalate ts) line := makes_joinTexts ts
  refine (htexts.map Value.string).congr ((callMethod_array hid ev _ _).trans ?_)
  exact (bind_of_ok (x := Exec.heap) rfl).trans (by rw [hitems]; rfl)

/-- `replaceAll` puts the replacement between the pieces. -/
theorem makes_replaceAll (hp : p ≠ "") (hsplit : Text.splitAt p.toList s.toList = pieces) :
    (ev.callMethod (.string s) "replaceAll" [.string p, .string r] line).Makes m
      (r.intercalate (pieces.map String.ofList))
      (.string (r.intercalate (pieces.map String.ofList))) line := by
  cases pieces with
  | nil => exact absurd hsplit (Text.pieces_splitAt (by simpa using hp) _).ne_nil
  | cons first others =>
    rw [List.map_cons, intercalate_cons]
    exact (makes_replaced hp true hsplit).map Value.string

/-- `replace` puts the replacement behind the first piece alone. -/
theorem makes_replace (hp : p ≠ "") {first : List Char} {others : List (List Char)}
    (hsplit : Text.splitAt p.toList s.toList = first :: others) :
    (ev.callMethod (.string s) "replace" [.string p, .string r] line).Makes m
      (if others = [] then s else .ofList first ++ r ++ p.intercalate (others.map String.ofList))
      (.string (if others = [] then s
        else .ofList first ++ r ++ p.intercalate (others.map String.ofList))) line := by
  have hne : p.toList ≠ [] := by simpa using hp
  have hpieces := hsplit ▸ Text.pieces_splitAt hne s.toList
  have htext : String.ofList first ++ led r ((if false || others.isEmpty then others
        else [s.toList.drop (first.length + p.length)]).map String.ofList) =
      if others = [] then s else .ofList first ++ r ++
        p.intercalate (others.map String.ofList) := by
    cases others with
    | nil =>
      have hfirst : first = s.toList := by
        rw [← hpieces.intercalate_eq, List.intercalate_singleton]
      simp [hfirst, led]
    | cons next more =>
      have hdrop : String.ofList (s.toList.drop (first.length + p.length)) =
          p.intercalate ((next :: more).map String.ofList) := by
        rw [← String.toList_inj, String.toList_intercalate, String.toList_ofList,
          ← String.length_toList, hpieces.drop_eq (List.cons_ne_nil _ _), List.map_map]
        simp
      simp [led, hdrop, String.append_assoc]
  rw [← htext]
  exact (makes_replaced hp false hsplit).map Value.string

/-- **Splitting, joining and replacing agree.** -/
theorem split_join_replace (ev : Evaluator) (m : Machine) (s : String) (line : Nat) :
    (∀ p r : String, p ≠ "" → ∃ (first : String) (others : List String) (id : ObjectId)
        (m' : Machine),
      ev.callMethod (.string s) "split" [.string p] line m = .ok (.object id) m' ∧
      m'.heap.body? id = some (.array ((first :: others).map Value.string).toArray) ∧
      Text.Pieces p.toList s.toList ((first :: others).map String.toList) ∧
      (∀ piece ∈ first :: others, ¬ p.toList <:+: piece.toList) ∧
      (∃ joined, (r = p → joined = s) ∧
        (ev.callMethod (.object id) "join" [.string r] line).Makes m' joined (.string joined) line ∧
        ∀ n, (ev.callMethod (.string s) "replaceAll" [.string p, .string r] line).Makes n joined
          (.string joined) line) ∧
      ∃ replaced, (p.toList <:+: s.toList → replaced = first ++ r ++ p.intercalate others) ∧
        (¬ p.toList <:+: s.toList → replaced = s) ∧
        ∀ n, (ev.callMethod (.string s) "replace" [.string p, .string r] line).Makes n replaced
          (.string replaced) line) ∧
    ∃ (id : ObjectId) (m' : Machine),
      ev.callMethod (.string s) "split" [.string ""] line m = .ok (.object id) m' ∧
      (ev.callMethod (.object id) "join" [.string ""] line).Makes m' s (.string s) line := by
  refine ⟨fun p r hp => ?_, ?_⟩
  · have hpattern : p.toList ≠ [] := by simpa using hp
    have hpieces := Text.pieces_splitAt hpattern s.toList
    obtain ⟨first, others, hsplit⟩ := List.exists_cons_of_ne_nil hpieces.ne_nil
    rw [hsplit] at hpieces
    have htexts : ((first :: others).map String.ofList).map String.toList = first :: others := by
      simp
    refine ⟨.ofList first, others.map .ofList, _, _, callMethod_split hp hsplit, ?_, ?_, ?_, ?_, ?_⟩
    · rw [Heap.body?_add, if_pos rfl, List.map_cons]
    · rw [← List.map_cons, htexts]
      exact hpieces
    · rw [← List.map_cons]
      intro piece hpiece
      obtain ⟨cs, hcs, rfl⟩ := List.mem_map.mp hpiece
      rw [String.toList_ofList]
      exact hpieces.not_isInfix hpattern cs hcs
    · refine ⟨_, ?_, makes_join (by rw [Heap.body?_add, if_pos rfl]) rfl,
        fun n => makes_replaceAll hp hsplit⟩
      rintro rfl
      rw [← String.toList_inj, String.toList_intercalate, htexts, hpieces.intercalate_eq]
    · refine ⟨_, ?_, ?_, fun n => makes_replace hp hsplit⟩
      · intro hoccurs
        rw [if_neg fun hnil => hpieces.eq_nil_iff.mp hnil hoccurs]
      · intro habsent
        rw [if_pos (hpieces.eq_nil_iff.mpr habsent)]
  · refine ⟨_, _, callMethod_split_empty, makes_join (by rw [Heap.body?_add, if_pos rfl]) ?_⟩
    rw [intercalate_singleton, String.ofList_toList]

/-- Occurrences that overlap: of `aaa-aa` the text `a-` is left between them. -/
theorem overlapping_replaced : "aa" ≠ "" ∧ ∃ (id : ObjectId) (m : Machine),
    (bounded 1).callMethod (.string "aaa-aa") "split" [.string "aa"] 1 (.initial .default) =
      .ok (.object id) m ∧
    (bounded 1).callMethod (.object id) "join" [.string "b"] 1 m = .ok (.string "ba-b") m ∧
    (bounded 1).callMethod (.string "aaa-aa") "replaceAll" [.string "aa", .string "b"] 1 m =
      .ok (.string "ba-b") m := by
  have hp : "aa" ≠ "" := by decide
  obtain ⟨_, _, id, m, hsplit, -, -, -, ⟨joined, -, hjoin, hreplace⟩, -⟩ :=
    (split_join_replace (bounded 1) (.initial .default) "aaa-aa" 1).1 "aa" "b" hp
  have hgiven : joined = "ba-b" := by
    obtain hok | ⟨-, hraise⟩ := hreplace (.initial .default)
    · cases hok
      rfl
    · cases hraise
  subst hgiven
  have hroom : ¬ m.limits.maxLength < "ba-b".utf8ByteSize := by
    cases hsplit
    decide
  exact ⟨hp, id, m, hsplit, hjoin.resolve_right fun h => hroom h.1,
    (hreplace m).resolve_right fun h => hroom h.1⟩

end Evaluator

end ScriptTrace
