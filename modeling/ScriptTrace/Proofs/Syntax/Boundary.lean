import ScriptTrace.Proofs.Grammar.Abreast
import ScriptTrace.Proofs.Syntax.First
import ScriptTrace.Proofs.Syntax.Word

/-!
# Proofs/Syntax/Boundary — where a word may begin

A text ends in a name, in a number, or in neither (`ending`).  A place is *clear* if no name ends in
front of it or none goes on behind it.  What a phrase makes of that is computed from the phrase
(`standing`): a program calls its rules at clear places only, and each of them ends at one
(`clear_of_follow`).  So nothing changes if they are given up at all other places
(`result_heedful`).
-/

namespace ScriptTrace.Syntax

open Grammar
open Grammar.Form
open Phrase

variable {call : {α : Type} → Rule α → Spacing → Cursor → Attempt α} {s : Spacing}
  {c n : Cursor} {x : Char} {p : Char → Bool} {u w W X : List Char} {fuel : Nat}

/-! ## How a text ends -/

/-- What the last characters of a text belong to. -/
inductive Ending where
  | other
  | number
  | name
  deriving DecidableEq

/-- The ending with one more character.  What begins with a digit is a number, with the letters and
points behind it. -/
def Ending.next : Ending → Char → Ending
  | .other, x => if Number.isDigit x then .number else if isNameChar x then .name else .other
  | .number, x => if isNameChar x || x = '.' then .number else .other
  | .name, x => if isNameChar x then .name else .other

/-- **What a text ends in.** -/
def ending (u : List Char) : Ending := u.foldl .next .other

example : ending "x = my".toList = .name ∧ ending "x = 0x1F".toList = .number := by decide

theorem ending_snoc (u : List Char) (x : Char) : ending (u ++ [x]) = (ending u).next x :=
  List.foldl_append ..

/-- Digits are characters of names. -/
theorem isNameChar_of_isDigit (hx : Number.isDigit x = true) : isNameChar x = true := by
  have hdigit : x.isDigit = true := by
    simpa [Number.isDigit, Char.isDigit, Char.le_def] using hx
  simp [isNameChar, Char.isAlphanum, hdigit]

theorem isNameChar_of_binaryDigit (hx : (x = '0' || x = '1') = true) : isNameChar x = true := by
  simp only [Bool.or_eq_true, decide_eq_true_eq] at hx
  obtain rfl | rfl := hx <;> decide

/-- The letters among the hexadecimal digits are as well. -/
theorem isNameChar_of_isHexDigit (hx : isHexDigit x = true) : isNameChar x = true := by
  obtain ⟨d, hd⟩ := Option.isSome_iff_exists.mp hx
  obtain ⟨hvalue, -⟩ := Option.filter_eq_some_iff.mp hd
  unfold Number.digitValue? at hvalue
  split at hvalue
  · exact isNameChar_of_isDigit ‹_›
  · split at hvalue
    · rename_i hlower
      have halpha : x.isAlpha = true := Bool.or_eq_true_iff.mpr (.inr hlower)
      simp [isNameChar, Char.isAlphanum, halpha]
    · split at hvalue
      · rename_i hupper
        have hrange : 'A' ≤ x ∧ x ≤ 'Z' := by simpa using hupper
        have halpha : x.isAlpha = true := Bool.or_eq_true_iff.mpr (.inl (decide_eq_true hrange))
        simp [isNameChar, Char.isAlphanum, halpha]
      · cases hvalue

theorem not_isDigit (hx : isNameChar x = false) : Number.isDigit x = false := by
  rw [Bool.eq_false_iff] at hx ⊢
  exact fun hdigit => hx (isNameChar_of_isDigit hdigit)

/-- Behind a character of another kind no name ends. -/
theorem Ending.next_ne_name {e : Ending} (hx : isNameChar x = false) : e.next x ≠ .name := by
  have hdigit := not_isDigit hx
  cases e with
  | other | name => simp [next, hx, hdigit]
  | number =>
    rw [next]
    split <;> simp

/-! ### Blanks -/

/-- No name goes on with a space. -/
theorem not_isNameChar_of_isSpace (hx : isSpace x = true) : isNameChar x = false := by
  simp only [isSpace, Bool.or_eq_true, decide_eq_true_eq] at hx
  obtain ((((rfl | rfl) | rfl) | rfl) | rfl) | rfl := hx <;> decide

/-- A block comment ends with a slash. -/
theorem exists_slash {cs : List Char} {k : Nat} (h : blockCommentLength? cs = some k) :
    ∃ D, cs.take k = D ++ ['/'] := by
  fun_induction blockCommentLength? cs generalizing k with
  | case1 rest =>
    cases h
    exact ⟨['*'], rfl⟩
  | case2 x rest hx ih =>
    obtain ⟨k, hk, rfl⟩ := Option.map_eq_some_iff.mp h
    obtain ⟨D, hD⟩ := ih hk
    exact ⟨x :: D, by rw [List.take_succ_cons, hD, List.cons_append]⟩
  | case3 => cases h

/-- Behind a comment no name ends, or the line does. -/
theorem ending_comment {cs : List Char} {k : Nat} (h : commentLength? cs = some k) :
    ending (u ++ cs.take k) ≠ .name ∨ cs.drop k = [] ∨ blankLength (cs.drop k) ≠ 0 := by
  unfold commentLength? at h
  split at h
  · rename_i rest
    obtain rfl := Option.some.inj h
    right
    have hdrop : ('/' :: '/' :: rest).drop (2 + (rest.takeWhile (· ≠ '\n')).length) =
        rest.dropWhile (· ≠ '\n') := by
      rw [Nat.add_comm, List.drop_succ_cons, List.drop_succ_cons]
      have hsplit := List.takeWhile_append_dropWhile (p := (· ≠ '\n')) (l := rest)
      calc rest.drop (rest.takeWhile (· ≠ '\n')).length
        _ = (rest.takeWhile (· ≠ '\n') ++ rest.dropWhile (· ≠ '\n')).drop
            (rest.takeWhile (· ≠ '\n')).length := by rw [hsplit]
        _ = rest.dropWhile (· ≠ '\n') := List.drop_left
    rw [hdrop]
    have hhead := List.head?_dropWhile_not (· ≠ '\n') rest
    cases hrest : rest.dropWhile (· ≠ '\n') with
    | nil => exact .inl rfl
    | cons y Y =>
      rw [hrest] at hhead
      obtain rfl : y = '\n' := by simpa using hhead
      exact .inr (by rw [blankLength_of_space (by decide)]; omega)
  · obtain ⟨k, hk, rfl⟩ := Option.map_eq_some_iff.mp h
    obtain ⟨D, hD⟩ := exists_slash hk
    left
    rw [List.take_succ_cons, List.take_succ_cons, hD, ← List.cons_append, ← List.cons_append,
      ← List.append_assoc, ending_snoc]
    exact Ending.next_ne_name (by decide)
  · cases h

/-- **Behind blanks no name ends**, or the text does. -/
theorem ending_blanks (cs : List Char) (u : List Char) :
    blankLength cs = 0 ∨ ending (u ++ cs.take (blankLength cs)) ≠ .name ∨
      cs.drop (blankLength cs) = [] := by
  induction cs using blankLength_induction generalizing u with
  | nil => exact .inl rfl
  | space x rest hx ih =>
    right
    rw [blankLength_of_space hx, Nat.add_comm, List.take_succ_cons, List.drop_succ_cons]
    obtain hzero | hmore := ih (u ++ [x])
    · rw [hzero, List.take_zero, ending_snoc]
      exact .inl (Ending.next_ne_name (not_isNameChar_of_isSpace hx))
    · rwa [List.append_assoc] at hmore
  | comment x rest k hx hc ih =>
    right
    rw [blankLength_of_comment hx hc, List.take_add, ← List.drop_drop, ← List.append_assoc]
    obtain hzero | hmore := ih (u ++ (x :: rest).take k)
    · obtain hname | hend | hblank := ending_comment (u := u) hc
      · rw [hzero, List.take_zero, List.append_nil]
        exact .inl hname
      · exact .inr (by rw [hend, List.drop_nil])
      · exact absurd hzero hblank
    · exact hmore
  | solid x rest hx hc => exact .inl (blankLength_of_solid hx hc)

/-! ## What is known of a place -/

/-- **What is known of a place**: that a number ends there, that no name ends there or none goes on,
or nothing. -/
inductive Standing where
  | number
  | clear
  | unclear
  deriving DecidableEq

namespace Standing

/-- What a standing says of the text in front of a place, by its ending, and of the text behind. -/
def Allows : Standing → Ending → List Char → Prop
  | .number, e, _ => e = .number
  | .clear, e, X => e ≠ .name ∨ Bounds X
  | .unclear, _, _ => True

/-- What is known in both cases. -/
def join : Standing → Standing → Standing
  | .number, k => k
  | .clear, .unclear => .unclear
  | .clear, _ => .clear
  | .unclear, _ => .unclear

/-- What is known behind one more character. -/
def next : Standing → Char → Standing
  | .number, x => if isNameChar x || x = '.' then .number else .clear
  | .clear, x => if Number.isDigit x then .number else if isNameChar x then .unclear else .clear
  | .unclear, x => if isNameChar x then .unclear else .clear

/-- What is known where in addition no name goes on. -/
def cut : Standing → Standing
  | .number => .number
  | _ => .clear

/-- What is known behind skipped blanks. -/
def skip (s : Spacing) (m : Standing) : Standing := if s = .free then m.join .clear else m

/-- **A place in a text** with such a standing. -/
def At (m : Standing) (W : List Char) (c : Cursor) : Prop :=
  ∃ front, W = front ++ c.rest ∧ m.Allows (ending front) c.rest

variable {m k : Standing} {e : Ending}

/-- What is known in one case is known of both. -/
theorem Allows.join_left (h : m.Allows e X) : (m.join k).Allows e X := by
  cases m <;> cases k <;> simp_all [Allows, join]

theorem Allows.join_right (h : k.Allows e X) : (m.join k).Allows e X := by
  cases m <;> cases k <;> simp_all [Allows, join]

/-- One more character leaves what is known behind it. -/
theorem Allows.next (h : m.Allows e (x :: X)) : (m.next x).Allows (e.next x) X := by
  cases hx : isNameChar x with
  | false =>
    have hdigit := not_isDigit hx
    have hclear : Standing.clear.Allows (e.next x) X := .inl (Ending.next_ne_name hx)
    cases m with
    | clear | unclear => simpa [Standing.next, hx, hdigit] using hclear
    | number =>
      obtain rfl : e = .number := h
      rw [Standing.next]
      split
      · exact if_pos ‹_›
      · exact hclear
  | true =>
    cases m with
    | unclear => simp [Standing.next, hx, Allows]
    | number =>
      obtain rfl : e = .number := h
      simp [Standing.next, Ending.next, hx, Allows]
    | clear =>
      -- A character of a name follows, so no name ends in front of it.
      have hname : e ≠ .name := h.resolve_right fun hbounds => by
        simp [hbounds x rfl] at hx
      cases hdigit : Number.isDigit x with
      | false => simp [Standing.next, hx, hdigit, Allows]
      | true => cases e <;> simp_all [Standing.next, Ending.next, Allows]

/-- Behind a character of another kind a place is clear. -/
theorem next_ne_unclear (hx : isNameChar x = false) : m.next x ≠ .unclear := by
  have hdigit := not_isDigit hx
  cases m with
  | clear | unclear => simp [Standing.next, hx, hdigit]
  | number =>
    rw [Standing.next]
    split <;> simp

namespace At

theorem imp (h : m.At W c) (hk : ∀ e, m.Allows e c.rest → k.Allows e c.rest) : k.At W c := by
  obtain ⟨front, hW, hm⟩ := h
  exact ⟨front, hW, hk _ hm⟩

theorem join_left (h : m.At W c) : (m.join k).At W c := h.imp fun _ => .join_left

theorem join_right (h : k.At W c) : (m.join k).At W c := h.imp fun _ => .join_right

/-- Behind a character that stands there. -/
theorem step (h : m.At W c) (hrest : c.rest = x :: X) : (m.next x).At W c.step := by
  obtain ⟨front, hW, hm⟩ := h
  rw [hrest] at hm
  have hstep : c.step.rest = X := by rw [Cursor.rest_step, hrest, List.tail_cons]
  refine ⟨front ++ [x], ?_, ?_⟩
  · rw [hW, hrest, hstep, List.append_assoc]
    rfl
  · rw [ending_snoc, hstep]
    exact hm.next

/-- Behind a word that stands there. -/
theorem word (h : m.At W c) (hw : c.Over w n) : (w.foldl next m).At W n := by
  induction w generalizing m c with
  | nil =>
    obtain rfl := hw.eq_advance
    exact h
  | cons x w ih =>
    obtain ⟨hrest, hmore⟩ := Cursor.Over.cons_iff.mp hw
    exact ih (h.step hrest) hmore

/-- A place of which something is known is clear. -/
theorem clear (h : m.At W c) (hm : m ≠ .unclear) : Standing.clear.At W c := by
  refine h.imp fun e he => ?_
  cases m with
  | number => exact .inl (by rw [show e = .number from he]; decide)
  | clear => exact he
  | unclear => exact absurd rfl hm

/-- A place where no name goes on is clear, too. -/
theorem cut (h : m.At W c) (hc : Bounds c.rest) : m.cut.At W c := by
  refine h.imp fun e hm => ?_
  cases m with
  | number => exact hm
  | clear | unclear => exact .inr hc

/-- Behind blanks a place is clear, if there are any. -/
theorem skip (h : m.At W c) (s : Spacing) : (m.skip s).At W (s.skip c) := by
  cases s with
  | tight | quiet => exact h
  | free =>
    obtain ⟨front, hW, hm⟩ := h
    have hover : W = front ++ c.rest.take (blankLength c.rest) ++ c.skipBlanks.rest := by
      rw [Cursor.skipBlanks, Cursor.rest_advance, List.append_assoc, List.take_append_drop, hW]
    obtain hzero | hblanks := ending_blanks c.rest front
    · have hc : c.skipBlanks = c := Cursor.IsSolid.skipBlanks_eq hzero
      change (m.join .clear).At W c.skipBlanks
      rw [hc]
      exact ⟨front, hW, hm.join_left⟩
    · refine ⟨_, hover, Allows.join_right (k := .clear) ?_⟩
      refine hblanks.imp_right fun hend => ?_
      change Bounds c.skipBlanks.rest
      rw [Cursor.skipBlanks, Cursor.rest_advance, hend]
      simp [Bounds]

end At

end Standing

/-! ## What a phrase makes of it -/

/-- The characters of names. -/
def nameChars : List Char :=
  "0123456789abcdefghijklmnopqrstuvwxyzABCDEFGHIJKLMNOPQRSTUVWXYZ_$".toList

/-- These are all of them. -/
theorem mem_nameChars (h : isNameChar x = true) : x ∈ nameChars := by
  change (((decide ('A'.val ≤ x.val ∧ x.val ≤ 'Z'.val) || ('a'.val ≤ x.val && x.val ≤ 'z'.val)) ||
    ('0'.val ≤ x.val && x.val ≤ '9'.val)) || x = '_' || x = '$') = true at h
  simp only [Bool.or_eq_true, Bool.and_eq_true, decide_eq_true_eq, UInt32.le_iff_toNat_le] at h
  change ((((65 ≤ x.toNat ∧ x.toNat ≤ 90) ∨ (97 ≤ x.toNat ∧ x.toNat ≤ 122)) ∨
    (48 ≤ x.toNat ∧ x.toNat ≤ 57)) ∨ x = '_') ∨ x = '$' at h
  obtain (((⟨hlow, hhigh⟩ | ⟨hlow, hhigh⟩) | ⟨hlow, hhigh⟩) | rfl) | rfl := h
  case inr | inl.inr => decide
  all_goals
    rw [← Char.ofNat_toNat x]
    generalize x.toNat = n at hlow hhigh
    interval_cases n <;> decide

/-- Two characters, one of which is in every class that has others than those of names. -/
def otherSamples : List Char := [' ', '\\']

/-- What is known behind a character of a class. -/
def Standing.behind (m : Standing) (p : Char → Bool) : Standing :=
  (nameChars.filter p).foldr (fun x => (m.next x).join)
    (if otherSamples.any p then .clear else .number)

/-- What is known behind a class. -/
theorem Standing.At.behind {m : Standing} (h : m.At W c)
    (hp : otherSamples.any p = false → ∀ x, p x = true → isNameChar x = true)
    (hrest : c.rest = x :: X) (hx : p x = true) : (m.behind p).At W c.step := by
  have hnext := h.step hrest
  unfold Standing.behind
  cases hname : isNameChar x with
  | true =>
    have hmem : x ∈ nameChars.filter p := List.mem_filter.mpr ⟨mem_nameChars hname, hx⟩
    generalize nameChars.filter p = xs at hmem
    induction xs with
    | nil => cases hmem
    | cons y ys ih =>
      obtain rfl | hmem := List.mem_cons.mp hmem
      · exact hnext.join_left
      · exact (ih hmem).join_right
  | false =>
    have hother : otherSamples.any p = true := by
      by_contra hother
      rw [hp (by simpa using hother) x hx] at hname
      cases hname
    have hclear := hnext.clear (Standing.next_ne_unclear hname)
    rw [if_pos hother]
    induction nameChars.filter p with
    | nil => exact hclear
    | cons y ys ih => exact ih.join_right

/-- Whether a phrase is a class of characters with all those of names. -/
def endsNames : {α : Type} → Phrase α → Bool
  | _, .one p => nameChars.all p
  | _, _ => false

theorem consumes_of_endsNames {α : Type} {a : Phrase α} (ha : endsNames a = true) :
    a.consumes = true := by
  cases a with
  | one p => rfl
  | _ => cases ha

/-- Where such a class has no character, no name goes on. -/
theorem bounds_of_endsNames {α : Type} {a : Phrase α} (ha : endsNames a = true)
    (h : a.result call s c = .failed) : Bounds c.rest := by
  cases a with
  | one p =>
    intro x hx
    obtain ⟨rest, hrest⟩ := List.head?_eq_some_iff.mp hx
    rw [result_one, hrest] at h
    by_contra hname
    have hp := List.all_eq_true.mp ha x (mem_nameChars (by simpa using hname))
    simp [hp] at h
  | _ => cases ha

/-- **What is known behind a phrase**, if every rule that it calls is called at a clear place. -/
def standing : {α : Type} → Spacing → Phrase α → Standing → Option Standing
  | _, _, .one p, m => some (m.behind p)
  | _, _, .word w, m => some (w.foldl .next m)
  | _, _, .finish, m => some m
  | _, s, .rule _, m => if s = .free ∧ m ≠ .unclear then some .clear else none
  | _, s, .both a b, m => (standing s a m).bind fun k => standing s b (k.skip s)
  | _, s, .either a b, m => (standing s a m).bind fun k => (standing s b m).map k.join
  | _, s, .many a, m =>
    -- the strongest that one reading behind the other keeps
    ([.number, .clear, .unclear].find? fun k => m.join k = k &&
      (standing s a k).any (·.join k = k) && (standing s a (k.skip s)).any (·.join k = k)).map
        fun k => if s ≠ .free ∧ endsNames a then k.cut else k
  | _, s, .perhaps a, m => (standing s a m).map m.join
  | _, _, .unless a, m => (standing .quiet a m).map fun _ => if endsNames a then m.cut else m
  | _, s, .map _ a, m | _, s, .spanned a, m | _, s, .named a, m => standing s a m
  | _, _, .spaced s a, m => standing s a m

/-- Whether the classes of a phrase have characters of names only, unless they have one of the
others. -/
def Sampled : {α : Type} → Phrase α → Prop
  | _, .one p => otherSamples.any p = false → ∀ x, p x = true → isNameChar x = true
  | _, .word _ | _, .finish | _, .rule _ => True
  | _, .both a b => Sampled a ∧ Sampled b
  | _, .either a b => Sampled a ∧ Sampled b
  | _, .many a | _, .perhaps a | _, .unless a | _, .map _ a | _, .spanned a | _, .named a
  | _, .spaced _ a => Sampled a

/-- **Rules start and end at clear places.** -/
theorem Rule.standing_phrase {α : Type} (r : Rule α) :
    ∃ k, standing .free r.phrase .clear = some k ∧ k ≠ .unclear := by
  have hr : (standing .free r.phrase .clear).any (· ≠ .unclear) = true := by
    cases r <;> decide +kernel
  simpa only [Option.any_eq_true, decide_eq_true_eq] using hr

/-- The classes of the language are known by their samples. -/
theorem Rule.sampled_phrase {α : Type} (r : Rule α) : Sampled r.phrase := by
  cases r
  all_goals (repeat' apply And.intro)
  all_goals first
    | exact trivial
    | exact fun h => absurd h (by decide)
    | exact fun _ _ h => h
    | exact fun _ _ h => isNameChar_of_isNameStart h
    | exact fun _ _ h => isNameChar_of_isDigit h
    | exact fun _ _ h => isNameChar_of_isHexDigit h
    | exact fun _ _ h => isNameChar_of_binaryDigit h

/-! ## The same outcome -/

/-- **The same outcome**, with something that holds behind the match. -/
structure SameAt {α : Type} (P : Cursor → Prop) (o o' : Outcome α) : Prop where
  eq : o = o'
  behind : ∀ v n, o' = .matched v n → P n

namespace SameAt

variable {α β : Type} {P Q : Cursor → Prop} {o o' : Outcome α} {v : α}

theorem matched (h : P n) : SameAt P (.matched v n) (.matched v n) :=
  ⟨rfl, fun _ _ heq => by cases heq; exact h⟩

theorem failed : SameAt P (.failed : Outcome α) .failed := ⟨rfl, nofun⟩

theorem exhausted : SameAt P (.exhausted : Outcome α) .exhausted := ⟨rfl, nofun⟩

theorem imp (h : SameAt P o o') (hP : ∀ n, P n → Q n) : SameAt Q o o' :=
  ⟨h.eq, fun v n hn => hP n (h.behind v n hn)⟩

/-- Readings that go on alike from where it holds. -/
theorem andThen {f f' : α → Cursor → Outcome β} (h : SameAt P o o')
    (hf : ∀ v n, P n → SameAt Q (f v n) (f' v n)) : SameAt Q (o.andThen f) (o'.andThen f') := by
  obtain ⟨rfl, hP⟩ := h
  cases o with
  | matched v n => exact hf v n (hP v n rfl)
  | failed => exact .failed
  | exhausted => exact .exhausted

theorem map {g : α → β} (h : SameAt P o o') : SameAt P (o.map g) (o'.map g) :=
  h.andThen fun _ _ hn => .matched hn

/-- Readings that fall back alike. -/
theorem orElse {f f' : Unit → Outcome α} (h : SameAt P o o') (hf : SameAt P (f ()) (f' ())) :
    SameAt P (o.orElse f) (o'.orElse f') := by
  obtain ⟨rfl, hP⟩ := h
  cases o with
  | matched v n => exact .matched (hP v n rfl)
  | failed => exact hf
  | exhausted => exact .exhausted

/-- What single readings keep is kept by many. -/
theorem manyResult {read read' : Cursor → Outcome α}
    (hread : ∀ c, P c → SameAt P (read c) (read' c)) (fuel : Nat) (hc : P c) :
    SameAt P (Grammar.manyResult read fuel c) (Grammar.manyResult read' fuel c) := by
  induction fuel generalizing c with
  | zero => exact .matched hc
  | succ fuel ih =>
    obtain ⟨heq, hP⟩ := hread c hc
    unfold Grammar.manyResult
    rw [heq]
    cases hv : read' c with
    | failed => exact .matched hc
    | exhausted => exact .exhausted
    | matched v m =>
      obtain ⟨heq, hP⟩ := ih (hP v m hv)
      dsimp only
      rw [heq]
      cases hm : Grammar.manyResult read' fuel m with
      | matched vs n => exact .matched (hP vs n hm)
      | failed | exhausted => exact .exhausted

/-- As many as there are, where each of them is read alike. -/
theorem many {call' : {α : Type} → Rule α → Spacing → Cursor → Attempt α} {a : Phrase α}
    (hc : P c) (hfirst : SameAt P (a.result call s c) (a.result call' s c))
    (hagain : ∀ m, P m → SameAt P (a.again call s m) (a.again call' s m)) :
    SameAt P ((Form.many a).result call s c) ((Form.many a).result call' s c) := by
  rw [result_many, result_many]
  exact (hfirst.andThen fun v n hn => (manyResult hagain _ hn).map).orElse (.matched hc)

end SameAt

/-! ## Readers that heed the boundary -/

open Classical in
/-- **A reader that gives up** every rule at a place that is not clear. -/
noncomputable def heedful (W : List Char)
    (call : {α : Type} → Rule α → Spacing → Cursor → Attempt α) {α : Type} (r : Rule α)
    (s : Spacing) (c : Cursor) : Attempt α :=
  if Standing.clear.At W c then call r s c else ⟨.exhausted, 0⟩

/-- Heed leads on in the text as well. -/
theorem advancing_heedful (hcall : Advancing call) : Advancing (heedful W call) := by
  intro α r s c v n h
  by_cases hc : Standing.clear.At W c
  · simp only [heedful, if_pos hc] at h
    exact hcall r s c v n h
  · simp [heedful, if_neg hc] at h

/-- A rule is read, or the reader gives up. -/
theorem heedful_cases {α : Type} {r : Rule α} :
    (heedful W call r s c).outcome = (call r s c).outcome ∨
      (heedful W call r s c).outcome = .exhausted := by
  unfold heedful
  split
  · exact .inl rfl
  · exact .inr rfl

/-- Where it gives up, everything is alike. -/
theorem alike_heedful {α : Type} {E : α → α → Prop} {R : Cursor → Cursor → Prop} {o : Outcome α}
    {r : Rule α} (h : Standing.clear.At W c → Outcome.Alike E R o (call r s c).outcome) :
    Outcome.Alike E R o (heedful W call r s c).outcome := by
  unfold heedful
  split
  · exact h ‹_›
  · exact .exhausted_right _

/-- **A phrase is read alike with and without heed**, and what is known behind it is computed. -/
theorem sameAt_heedful (hcall : Advancing call)
    (hrules : ∀ {α : Type} (r : Rule α) {c n : Cursor} {v : α}, Standing.clear.At W c →
      (call r .free c).outcome = .matched v n → Standing.clear.At W n)
    {α : Type} (f : Phrase α) (hf : Sampled f) {m k : Standing} (hk : standing s f m = some k)
    (hc : m.At W c) :
    SameAt (k.At W) (f.result (heedful W call) s c) (f.result call s c) := by
  induction f generalizing s m k c with
  | one p =>
    cases hk
    rw [result_one, result_one]
    cases hrest : c.rest with
    | nil => exact .failed
    | cons x X =>
      dsimp only
      split
      · exact .matched (hc.behind hf hrest ‹_›)
      · exact .failed
  | word w =>
    cases hk
    rw [result_word, result_word]
    cases hafter : c.after? w with
    | none => exact .failed
    | some n =>
      obtain ⟨⟨X, hX⟩, rfl⟩ := Cursor.after?_eq_some hafter
      exact .matched (hc.word (.of_append hX.symm))
  | finish =>
    cases hk
    rw [result_finish, result_finish]
    split
    · exact .matched hc
    · exact .failed
  | rule r =>
    rw [standing] at hk
    split at hk
    · rename_i hclear
      obtain ⟨rfl, hm⟩ := hclear
      cases hk
      have hc : Standing.clear.At W c := hc.clear hm
      rw [result_rule, result_rule, heedful, if_pos hc]
      exact ⟨rfl, fun v n => hrules r hc⟩
    · cases hk
  | both a b iha ihb =>
    obtain ⟨k', ha, hb⟩ := Option.bind_eq_some_iff.mp hk
    rw [result_both, result_both]
    exact (iha hf.1 ha hc).andThen fun v n hn => (ihb hf.2 hb (hn.skip s)).map
  | either a b iha ihb =>
    obtain ⟨k', ha, hk⟩ := Option.bind_eq_some_iff.mp hk
    obtain ⟨k'', hb, rfl⟩ := Option.map_eq_some_iff.mp hk
    rw [result_either, result_either]
    exact ((iha hf.1 ha hc).imp fun _ => .join_left).orElse
      ((ihb hf.2 hb hc).imp fun _ => .join_right)
  | many a ih =>
    obtain ⟨k', hfind, rfl⟩ := Option.map_eq_some_iff.mp hk
    have hinv := List.find?_some hfind
    simp only [Bool.and_eq_true, decide_eq_true_eq, Option.any_eq_true] at hinv
    obtain ⟨⟨hm, j, hfirst, hj⟩, j', hmore, hj'⟩ := hinv
    have hstart : k'.At W c := hm ▸ hc.join_left
    have hmany : SameAt (k'.At W) ((Form.many a).result (heedful W call) s c)
        ((Form.many a).result call s c) :=
      .many hstart ((ih hf hfirst hstart).imp fun _ hn => hj ▸ hn.join_left) fun _ hm =>
        (ih hf hmore (hm.skip s)).imp fun _ hn => hj' ▸ hn.join_left
    split
    · rename_i hends
      refine ⟨hmany.eq, fun v n hv => (hmany.behind v n hv).cut ?_⟩
      have hskip (c : Cursor) : s.skip c = c := by
        cases s with
        | free => exact absurd rfl hends.1
        | tight | quiet => rfl
      have hend := (runs_of_many hcall (consumes_of_endsNames hends.2) (hskip c) hv).2
      rw [again, hskip] at hend
      exact bounds_of_endsNames hends.2 hend
    · exact hmany
  | perhaps a ih =>
    obtain ⟨k', ha, rfl⟩ := Option.map_eq_some_iff.mp hk
    rw [result_perhaps, result_perhaps]
    exact ((ih hf ha hc).map.imp fun _ => .join_right).orElse (.matched hc.join_left)
  | «unless» a ih =>
    obtain ⟨k', ha, rfl⟩ := Option.map_eq_some_iff.mp hk
    obtain ⟨heq, -⟩ := ih hf ha hc
    rw [result_unless, result_unless, heq]
    cases hread : a.result call .quiet c with
    | matched v n => exact .failed
    | exhausted => exact .exhausted
    | failed =>
      refine .matched ?_
      split
      · exact hc.cut (bounds_of_endsNames ‹_› hread)
      · exact hc
  | map g a ih =>
    rw [result_map, result_map]
    exact (ih hf hk hc).map
  | spanned a ih =>
    rw [result_spanned, result_spanned]
    exact (ih hf hk hc).andThen fun _ _ hn => .matched hn
  | named a ih =>
    rw [result_named, result_named]
    exact ih hf hk hc
  | spaced s' a ih => exact ih hf hk hc

/-- **A rule that starts at a clear place ends at one.** -/
theorem clear_of_follow {α : Type} (r : Rule α) {v : α} (hc : Standing.clear.At W c)
    (h : (follow fuel r .free c).outcome = .matched v n) : Standing.clear.At W n := by
  induction fuel generalizing α c n v with
  | zero => cases h
  | succ fuel ih =>
    obtain ⟨k, hk, hclear⟩ := r.standing_phrase
    have hsame := sameAt_heedful (advancing_follow fuel) (fun r _ _ _ => ih r) r.phrase
      r.sampled_phrase hk hc
    exact (hsame.behind v n h).clear hclear

/-- **Heed of the boundary makes no difference** from a clear place on. -/
theorem result_heedful {α : Type} {f : Phrase α} (hf : Sampled f)
    (hk : (standing .free f .clear).isSome = true) (hc : Standing.clear.At W c) :
    f.result (heedful W (follow fuel)) .free c = f.result (follow fuel) .free c := by
  obtain ⟨k, hk⟩ := Option.isSome_iff_exists.mp hk
  exact (sameAt_heedful (advancing_follow fuel) (fun r => clear_of_follow r) f hf hk hc).eq

/-- The definition of a rule is read alike with and without heed. -/
theorem Rule.result_heedful {α : Type} (r : Rule α) (hc : Standing.clear.At W c) :
    r.phrase.result (heedful W (follow fuel)) .free c = r.phrase.result (follow fuel) .free c := by
  obtain ⟨k, hk, -⟩ := r.standing_phrase
  exact Syntax.result_heedful r.sampled_phrase (Option.isSome_iff_exists.mpr ⟨k, hk⟩) hc

end ScriptTrace.Syntax
