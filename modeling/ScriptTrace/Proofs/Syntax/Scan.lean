import Mathlib.Logic.Relation
import ScriptTrace.Proofs.Grammar.Cursor

/-!
# Proofs/Syntax/Scan — how the characters of a text are told apart

A *scan* passes over a text and tells for every character what it belongs to: to a comment, a
string, the characters of a template, or the code.  From a place on it takes one way only
(`Scans.total`), and it is the same in front of another text if no comment begins where they meet
(`Scans.front`).
-/

namespace ScriptTrace.Syntax

open Grammar

/-- What the text at a place belongs to. -/
inductive Zone where
  | code
  | string (quote : Char)
  | template

/-- A bracket that is open. -/
inductive Bracket where
  | plain
  /-- The brace in front of a value in a template. -/
  | value

/-- A bracket that opens. -/
def isOpening (x : Char) : Bool := x = '(' || x = '[' || x = '\x7b'

/-- A bracket that closes. -/
def isClosing (x : Char) : Bool := x = ')' || x = ']' || x = '\x7d'

/-- A quote around a string. -/
def isQuote (x : Char) : Bool := x = '"' || x = '\''

/-- The characters that mean more than themselves: brackets, quotes, and the start of a comment. -/
def isMark (x : Char) : Bool := isOpening x || isClosing x || isQuote x || x = '`' || x = '/'

/-! ## Places -/

/-- A place of a text, with what it belongs to and the brackets that are open there. -/
structure Spot where
  zone : Zone
  opened : List Bracket
  rest : List Char

/-- A place of the code. -/
abbrev Spot.code (opened : List Bracket) (rest : List Char) : Spot := ⟨.code, opened, rest⟩

namespace Spot

/-- The next place behind a bracket that closes one. -/
def closed? (opened : List Bracket) (rest : List Char) : Option Spot :=
  match opened with
  | [] => none
  | .plain :: opened => some (.code opened rest)
  | .value :: opened => some ⟨.template, opened, rest⟩

/-- The next place behind a character of the code with which no comment begins. -/
def signNext? (opened : List Bracket) (x : Char) (rest : List Char) : Option Spot :=
  if isOpening x then some (.code (.plain :: opened) rest)
  else if isClosing x then closed? opened rest
  else if isQuote x then some ⟨.string x, opened, rest⟩
  else if x = '`' then some ⟨.template, opened, rest⟩
  else if x = '/' ∧ rest.head? = some '*' then none
  else some (.code opened rest)

/-- The next place of the code. -/
def codeNext? (opened : List Bracket) (x : Char) (rest : List Char) : Option Spot :=
  match commentLength? (x :: rest) with
  | some n => some (.code opened ((x :: rest).drop n))
  | none => signNext? opened x rest

/-- The next place behind a character of a string. -/
def stringNext (q : Char) (opened : List Bracket) (x : Char) (rest : List Char) : Spot :=
  if x = '\\' then ⟨.string q, opened, rest.tail⟩
  else if x = q then .code opened rest
  else ⟨.string q, opened, rest⟩

/-- The next place behind a character of a template. -/
def templateNext (opened : List Bracket) (x : Char) (rest : List Char) : Spot :=
  if x = '\\' then ⟨.template, opened, rest.tail⟩
  else if x = '`' then .code opened rest
  else if x = '$' ∧ rest.head? = some '\x7b' then .code (.value :: opened) rest.tail
  else ⟨.template, opened, rest⟩

/-- **The next place**: behind a comment, behind what is escaped, or behind one character.  A
bracket that closes none has no next place, and neither has the beginning of a comment that is
not closed. -/
def next? : Spot → Option Spot
  | ⟨_, _, []⟩ => none
  | ⟨.code, opened, x :: rest⟩ => codeNext? opened x rest
  | ⟨.string q, opened, x :: rest⟩ => some (stringNext q opened x rest)
  | ⟨.template, opened, x :: rest⟩ => some (templateNext opened x rest)

end Spot

variable {a b : Spot} {opened : List Bracket} {q x : Char} {X cs rest : List Char}
  {n : Nat}

theorem ne_slash_of_isOpening (h : isOpening x = true) : x ≠ '/' := by
  rintro rfl
  cases h

theorem ne_slash_of_isClosing (h : isClosing x = true) : x ≠ '/' := by
  rintro rfl
  cases h

theorem isOpening_of_isClosing (h : isClosing x = true) : isOpening x = false := by
  simp only [isClosing, Bool.or_eq_true, decide_eq_true_eq] at h
  obtain (rfl | rfl) | rfl := h <;> rfl

theorem isMark_of_isSpace (h : isSpace x = true) : isMark x = false := by
  simp only [isSpace, Bool.or_eq_true, decide_eq_true_eq] at h
  obtain ((((rfl | rfl) | rfl) | rfl) | rfl) | rfl := h <;> rfl

theorem Spot.next?_code : (Spot.code opened (x :: rest)).next? = codeNext? opened x rest := rfl

theorem Spot.next?_comment (h : commentLength? (x :: rest) = some n) :
    (Spot.code opened (x :: rest)).next? = some (.code opened ((x :: rest).drop n)) := by
  rw [next?_code, codeNext?, h]

theorem Spot.next?_of_no_comment (h : commentLength? (x :: rest) = none) :
    (Spot.code opened (x :: rest)).next? = signNext? opened x rest := by
  rw [next?_code, codeNext?, h]

theorem Spot.next?_sign (hx : x ≠ '/') :
    (Spot.code opened (x :: rest)).next? = signNext? opened x rest :=
  next?_of_no_comment (commentLength?_of_ne hx)

/-- A closing bracket closes one that is open; without one it ends a scan. -/
theorem Spot.next?_closing (h : isClosing x = true) :
    (Spot.code opened (x :: rest)).next? = closed? opened rest := by
  rw [next?_sign (ne_slash_of_isClosing h), signNext?, isOpening_of_isClosing h, h]
  rfl

/-- A slash that opens no comment is passed over, unless it only lacks the end of one. -/
theorem Spot.next?_slash (h : commentLength? ('/' :: rest) = none) :
    (Spot.code opened ('/' :: rest)).next? =
      if rest.head? = some '*' then none else some (.code opened rest) := by
  rw [next?_of_no_comment h]
  simp [signNext?, isOpening, isClosing, isQuote]

theorem Spot.next?_string :
    (⟨.string q, opened, x :: rest⟩ : Spot).next? = some (stringNext q opened x rest) := rfl

theorem Spot.next?_template :
    (⟨.template, opened, x :: rest⟩ : Spot).next? = some (templateNext opened x rest) := rfl

/-- The next place is further on in the text. -/
theorem Spot.next?_suffix (h : a.next? = some b) :
    b.rest <:+ a.rest ∧ b.rest.length < a.rest.length := by
  obtain ⟨zone, opened, _ | ⟨x, rest⟩⟩ := a
  · cases zone <;> cases h
  have hsuffix : rest <:+ x :: rest ∧ rest.length < (x :: rest).length :=
    ⟨List.suffix_cons x rest, Nat.lt_succ_self _⟩
  have htail : rest.tail <:+ x :: rest ∧ rest.tail.length < (x :: rest).length := by
    refine ⟨(List.tail_suffix rest).trans hsuffix.1, ?_⟩
    rw [List.length_tail, List.length_cons]
    omega
  cases zone with
  | code =>
    cases hc : commentLength? (x :: rest) with
    | some n =>
      have hbounds := commentLength?_bounds hc
      rw [next?_comment hc] at h
      cases h
      refine ⟨List.drop_suffix n _, ?_⟩
      simp only [List.length_drop, List.length_cons] at hbounds ⊢
      omega
    | none =>
      rw [next?_of_no_comment hc, signNext?] at h
      split_ifs at h <;> try (cases h; exact hsuffix)
      obtain _ | ⟨_ | _, opened⟩ := opened <;> cases h
      · exact hsuffix
      · exact hsuffix
  | string q =>
    rw [next?_string, stringNext] at h
    split_ifs at h <;> cases h
    · exact htail
    · exact hsuffix
    · exact hsuffix
  | template =>
    rw [next?_template, templateNext] at h
    split_ifs at h <;> cases h
    · exact htail
    · exact hsuffix
    · exact htail
    · exact hsuffix

/-! ## Scans -/

/-- **A scan from one place to another.** -/
abbrev Scans : Spot → Spot → Prop := Relation.ReflTransGen fun a b => a.next? = some b

/-- A scan that is in some zones on its way. -/
abbrev ScansIn (P : Zone → Prop) : Spot → Spot → Prop :=
  Relation.ReflTransGen fun a b => P a.zone ∧ a.next? = some b

namespace Scans

variable {c : Spot}

theorem next (h : a.next? = some b) : Scans a b := .single h

/-- A scan goes forward in the text. -/
theorem suffix (h : Scans a b) : b.rest <:+ a.rest := by
  induction h with
  | refl => exact List.suffix_refl _
  | tail _ hnext ih => exact (Spot.next?_suffix hnext).1.trans ih

/-- A scan that passes no character stays where it is. -/
theorem eq_of_length (h : Scans a b) (hlength : a.rest.length ≤ b.rest.length) : a = b := by
  obtain rfl | ⟨c, hnext, hmore⟩ := Relation.ReflTransGen.cases_head h
  · rfl
  · have hc := (Spot.next?_suffix hnext).2
    have hb := (suffix hmore).length_le
    omega

/-- **A scan takes one way only.** -/
theorem total (h : Scans a b) (h' : Scans a c) : Scans b c ∨ Scans c b :=
  Relation.ReflTransGen.total_of_right_unique
    (fun _ _ _ h h' => Option.some.inj (h.symm.trans h')) h h'

/-- Of two places that a scan passes the one comes first that has more text behind it. -/
theorem of_length_le (h : Scans a b) (h' : Scans a c)
    (hlength : c.rest.length ≤ b.rest.length) : Scans b c := by
  obtain hbc | hcb := total h h'
  · exact hbc
  · rw [eq_of_length hcb hlength]

/-- **A scan ends where there is no next place.** -/
theorem of_stuck (h : Scans a b) (h' : Scans a c) (hb : b.next? = none) : Scans c b := by
  obtain hbc | hcb := total h h'
  · obtain rfl | ⟨d, hnext, -⟩ := Relation.ReflTransGen.cases_head hbc
    · exact .refl
    · cases hb.symm.trans hnext
  · exact hcb

/-! ### The code -/

theorem comment (h : commentLength? (x :: rest) = some n) :
    Scans (.code opened (x :: rest)) (.code opened ((x :: rest).drop n)) :=
  next (Spot.next?_comment h)

/-- A bracket that opens is remembered. -/
theorem opening (h : isOpening x = true) :
    Scans (.code opened (x :: rest)) (.code (.plain :: opened) rest) := by
  refine next ?_
  rw [Spot.next?_sign (ne_slash_of_isOpening h), Spot.signNext?, if_pos h]

theorem closing (h : isClosing x = true) :
    Scans (.code (.plain :: opened) (x :: rest)) (.code opened rest) := next (Spot.next?_closing h)

/-- Behind its value a template goes on. -/
theorem closing_value (h : isClosing x = true) :
    Scans (.code (.value :: opened) (x :: rest)) ⟨.template, opened, rest⟩ :=
  next (Spot.next?_closing h)

/-- A quote opens a string. -/
theorem quote (h : isQuote x = true) :
    Scans (.code opened (x :: rest)) ⟨.string x, opened, rest⟩ := by
  simp only [isQuote, Bool.or_eq_true, decide_eq_true_eq] at h
  obtain rfl | rfl := h <;> exact next rfl

theorem backtick : Scans (.code opened ('`' :: rest)) ⟨.template, opened, rest⟩ := next rfl

/-- A plain character is passed over. -/
theorem plain (h : isMark x = false) : Scans (.code opened (x :: rest)) (.code opened rest) := by
  simp only [isMark, Bool.or_eq_false_iff, decide_eq_false_iff_not] at h
  refine next ?_
  rw [Spot.next?_sign h.2]
  simp [Spot.signNext?, h]

/-- A slash that begins no comment. -/
theorem slash (hc : commentLength? ('/' :: rest) = none) (hstar : rest.head? ≠ some '*') :
    Scans (.code opened ('/' :: rest)) (.code opened rest) :=
  next (by rw [Spot.next?_slash hc, if_neg hstar])

/-- **Space and comments** are passed over in the code. -/
theorem blank (cs : List Char) :
    Scans (.code opened cs) (.code opened (cs.drop (blankLength cs))) := by
  induction cs using blankLength_induction with
  | nil => exact .refl
  | space x rest hx ih =>
    rw [blankLength_of_space hx, Nat.add_comm, List.drop_succ_cons]
    exact (plain (isMark_of_isSpace hx)).trans ih
  | comment x rest n hx hc ih =>
    rw [blankLength_of_comment hx hc, ← List.drop_drop]
    exact (comment hc).trans ih
  | solid x rest hx hc =>
    rw [blankLength_of_solid hx hc, List.drop_zero]

end Scans

/-! ### Strings and templates -/

namespace ScansIn

variable {P : Zone → Prop} {e : Spot}

theorem next (hP : P a.zone) (h : a.next? = some b) : ScansIn P a b := .single ⟨hP, h⟩

theorem scans (h : ScansIn P a b) : Scans a b :=
  Relation.ReflTransGen.mono (fun _ _ => And.right) _ _ h

/-- A scan to another zone leads through the whole of it. -/
theorem go_on (h : ScansIn P a b) (he : ¬ P e.zone) (h' : Scans a e) : Scans b e := by
  induction h with
  | refl => exact h'
  | tail _ hnext ih =>
    obtain rfl | ⟨d, hnext', hmore⟩ := Relation.ReflTransGen.cases_head ih
    · exact absurd hnext.1 he
    · cases hnext.2.symm.trans hnext'
      exact hmore

theorem string_backslash :
    ScansIn (· = .string q) ⟨.string q, opened, '\\' :: rest⟩ ⟨.string q, opened, rest.tail⟩ :=
  next rfl rfl

theorem string_quote (hq : q ≠ '\\') :
    ScansIn (· = .string q) ⟨.string q, opened, q :: rest⟩ (.code opened rest) :=
  next rfl (by simp [Spot.next?_string, Spot.stringNext, hq])

theorem string_plain (hx : x ≠ '\\') (hq : x ≠ q) :
    ScansIn (· = .string q) ⟨.string q, opened, x :: rest⟩ ⟨.string q, opened, rest⟩ :=
  next rfl (by simp [Spot.next?_string, Spot.stringNext, hx, hq])

theorem template_backslash :
    ScansIn (· = .template) ⟨.template, opened, '\\' :: rest⟩ ⟨.template, opened, rest.tail⟩ :=
  next rfl rfl

theorem template_backtick :
    ScansIn (· = .template) ⟨.template, opened, '`' :: rest⟩ (.code opened rest) := next rfl rfl

theorem template_value :
    ScansIn (· = .template) ⟨.template, opened, '$' :: '\x7b' :: rest⟩
      (.code (.value :: opened) rest) := next rfl rfl

theorem template_plain (hx : x ≠ '\\') (hq : x ≠ '`')
    (hvalue : ¬ (x = '$' ∧ rest.head? = some '\x7b')) :
    ScansIn (· = .template) ⟨.template, opened, x :: rest⟩ ⟨.template, opened, rest⟩ :=
  next rfl
    (by simp only [Spot.next?_template, Spot.templateNext, if_neg hx, if_neg hq, if_neg hvalue])

end ScansIn

/-! ## Another text behind -/

section

variable {u r X Y : List Char} {zone : Zone} {outer : List Bracket}

/-- A block comment that ends in front of the seam does so whatever is behind. -/
theorem blockCommentLength?_front (h : blockCommentLength? (u ++ X) = some n)
    (hn : n ≤ u.length) : blockCommentLength? (u ++ Y) = some n := by
  induction u generalizing n with
  | nil =>
    have hbounds := blockCommentLength?_bounds h
    exact absurd (hbounds.1.trans hn) (by decide)
  | cons x u ih =>
    cases u with
    | nil =>
      have hbounds := blockCommentLength?_bounds h
      simp only [List.length_singleton] at hn
      omega
    | cons y u =>
      by_cases hmark : x = '*' ∧ y = '/'
      · obtain ⟨rfl, rfl⟩ := hmark
        exact h
      · have hnext (X : List Char) : blockCommentLength? (x :: y :: u ++ X) =
            (blockCommentLength? (y :: u ++ X)).map (· + 1) := by
          rw [List.cons_append, List.cons_append, blockCommentLength?]
          exact fun _ hx hrest => hmark ⟨hx, (List.cons.inj hrest).1⟩
        rw [hnext] at h ⊢
        obtain ⟨k, hk, rfl⟩ := Option.map_eq_some_iff.mp h
        rw [ih hk (Nat.le_of_succ_le_succ hn)]
        rfl

/-- A comment that ends in front of a text ends there in front of others, unless it is the text that
ends a line. -/
theorem commentLength?_front
    (hline : (∀ x ∈ X.head?, x = '\n') → ∀ y ∈ Y.head?, y = '\n')
    (h : commentLength? (u ++ X) = some n) (hn : n ≤ u.length) :
    commentLength? (u ++ Y) = some n := by
  have hbounds := commentLength?_bounds h
  obtain _ | ⟨x, _ | ⟨y, u⟩⟩ := u
  · exact absurd (hbounds.1.trans hn) (by decide)
  · simp only [List.length_singleton] at hn
    omega
  simp only [List.cons_append] at h ⊢
  unfold commentLength? at h
  split at h
  · rename_i heq
    simp only [List.cons.injEq] at heq
    obtain ⟨rfl, rfl, rfl⟩ := heq
    obtain rfl := Option.some.inj h
    have hends {Z : List Char} : Z.takeWhile (· ≠ '\n') = [] ↔ ∀ z ∈ Z.head?, z = '\n' := by
      cases Z with
      | nil => simp
      | cons z Z => by_cases hz : z = '\n' <;> simp [hz]
    have hsame : (u ++ X).takeWhile (· ≠ '\n') = (u ++ Y).takeWhile (· ≠ '\n') := by
      simp only [List.takeWhile_append]
      split
      · rename_i hall
        rw [List.takeWhile_append, if_pos hall] at hn
        simp only [List.length_append, List.length_cons] at hn
        have hX : X.takeWhile (· ≠ '\n') = [] := List.eq_nil_of_length_eq_zero (by omega)
        rw [hX, hends.mpr (hline (hends.mp hX))]
      · rfl
    exact congrArg (fun l => some (2 + l.length)) hsame.symm
  · rename_i heq
    simp only [List.cons.injEq] at heq
    obtain ⟨rfl, rfl, rfl⟩ := heq
    obtain ⟨k, hk, rfl⟩ := Option.map_eq_some_iff.mp h
    have hfront := blockCommentLength?_front (Y := Y) hk (by simpa using hn)
    exact congrArg (Option.map (· + 2)) hfront
  · cases h

/-- **One text may stand for another** behind what a scan has passed: it ends a line if the other
one does, and begins with nothing that makes a comment of a slash. -/
structure StandsFor (Y X : List Char) : Prop where
  line : (∀ x ∈ X.head?, x = '\n') → ∀ y ∈ Y.head?, y = '\n'
  slash : ∀ y ∈ Y.head?, y ≠ '/' ∧ y ≠ '*'

/-- Where no comment begins in front of the one text, none begins in front of the other. -/
theorem StandsFor.commentLength?_eq_none (hY : StandsFor Y X)
    (h : commentLength? (x :: (u ++ X)) = none) (hstar : x = '/' → (u ++ X).head? ≠ some '*') :
    commentLength? (x :: (u ++ Y)) = none := by
  by_cases hx : x = '/'
  · subst hx
    obtain ⟨y, t, hrest⟩ | hnil : (∃ y t, u ++ Y = y :: t) ∨ u ++ Y = [] := by
      cases u ++ Y with
      | nil => exact .inr rfl
      | cons y t => exact .inl ⟨y, t, rfl⟩
    · have hy : y ≠ '/' ∧ y ≠ '*' := by
        cases u with
        | nil => exact hY.slash y (by rw [show Y = y :: t from hrest]; rfl)
        | cons z u =>
          obtain ⟨rfl, -⟩ := List.cons.inj hrest
          refine ⟨?_, fun heq => hstar rfl (by rw [heq]; rfl)⟩
          rintro rfl
          cases h
      rw [hrest, commentLength?]
      · exact fun _ heq => hy.1 (List.cons.inj (List.cons.inj heq).2).1
      · exact fun _ heq => hy.2 (List.cons.inj (List.cons.inj heq).2).1
    · rw [hnil]
      rfl
  · exact commentLength?_of_ne hx

/-- **The next place is the same** in front of a text that may stand for another. -/
theorem Spot.next?_front (hY : StandsFor Y X) {zone' : Zone} {opened' : List Bracket}
    {t : List Char}
    (h : (⟨zone, opened, x :: (r ++ X)⟩ : Spot).next? = some ⟨zone', opened', t ++ X⟩)
    (ht : t = [] → zone' = .code) :
    (⟨zone, opened, x :: (r ++ Y)⟩ : Spot).next? = some ⟨zone', opened', t ++ Y⟩ := by
  have hlt := (next?_suffix h).2
  simp only [List.length_append, List.length_cons] at hlt
  -- Behind what is escaped there is still text in front of the seam.
  have htail (hne : t ≠ []) (htail : (r ++ X).tail = t ++ X) : (r ++ Y).tail = t ++ Y := by
    cases r with
    | nil =>
      have hlength := congrArg List.length htail
      have hpos := List.length_pos_iff.mpr hne
      simp only [List.nil_append, List.length_tail, List.length_append] at hlength
      omega
    | cons y r => exact congrArg (· ++ Y) (List.append_cancel_right htail)
  cases zone with
  | code =>
    cases hc : commentLength? (x :: (r ++ X)) with
    | some n =>
      rw [next?_comment hc] at h
      simp only [Option.some.injEq, Spot.mk.injEq] at h
      obtain ⟨rfl, rfl, hdrop⟩ := h
      have hlength := congrArg List.length hdrop
      have hbounds := commentLength?_bounds hc
      simp only [List.length_drop, List.length_append, List.length_cons] at hlength hbounds
      have hle : n ≤ (x :: r).length := by
        simp only [List.length_cons]
        omega
      have hc' : commentLength? (x :: (r ++ Y)) = some n :=
        commentLength?_front (u := x :: r) hY.line hc hle
      rw [← List.cons_append, List.drop_append_of_le_length hle] at hdrop
      rw [next?_comment hc', ← List.cons_append, List.drop_append_of_le_length hle,
        List.append_cancel_right hdrop]
    | none =>
      have hstar (hx : x = '/') : (r ++ X).head? ≠ some '*' := by
        subst hx
        intro hhead
        rw [next?_slash hc, if_pos hhead] at h
        cases h
      have hstar' : ¬ (x = '/' ∧ (r ++ Y).head? = some '*') := by
        rintro ⟨rfl, hhead⟩
        cases r with
        | nil => exact (hY.slash '*' hhead).2 rfl
        | cons y r => exact hstar rfl hhead
      have hstar : ¬ (x = '/' ∧ (r ++ X).head? = some '*') := fun h => hstar h.1 h.2
      have hc' := hY.commentLength?_eq_none hc fun hx hhead => hstar ⟨hx, hhead⟩
      rw [next?_of_no_comment hc, signNext?, if_neg hstar] at h
      rw [next?_of_no_comment hc', signNext?, if_neg hstar']
      obtain _ | ⟨_ | _, opened⟩ := opened <;> split_ifs at h ⊢ <;>
        simp only [closed?, reduceCtorEq, Option.some.injEq, Spot.mk.injEq,
          List.append_cancel_right_eq] at h ⊢ <;> exact h
  | string q =>
    simp only [next?_string, stringNext] at h ⊢
    split_ifs at h ⊢
    · simp only [Option.some.injEq, Spot.mk.injEq] at h ⊢
      obtain ⟨rfl, rfl, hrest⟩ := h
      exact ⟨rfl, rfl, htail (fun hnil => nomatch ht hnil) hrest⟩
    all_goals simpa using h
  | template =>
    by_cases hx : x = '\\' ∨ x = '`'
    · simp only [next?_template, templateNext] at h ⊢
      obtain rfl | rfl := hx
      · simp only [if_true, Option.some.injEq, Spot.mk.injEq] at h ⊢
        obtain ⟨rfl, rfl, hrest⟩ := h
        exact ⟨rfl, rfl, htail (fun hnil => nomatch ht hnil) hrest⟩
      · simpa using h
    · simp only [not_or] at hx
      simp only [next?_template, templateNext, hx, if_false] at h ⊢
      cases r with
      | nil =>
        split_ifs at h
        · simp only [Option.some.injEq, Spot.mk.injEq] at h
          have hlength := congrArg List.length h.2.2
          simp only [List.nil_append, List.length_tail, List.length_append] at hlength
          obtain ⟨X', rfl⟩ := List.head?_eq_some_iff.mp ‹_ ∧ _›.2
          simp at hlength
          omega
        · simp only [Option.some.injEq, Spot.mk.injEq] at h
          have hnil : t = [] := by simpa using h.2.2.symm
          cases h.1.trans (ht hnil)
      | cons y r =>
        by_cases hvalue : x = '$' ∧ y = '\x7b'
        · simpa [hvalue] using h
        · simp only [List.cons_append, List.head?_cons, Option.some.injEq, hvalue, if_false,
            Spot.mk.injEq] at h ⊢
          refine ⟨h.1, h.2.1, ?_⟩
          exact congrArg (· ++ Y) (List.append_cancel_right (show y :: r ++ X = t ++ X from h.2.2))

/-- **A scan goes the same way in front of a text that may stand for another.** -/
theorem Scans.front (hY : StandsFor Y X)
    (h : Scans ⟨zone, opened, r ++ X⟩ (.code outer X)) :
    Scans ⟨zone, opened, r ++ Y⟩ (.code outer Y) := by
  induction hk : r.length using Nat.strong_induction_on generalizing r zone opened with
  | _ k ih =>
    subst hk
    cases r with
    | nil =>
      cases h.eq_of_length le_rfl
      exact .refl
    | cons x r =>
      obtain heq | ⟨⟨zone', opened', rest'⟩, hnext, hmore⟩ := Relation.ReflTransGen.cases_head h
      · have hlength := congrArg (fun a : Spot => a.rest.length) heq
        simp at hlength
        omega
      replace hmore : Scans ⟨zone', opened', rest'⟩ (.code outer X) := hmore
      obtain ⟨t, rfl⟩ := hmore.suffix
      have hlt := (Spot.next?_suffix hnext).2
      simp only [List.cons_append, List.length_append, List.length_cons] at hlt
      refine .head (Spot.next?_front hY hnext ?_)
        (ih t.length (by simp only [List.length_cons]; omega) hmore rfl)
      rintro rfl
      cases hmore.eq_of_length le_rfl
      rfl

end

end ScriptTrace.Syntax
