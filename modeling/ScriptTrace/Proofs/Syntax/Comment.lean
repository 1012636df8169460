import ScriptTrace.Proofs.Syntax.Abreast
import ScriptTrace.Proofs.Syntax.Boundary
import ScriptTrace.Proofs.Syntax.Line
import ScriptTrace.Proofs.Syntax.Program

/-!
# Proofs/Syntax/Comment — comments as blanks

A block comment in one line and a space in its place give the same program, up to the columns of its
places and the excerpts of its statements (`comment_is_blank`).  There is one exception, the
statements that end with their line, because they skip the spaces of their line but no comment
(`Hides`).  Their words are words by themselves: what follows a longer name is not hidden, since
rules are read at clear places only.
-/

namespace ScriptTrace.Syntax

open Grammar
open Grammar.Form
open Phrase
open Located

/-- **A block comment in one line.** -/
structure IsComment (C : List Char) : Prop where
  block : ['/', '*'] <+: C
  closed : commentLength? C = some C.length
  line : '\n' ∉ C

/-- Where a comment or a space stands in front of the same text. -/
def commentSeam (u : List Char) (outer : List Bracket) (C v : List Char) : Seam :=
  ⟨u, outer, C ++ v, ' ' :: v⟩

/-- The lines of places are kept, columns and excerpts are not. -/
def Relocation.toLine : Relocation := ⟨fun p => ⟨p.line, 0⟩, fun _ => ""⟩

/-- What is the same but for columns and excerpts. -/
abbrev sameLine : Correspondence Rule := Relocation.toLine.correspondence .toLine

theorem position_sameLine {p p' : Position} : sameLine.position p p' ↔ p.line = p'.line := by
  simp [sameLine, Relocation.correspondence, Relocation.toLine]

/-- Places in the same line stay so with every character that both texts share. -/
theorem steady_toLine : sameLine.Steady := by
  refine ⟨fun {p p'} x h => ?_, fun _ => rfl⟩
  rw [position_sameLine] at h ⊢
  simp only [Position.step]
  split <;> simp [h]

variable {C u v w X : List Char} {outer opened : List Bracket} {c c' n n' : Cursor}
  {fuel fuel' : Nat}

/-- No line ends in a text without line feeds. -/
theorem line_of_over (h : c.Over w n) (hw : '\n' ∉ w) : n.position.line = c.position.line := by
  induction w generalizing c with
  | nil =>
    obtain rfl := h.eq_advance
    rfl
  | cons x w ih =>
    obtain ⟨hrest, hmore⟩ := Cursor.Over.cons_iff.mp h
    simp only [List.mem_cons, not_or] at hw
    rw [ih hmore hw.2, Cursor.step_of_cons hrest, Position.step, if_neg (Ne.symm hw.1)]

namespace IsComment

variable (hC : IsComment C)
include hC

/-- A block comment begins with its mark and reaches to its end. -/
theorem exists_eq : ∃ D, C = '/' :: '*' :: D ∧ blockCommentLength? D = some D.length := by
  obtain ⟨D, rfl⟩ := hC.block
  have hclosed := hC.closed
  refine ⟨D, rfl, ?_⟩
  simp only [List.cons_append, List.nil_append, commentLength?, List.length_cons,
    Option.map_eq_some_iff] at hclosed
  obtain ⟨k, hk, hlength⟩ := hclosed
  obtain rfl : k = D.length := by omega
  exact hk

/-- It is the comment at the front of what it stands in front of. -/
theorem commentLength?_append (v : List Char) : commentLength? (C ++ v) = some C.length := by
  obtain ⟨D, rfl, hD⟩ := hC.exists_eq
  have hfront : blockCommentLength? (D ++ v) = some D.length :=
    blockCommentLength?_front (X := []) (by rwa [List.append_nil]) le_rfl
  simp only [List.cons_append, commentLength?, hfront, Option.map_some, List.length_cons]

/-- A comment is skipped with the space behind it. -/
theorem blankLength_append (v : List Char) : blankLength (C ++ v) = C.length + blankLength v := by
  have hcomment := hC.commentLength?_append v
  obtain ⟨D, rfl, -⟩ := hC.exists_eq
  rw [List.cons_append] at hcomment ⊢
  rw [blankLength_of_comment rfl hcomment, ← List.cons_append, List.drop_left]

/-- Nothing stands there that starts with another character. -/
theorem token_failed {call : {α : Type} → Rule α → Spacing → Cursor → Attempt α} {s : Spacing}
    {k : String} {y : Char} {t : List Char} (hc : c.rest = C ++ v) (hk : k.toList = y :: t)
    (hy : y ≠ '/') : (token k : Phrase Unit).result call s c = .failed := by
  obtain ⟨D, rfl, -⟩ := hC.exists_eq
  exact token_other hc hk hy

/-- No name begins with a comment. -/
theorem name_failed {call : {α : Type} → Rule α → Spacing → Cursor → Attempt α} {s : Spacing}
    (hc : c.rest = C ++ v) : name.result call s c = .failed := by
  obtain ⟨D, rfl, -⟩ := hC.exists_eq
  obtain ⟨rest, o, p⟩ := c
  obtain rfl : rest = _ := hc
  rw [name, atom, result_fmap, result_named, result_spaced]
  rfl

/-- No value begins with the comment. -/
theorem bare (hc : c.rest = C ++ v) : Bare c := by
  have harrow {fuel : Nat} : Phrase.arrow.result (follow fuel) .free c = .failed := by
    simp only [Phrase.arrow, arrowParameters, result_fmap, result_placed, result_named,
      result_both, result_seqLeft, result_seqRight, result_orElse, hC.name_failed hc,
      hC.token_failed (k := "(") hc rfl (by decide), Outcome.map_failed, Outcome.andThen_failed,
      Outcome.orElse_failed]
  have hfront {fuel : Nat} : frontOperator.result (follow fuel) .free c = .failed := by
    obtain ⟨D, rfl, -⟩ := hC.exists_eq
    obtain ⟨rest, o, p⟩ := c
    obtain rfl : rest = _ := hc
    rfl
  exact ⟨by simp [hfront], by simp [harrow]⟩

/-- A space stands for a comment. -/
theorem standsFor : StandsFor (' ' :: v) (C ++ v) := by
  obtain ⟨D, rfl, -⟩ := hC.exists_eq
  refine ⟨fun h => absurd (h '/' rfl) (by decide), ?_⟩
  rintro _ ⟨⟩
  decide

/-- What is read before a comment ends there. -/
theorem ends : Seam.Ends ['/', ' '] outer (C ++ v) := by
  have hcomment := hC.commentLength?_append v
  obtain ⟨D, rfl, -⟩ := hC.exists_eq
  refine ⟨⟨'/', _, rfl, .inl (by decide)⟩, ?_, ?_, fun _ _ h => ?_⟩
  · rintro _ ⟨⟩ h
    cases h
  · rintro _ ⟨⟩
    decide
  · cases h.symm.trans hcomment

/-- The comment is a blank. -/
theorem skipBlanks_advance (hc : c.rest = C ++ v) :
    (c.advance C.length).skipBlanks = c.skipBlanks :=
  Syntax.skipBlanks_advance (by rw [hc, List.drop_left, hC.blankLength_append])

/-- **Behind the comment and behind the space** the same text stands in the same line. -/
theorem elsewhere_behind (h : Cursor.Abreast (C ++ v) (' ' :: v) c c') (hc : c.rest = C ++ v) :
    (c.advance C.length).rest = v ∧ sameLine.Elsewhere (c.advance C.length) c'.step := by
  have hc' : c'.rest = [' '] ++ v := by
    obtain ⟨u, hu, hu'⟩ := h.front
    obtain rfl : u = [] := List.append_left_eq_self.mp (hu.symm.trans hc)
    exact hu'
  have hover : c.Over C (c.advance C.length) := .of_append hc
  have hover' : c'.Over [' '] c'.step := .of_append hc'
  have hrest : (c.advance C.length).rest = v := by rw [Cursor.rest_advance, hc, List.drop_left]
  refine ⟨hrest, ?_, ?_⟩
  · rw [hrest, Cursor.rest_step, hc']
    rfl
  · have hline := line_of_over hover hC.line
    have hline' := line_of_over hover' (by decide)
    rw [position_sameLine, hline, hline', h.position_eq]

/-- **Blanks are skipped in the same way** up to the comment, and together with it. -/
theorem skip (h : (commentSeam w outer C v).Ahead .code opened c c') :
    (commentSeam w outer C v).Meets sameLine.Elsewhere .free .code opened c.skipBlanks
      c'.skipBlanks := by
  obtain ⟨u, hu, hu'⟩ := h.abreast.front
  obtain ⟨hle, heq⟩ | ⟨heq, heq'⟩ := blankLength_front hC.standsFor (hu ▸ h.left)
  · refine .inl (h.onward ?_ (Scans.skip .free) (Scans.skip .free))
    have hblank : blankLength c'.rest = blankLength c.rest := by
      rw [hu, hu']
      exact heq
    change Cursor.Abreast _ _ (c.advance _) (c'.advance _)
    rw [hblank]
    exact h.abreast.advance hu (hu ▸ hle)
  · refine .inr ⟨nofun, ?_⟩
    have hseam := h.abreast.advance hu le_rfl
    have hrest : (c.advance u.length).rest = C ++ v := by
      rw [Cursor.rest_advance, hu, List.drop_left]
      rfl
    have hbehind := (hC.elsewhere_behind hseam hrest).2.skip steady_toLine .free
    have hrest' : (c'.advance u.length).rest = ' ' :: v := by
      rw [Cursor.rest_advance, hu', List.drop_left]
      rfl
    rw [Spacing.skip, Spacing.skip, hC.skipBlanks_advance hrest,
      ← Cursor.skipBlanks_of_space hrest'] at hbehind
    rwa [Syntax.skipBlanks_advance (by rw [hu, List.drop_left]; exact heq),
      Syntax.skipBlanks_advance (by rw [hu', List.drop_left]; exact heq')] at hbehind

end IsComment

/-- What is read before a space ends there. -/
theorem ends_space : Seam.Ends ['/', ' '] outer (' ' :: v) := by
  refine ⟨⟨' ', v, rfl, .inl (by decide)⟩, ?_, ?_, nofun⟩
  · rintro _ ⟨⟩ h
    cases h
  · rintro _ ⟨⟩
    decide

/-- A slash in front of a comment makes another one of it. -/
theorem Scans.ne_slash {x : Char} {D : List Char}
    (h : Scans (.code opened (x :: '/' :: D)) (.code outer ('/' :: D))) : x ≠ '/' := by
  rintro rfl
  obtain heq | ⟨b, hnext, hmore⟩ := Relation.ReflTransGen.cases_head h
  · have hlength := congrArg (fun a : Spot => a.rest.length) heq
    simp at hlength
  · rw [Spot.next?_comment rfl, Option.some.injEq] at hnext
    subst hnext
    have hlength := (Scans.suffix hmore).length_le
    simp only [List.length_drop, List.length_cons] at hlength
    omega

/-! ## The spaces of a line in front of a comment -/

/-- **At the comment, and behind the spaces of the line** in its place. -/
structure Parted (C v : List Char) (c c' : Cursor) : Prop where
  left : c.rest = C ++ v
  right : c'.rest = lineRest v
  position : sameLine.position c.position c'.position
  behind : sameLine.Elsewhere c.skipBlanks c'.skipBlanks

/-- The spaces of a line are passed over in the code. -/
theorem Scans.skipLine (c : Cursor) :
    Scans (.code opened c.rest) (.code opened (skipLine c).rest) := by
  have hend : endsInSlash (Form.many lineSpace) = false := by decide
  have hread := result_lineSpaces (c := c) (advancing_follow 0)
  have hnesting : nesting .tight false (Form.many lineSpace) 0 = some 0 := by decide
  exact (keeps_follow 0).of_matched _ hnesting (by decide) nofun (by simp [hend]) hread

/-- **The same spaces of a line stand in front**, unless they lead to the comment. -/
theorem IsComment.skipLine (hC : IsComment C)
    (h : (commentSeam w outer C v).Ahead .code opened c c') :
    (lineSpaces c.rest = lineSpaces c'.rest ∧
      (commentSeam w outer C v).Ahead .code opened (skipLine c) (skipLine c') ∧
      ∃ x t, (skipLine c).rest = x :: t ++ (C ++ v) ∧ (skipLine c').rest = x :: t ++ ' ' :: v) ∨
    Parted C v (Syntax.skipLine c) (Syntax.skipLine c') := by
  obtain ⟨u, hu, hu'⟩ := h.abreast.front
  replace hu : c.rest = u ++ (C ++ v) := hu
  replace hu' : c'.rest = u ++ ' ' :: v := hu'
  have htake (X : List Char) : lineSpaces (u ++ X) =
      if (lineSpaces u).length = u.length then u ++ lineSpaces X else lineSpaces u :=
    List.takeWhile_append
  have hdrop (X : List Char) : lineRest (u ++ X) =
      if (lineRest u).isEmpty then lineRest X else lineRest u ++ X := List.dropWhile_append
  have hlength : (lineSpaces u).length + (lineRest u).length = u.length := by
    rw [← List.length_append, lineSpaces, lineRest, List.takeWhile_append_dropWhile]
  have hrest := rest_skipLine c
  have hrest' := rest_skipLine c'
  rw [hu, hdrop] at hrest
  rw [hu', hdrop] at hrest'
  cases hline : lineRest u with
  | cons x t =>
    left
    rw [hline, List.length_cons] at hlength
    rw [hline] at hrest hrest'
    have hspaces : lineSpaces c.rest = lineSpaces u ∧ lineSpaces c'.rest = lineSpaces u := by
      rw [hu, hu', htake, htake, if_neg (by omega), if_neg (by omega)]
      exact ⟨rfl, rfl⟩
    refine ⟨hspaces.1.trans hspaces.2.symm, h.onward ?_ (.skipLine c) (.skipLine c'), x, t, hrest,
      hrest'⟩
    rw [Syntax.skipLine, Syntax.skipLine, hspaces.1, hspaces.2]
    exact h.abreast.advance hu (by omega)
  | nil =>
    right
    rw [hline] at hrest hrest'
    have hcomment : (Syntax.skipLine c).rest = C ++ v := by
      obtain ⟨D, rfl, -⟩ := hC.exists_eq
      exact hrest
    have hposition (c : Cursor) : (Syntax.skipLine c).position.line = c.position.line :=
      line_of_over (over_skipLine c) fun hmem =>
        (isSpace_of_isLineSpace (isLineSpace_of_mem hmem)).2 rfl
    refine ⟨hcomment, hrest', ?_, ?_⟩
    · rw [position_sameLine, hposition, hposition, h.abreast.position_eq]
    · rw [skipBlanks_skipLine, skipBlanks_skipLine]
      -- Behind its blanks the one text is shorter than the comment with what is behind it.
      refine ((hC.skip h).resolve_left fun hahead => ?_).2
      obtain ⟨u', hu', -⟩ := hahead.abreast.front
      replace hu' := congrArg List.length hu'
      rw [← skipBlanks_skipLine, ← hC.skipBlanks_advance hcomment] at hu'
      have hle := Cursor.length_rest_le ((Syntax.skipLine c).advance C.length).le_skipBlanks
      rw [Cursor.rest_advance, hcomment, List.drop_left] at hle
      have hbounds := commentLength?_bounds hC.closed
      simp only [commentSeam, List.length_append] at hu'
      omega

/-! ## What a comment hides -/

/-- Statements that end with their line. -/
def Rule.endsWithLine : {α : Type} → Rule α → Bool
  | _, .return | _, .break | _, .continue => true
  | _, _ => false

/-- **A phrase stands at the front of a text** and leaves the rest of it. -/
def Stands {α : Type} (f : Phrase α) (X rest : List Char) : Prop :=
  ∃ fuel c v n, c.rest = X ∧ f.result (follow fuel) .free c = .matched v n ∧ n.rest = rest

/-- **A word stands at the end of a text**, but for the spaces of the line, and is not the end of a
longer name. -/
def EndsIn (word : String) (u : List Char) : Prop :=
  ∃ front hs, u = front ++ word.toList ++ hs ∧ ending front ≠ .name ∧ hs.all isLineSpace = true

theorem EndsIn.mem {word : String} (h : EndsIn word u) (x : Char) (hx : x ∈ word.toList) :
    x ∈ u := by
  obtain ⟨front, hs, rfl, -⟩ := h
  simp [hx]

/-- **What stands behind a comment is hidden** from a statement in front of it. -/
inductive Hides (u C v : List Char) : Prop
  /-- A semicolon behind the statement. -/
  | semicolon {α : Type} {r : Rule α} {front w hs : List Char} (hr : r.endsWithLine = true)
    (hu : u = front ++ w) (hfront : ending front ≠ .name) (hspaces : hs.all isLineSpace = true)
    (hstands : Stands (.rule r) (w ++ (C ++ v)) (hs ++ (C ++ v))) (hmark : [';'] <+: lineRest v)
  /-- The label of a jump. -/
  | label {word : String} {rest : List Char} (hword : word = "break" ∨ word = "continue")
    (hu : EndsIn word u) (hname : Stands name (lineRest v) rest)
  /-- A front operator of a value. -/
  | sign {rest : List Char} (hu : EndsIn "return" u)
    (hsign : Stands frontOperator (lineRest v) rest)
  /-- An arrow function that is the value. -/
  | arrow {rest : List Char} (hu : EndsIn "return" u)
    (harrow : Stands Phrase.arrow (lineRest v) rest)
  /-- The end of the line, with an operand behind it. -/
  | lineEnd {rest : List Char} (hu : EndsIn "return" u) (hend : endsLine (lineRest v) = true)
    (hoperand : Stands operand (v.drop (blankLength v)) rest)

/-! ## Statements that end with their line -/

/-- The words of these statements. -/
def lineWords : List String := ["return", "break", "continue"]

theorem isWord_lineWords : ∀ word ∈ lineWords, isWord word.toList = true := by decide

/-- **A word at a clear place** is not the end of a longer name. -/
theorem exists_front {word : String} (hC : IsComment C)
    (h : (commentSeam u outer C v).Ahead .code opened c c')
    (hclear : Standing.clear.At (u ++ ' ' :: v) c') (hword : word ∈ lineWords)
    (hover : c.Over word.toList n) (hw : c.rest = w ++ (C ++ v)) :
    ∃ front, u = front ++ w ∧ ending front ≠ .name := by
  obtain ⟨w', hleft, hright⟩ := h.abreast.front
  obtain rfl : w = w' := List.append_cancel_right (hw.symm.trans hleft)
  obtain ⟨front, hW, hfront⟩ := hclear
  have hu : u = front ++ w := by
    refine List.append_cancel_right (?_ : u ++ ' ' :: v = _ ++ ' ' :: v)
    rw [hW, hright, List.append_assoc]
    rfl
  refine ⟨front, hu, hfront.resolve_right fun hbounds => ?_⟩
  -- The place behind is the first character of the word, with which a name would go on.
  obtain ⟨x, t, hx, hstart, -⟩ := exists_of_isWord (isWord_lineWords word hword)
  have hhead := hover.rest_eq
  rw [hx, hw] at hhead
  have hname := isNameChar_of_isNameStart hstart
  cases w with
  | nil =>
    obtain ⟨D, rfl, -⟩ := hC.exists_eq
    obtain ⟨rfl, -⟩ := List.cons.inj hhead
    cases hstart
  | cons y w =>
    obtain ⟨rfl, -⟩ := List.cons.inj hhead
    rw [hbounds y (by rw [hright]; rfl)] at hname
    cases hname

/-- A word with only spaces of the line between it and the comment. -/
theorem Parted.endsIn {word : String} (hC : IsComment C)
    (hn : Parted C v (skipLine n) (skipLine n')) (hword : word ∈ lineWords)
    (hover : c.Over word.toList n) (h : (commentSeam u outer C v).Ahead .code opened c c')
    (hclear : Standing.clear.At (u ++ ' ' :: v) c') : EndsIn word u := by
  have hrest : lineSpaces n.rest ++ (C ++ v) = n.rest := hn.left ▸ (over_skipLine n).rest_eq.symm
  have hw : c.rest = word.toList ++ lineSpaces n.rest ++ (C ++ v) := by
    rw [List.append_assoc, hrest, hover.rest_eq]
  obtain ⟨front, hu, hfront⟩ := exists_front hC h hclear hword hover hw
  exact ⟨front, lineSpaces n.rest, hu.trans (List.append_assoc ..).symm, hfront,
    List.all_takeWhile⟩

section

variable (hC : IsComment C)
  {call' : {α : Type} → Rule α → Spacing → Cursor → Attempt α}
  (hstep : KeepsStep (commentSeam u outer C v) ['/', ' '] sameLine sameLine.Elsewhere (follow fuel)
    call')
  (h : (commentSeam u outer C v).Ahead .code opened c c')
include hC hstep h

/-- The semicolon of a statement, if the comment does not hide it. -/
theorem alike_lineSemicolon (hmark : [';'] <+: lineRest v → (skipLine c).rest ≠ C ++ v) :
    Outcome.Alike (fun _ _ => True)
      ((commentSeam u outer C v).Meets sameLine.Elsewhere .tight .code opened)
      (lineSemicolon.result (follow fuel) .tight c)
      (lineSemicolon.result call' .tight c') := by
  rw [result_lineSemicolon (advancing_follow fuel), result_lineSemicolon hstep.advancing']
  refine .orElse (.map ?_ fun _ _ => id) (.matched trivial (.inl h))
  obtain ⟨-, hahead, -⟩ | hparted := hC.skipLine h
  · have hnesting : nesting .tight false (token ";") 0 = some 0 := by decide
    have halike := alike_ahead hstep (token ";") hnesting (by decide) nofun hahead
    exact halike.imp fun _ _ _ => trivial
  · rw [hC.token_failed hparted.left rfl (by decide), result_token_absent]
    · exact .failed
    · rw [hparted.right]
      exact fun hsemicolon => hmark hsemicolon hparted.left

variable {α : Type} {P : Phrase α} {E : α → α → Prop} {word : String}

omit hC in
/-- The word of a statement, which has no comment inside. -/
theorem alike_lineWord (hword : word ∈ lineWords) :
    Outcome.Alike (fun _ _ => True) ((commentSeam u outer C v).Ahead .code opened)
      ((keyword word).result (follow fuel) .tight c)
      ((keyword word).result call' .tight c') := by
  have hchecks : nesting .quiet false (wholeWord word) 0 = some 0 ∧
      apart ['/', ' '] .quiet (wholeWord word) = true := by
    simp only [lineWords, List.mem_cons, List.not_mem_nil, or_false] at hword
    obtain rfl | rfl | rfl := hword <;> decide
  have halike := alike_ahead hstep (wholeWord word) hchecks.1 hchecks.2 nofun h
  simp only [keyword, atom, result_named, result_spaced]
  exact (halike.imp fun _ _ _ => trivial).behind fun _ _ _ _ _ _ hn => hn.of_quiet

/-- **A statement that ends with its line** is read in the same way if what stands behind its word
is. -/
theorem alike_line (hword : word ∈ lineWords)
    (hP : ∀ n n', c.Over word.toList n → (commentSeam u outer C v).Ahead .code opened n n' →
      Outcome.Alike E ((commentSeam u outer C v).Meets sameLine.Elsewhere .tight .code opened)
        (P.result (follow fuel) .tight n) (P.result call' .tight n'))
    (hmark : [';'] <+: lineRest v → ∀ x n m hs, c.Over word.toList m → hs.all isLineSpace = true →
      (keyword word *> P <* lineSemicolon).result (follow fuel) .tight c = .matched x n →
        n.rest ≠ hs ++ (C ++ v)) :
    Outcome.Alike E ((commentSeam u outer C v).Meets sameLine.Elsewhere .free .code opened)
      ((keyword word *> P <* lineSemicolon).result (follow fuel) .tight c)
      ((keyword word *> P <* lineSemicolon).result call' .tight c') := by
  simp only [result_seqLeft, result_seqRight, Spacing.skip] at hmark ⊢
  refine .behind (R := (commentSeam u outer C v).Meets sameLine.Elsewhere .tight .code opened) ?_
    fun _ _ _ _ _ _ hn => hn.spaced (.inl (by decide))
  refine Outcome.Alike.andThen ((alike_lineWord hstep h hword).andThen
    fun _ _ n n' hn _ _ hahead => hP n n' (over_of_keyword hn) hahead) ?_
  intro x x' n n' hn hn' hx hmeets
  refine Outcome.Alike.map (E := fun _ _ => True) ?_ fun _ _ _ => hx
  obtain hahead | ⟨-, hafter⟩ := hmeets
  · refine alike_lineSemicolon hC hstep hahead fun hsemicolon hcomment => ?_
    -- Here the statement ends in front of the comment.
    have hnone : lineSemicolon.result (follow fuel) .tight n = .matched none n := by
      rw [result_lineSemicolon (advancing_follow fuel), hC.token_failed hcomment rfl (by decide)]
      rfl
    obtain ⟨_, m, hm, -⟩ := Outcome.andThen_eq_matched.mp hn
    refine hmark hsemicolon x n m (lineSpaces n.rest) (over_of_keyword hm) List.all_takeWhile ?_ ?_
    · rw [hn, Outcome.andThen_matched, hnone, Outcome.map_matched]
    · rw [← hcomment, ← (over_skipLine n).rest_eq]
  · have halike := hstep.after lineSemicolon .tight hafter
    exact (halike.imp fun _ _ _ => trivial).behind fun _ _ _ _ _ _ hn => .inr ⟨by decide, hn⟩

variable (hides : ¬ Hides u C v) (hclear : Standing.clear.At (u ++ ' ' :: v) c')
  (hn : (commentSeam u outer C v).Ahead .code opened n n')
include hides hclear hn

/-- **The value of a `return`.** -/
theorem alike_returnValue (hover : c.Over "return".toList n)
    (hgive : ∀ c, (call' .expression .free c).outcome = (follow fuel' .expression .free c).outcome ∨
      (call' .expression .free c).outcome = .exhausted) :
    Outcome.Alike (sameLine.value .return)
      ((commentSeam u outer C v).Meets sameLine.Elsewhere .tight .code opened)
      (returnValue.result (follow fuel) .tight n) (returnValue.result call' .tight n') := by
  rw [result_returnValue (advancing_follow fuel), result_returnValue hstep.advancing']
  have hnone : Outcome.Alike (sameLine.value .return)
      ((commentSeam u outer C v).Meets sameLine.Elsewhere .tight .code opened)
      (.matched none n) (.matched none n') := .matched rfl (.inl hn)
  have hsome {o o' : Outcome (Built Expr)}
      (halike : Outcome.Alike (sameLine.value .expression)
        ((commentSeam u outer C v).Meets sameLine.Elsewhere .free .code opened) o o') :
      Outcome.Alike (sameLine.value .return)
        ((commentSeam u outer C v).Meets sameLine.Elsewhere .tight .code opened)
        ((o.map some).orElse fun _ => .matched none n)
        ((o'.map some).orElse fun _ => .matched none n') := by
    refine .orElse (.map (halike.behind ?_) fun _ _ hv => congrArg some hv) hnone
    exact fun _ _ _ _ _ _ hm => hm.spaced (.inl (by decide))
  obtain ⟨-, hahead, x, t, hx, hx'⟩ | hparted := hC.skipLine hn
  · have hend : endsLine (lineRest n.rest) = endsLine (lineRest n'.rest) := by
      rw [← rest_skipLine, ← rest_skipLine, hx, hx']
      refine endsLine_front fun hnil => ?_
      have hleft := hahead.left
      obtain ⟨D, rfl, -⟩ := hC.exists_eq
      rw [hx, hnil] at hleft
      exact Scans.ne_slash hleft
    rw [hend]
    split
    · exact hnone
    · exact hsome (hstep.rules .expression hahead)
  · have hword := hparted.endsIn hC (by decide) hover h hclear
    rw [← rest_skipLine n, hparted.left, ← rest_skipLine n', hparted.right]
    have hbare := hC.bare hparted.left
    have hopen : endsLine (C ++ v) = false := by
      obtain ⟨D, rfl, -⟩ := hC.exists_eq
      rfl
    simp only [hopen, Bool.false_eq_true, if_false]
    split
    · cases hread : (follow fuel .expression .free (skipLine n)).outcome with
      | matched x m =>
        obtain ⟨room, y, k, hoperand⟩ := operand_of_expression hbare hread
        have hrest : (skipLine n).skipBlanks.rest = v.drop (blankLength v) := by
          rw [← hC.skipBlanks_advance hparted.left, Cursor.skipBlanks, Cursor.rest_advance,
            Cursor.rest_advance, hparted.left, List.drop_left]
        exact absurd (.lineEnd hword ‹_› ⟨room, _, y, k, hrest, hoperand, rfl⟩) hides
      | failed => exact hnone
      | exhausted => exact .exhausted _
    · have hbare' : Bare (skipLine n') :=
        ⟨fun h => hides (.sign hword ⟨_, _, _, _, hparted.right, h, rfl⟩),
          fun h => hides (.arrow hword ⟨_, _, _, _, hparted.right, h, rfl⟩)⟩
      have halike := alike_behind_blanks steady_toLine hbare hbare' hparted.behind
        hparted.position (fun _ _ => rfl) fuel fuel'
      refine hsome ?_
      obtain hread | hread := hgive (skipLine n') <;> rw [hread]
      · exact halike.behind fun _ _ _ _ _ _ hm => .inr ⟨by decide, hm⟩
      · exact .exhausted_right _

/-- **The label of a jump.** -/
theorem alike_jumpLabel (hover : c.Over word.toList n)
    (hword : word = "break" ∨ word = "continue") :
    Outcome.Alike (sameLine.value .break)
      ((commentSeam u outer C v).Meets sameLine.Elsewhere .tight .code opened)
      (jumpLabel.result (follow fuel) .tight n) (jumpLabel.result call' .tight n') := by
  rw [result_jumpLabel (advancing_follow fuel), result_jumpLabel hstep.advancing']
  have hnone : Outcome.Alike (sameLine.value .break)
      ((commentSeam u outer C v).Meets sameLine.Elsewhere .tight .code opened)
      (.matched none n) (.matched none n') := .matched rfl (.inl hn)
  obtain ⟨hspaces, hahead, -⟩ | hparted := hC.skipLine hn
  · rw [hspaces]
    split
    · exact hnone
    · have hnesting : nesting .tight false name 0 = some 0 := by decide
      have halike := alike_ahead hstep name hnesting (by decide) nofun hahead
      exact .orElse (.map halike fun _ _ hv => congrArg some (Kept.name hv)) hnone
  · have hleft : (if lineSpaces n.rest = [] then Outcome.matched none n
        else ((name.result (follow fuel) .tight (skipLine n)).map some).orElse
          fun _ => .matched none n) = .matched none n := by
      rw [hC.name_failed hparted.left]
      exact ite_self _
    rw [hleft]
    split
    · exact hnone
    · cases hread : name.result call' .tight (skipLine n') with
      | matched x m =>
        have hends := hparted.endsIn hC (by obtain rfl | rfl := hword <;> decide) hover h hclear
        obtain ⟨hx, hfree, hover', hm⟩ := over_of_name hstep.advancing' hread
        have hname := result_name (s := .free) (advancing_follow fuel) hx hfree hover' hm
        exact absurd (.label hword hends ⟨fuel, _, x, m, hparted.right, hname, rfl⟩) hides
      | failed => exact hnone
      | exhausted => exact .exhausted_right _

end

/-! ## The rules -/

/-- No word of the grammar goes over a comment or a space, but for the statements of a line. -/
theorem Rule.apart_comment {α : Type} (r : Rule α) (hr : r.endsWithLine = false) :
    r.isQuoted = true ∨ apart ['/', ' '] .free r.phrase = true := by
  cases r with
  | «return» | «break» | «continue» => cases hr
  | _ => decide

section

variable (hC : IsComment C)
include hC

/-- The rules keep step if they are read in the same way at clear places, and given up at others. -/
theorem keepsStep_of_rules
    (hrules : ∀ {α : Type} (r : Rule α) {opened : List Bracket} {c c' : Cursor},
      (commentSeam u outer C v).Ahead .code opened c c' → Standing.clear.At (u ++ ' ' :: v) c' →
        Outcome.Alike (sameLine.value r)
          ((commentSeam u outer C v).Meets sameLine.Elsewhere .free .code opened)
          (follow fuel r .free c).outcome (follow fuel' r .free c').outcome) :
    KeepsStep (commentSeam u outer C v) ['/', ' '] sameLine sameLine.Elsewhere (follow fuel)
      (heedful (u ++ ' ' :: v) (follow fuel')) where
  left := hC.ends
  right := ends_space
  advancing := advancing_follow fuel
  advancing' := advancing_heedful (advancing_follow fuel')
  position _ := rfl
  text _ := rfl
  text_after _ _ _ := rfl
  skip := hC.skip
  after_skip h := h.skip steady_toLine .free
  after f s _ _ h := f.alike_elsewhere steady_toLine (advancing_follow fuel)
    (advancing_heedful (advancing_follow fuel'))
    (fun r s _ _ h => alike_heedful fun _ => alike_elsewhere_follow steady_toLine r s h) s h
  look f _ _ _ _ hf h := by
    simp only [List.all_cons, List.all_nil, Bool.and_true, Bool.and_eq_true] at hf
    obtain ⟨D, rfl, -⟩ := hC.exists_eq
    exact (f.related_front (advancing_follow fuel) (advancing_heedful (advancing_follow fuel')) hf.1
      hf.2 h.abreast.front).imp fun _ _ _ => trivial
  rules r _ _ _ h := alike_heedful (hrules r h)

/-- **The rules of the language are read in the same way** in front of a comment and in front of a
space, from clear places on, unless the comment hides something. -/
theorem alike_rule (hides : ¬ Hides u C v) (fuel fuel' : Nat) {α : Type} (r : Rule α)
    (h : (commentSeam u outer C v).Ahead .code opened c c')
    (hclear : Standing.clear.At (u ++ ' ' :: v) c') :
    Outcome.Alike (sameLine.value r)
      ((commentSeam u outer C v).Meets sameLine.Elsewhere .free .code opened)
      (follow fuel r .free c).outcome (follow fuel' r .free c').outcome := by
  induction fuel generalizing fuel' α opened c c' with
  | zero => exact .exhausted _
  | succ fuel ih =>
    obtain _ | fuel' := fuel'
    · exact .exhausted_right _
    have hstep : KeepsStep (commentSeam u outer C v) ['/', ' '] sameLine sameLine.Elsewhere
        (follow fuel) (heedful (u ++ ' ' :: v) (follow fuel')) :=
      keepsStep_of_rules hC fun r _ _ _ h hclear => ih fuel' r h hclear
    change Outcome.Alike _ _ (r.phrase.result _ _ _) (r.phrase.result (follow fuel') _ _)
    rw [← r.result_heedful hclear]
    cases hr : r.endsWithLine with
    | false =>
      exact (alike_phrase hstep r (r.apart_comment hr) h).imp fun _ _ =>
        (r.kept_phrase steady_toLine .free ·)
    | true =>
      obtain ⟨w, hw, -⟩ := h.abreast.front
      have hmark (word : String) (hword : word ∈ lineWords) (hsemicolon : [';'] <+: lineRest v)
          (x : α) (n m : Cursor) (hs : List Char) (hover : c.Over word.toList m)
          (hspaces : hs.all isLineSpace = true)
          (hread : r.phrase.result (follow fuel) .free c = .matched x n) :
          n.rest ≠ hs ++ (C ++ v) := fun hn => by
        obtain ⟨front, hu, hfront⟩ := exists_front hC h hclear hword hover hw
        exact hides (.semicolon hr hu hfront hspaces ⟨fuel + 1, c, x, n, hw, hread, hn⟩ hsemicolon)
      cases r with
      | «return» =>
        have hmark := hmark "return" (by decide)
        simp only [Rule.phrase, result_returned] at hmark ⊢
        exact alike_line hC hstep h (by decide) (fun _ _ hover hn =>
          alike_returnValue hC hstep h hides hclear hn hover fun c => heedful_cases) hmark
      | «break» =>
        have hmark := hmark "break" (by decide)
        simp only [Rule.phrase, result_jump] at hmark ⊢
        exact alike_line hC hstep h (by decide) (fun _ _ hover hn =>
          alike_jumpLabel hC hstep h hides hclear hn hover (.inl rfl)) hmark
      | «continue» =>
        have hmark := hmark "continue" (by decide)
        simp only [Rule.phrase, result_jump] at hmark ⊢
        exact alike_line hC hstep h (by decide) (fun _ _ hover hn =>
          alike_jumpLabel hC hstep h hides hclear hn hover (.inr rfl)) hmark
      | _ => cases hr

end

/-! ## Programs -/

/-- A text with a comment in it. -/
def withComment (u C v : List Char) : String := .ofList (u ++ C ++ v)

/-- The text with a space instead of the comment. -/
def withSpace (u v : List Char) : String := .ofList (u ++ ' ' :: v)

/-- The statements of a program are read in the same way. -/
theorem alike_program (hC : IsComment C) (hides : ¬ Hides u C v)
    (hcode : Scans (.code [] (u ++ C ++ v)) (.code outer (C ++ v))) (fuel fuel' : Nat) :
    Outcome.Alike (fun p p' => relocated .toLine p = relocated .toLine p')
      ((commentSeam u outer C v).Meets sameLine.Elsewhere .free .code [])
      (programPhrase.result (follow fuel) .free (.ofText (withComment u C v).toList))
      (programPhrase.result (follow fuel') .free (.ofText (withSpace u v).toList)) := by
  have hkept : Kept .toLine .toLine .free programPhrase :=
    .map (.left (.right (.many (.rule .statement)))) relocated_allBuilt
  rw [withComment, withSpace, String.toList_ofList, String.toList_ofList]
  rw [List.append_assoc] at hcode ⊢
  have hahead : (commentSeam u outer C v).Ahead .code [] (.ofText (u ++ (C ++ v)))
      (.ofText (u ++ ' ' :: v)) :=
    ⟨List.suffix_refl _, ⟨⟨u, rfl, rfl⟩, rfl⟩, hcode, Scans.front hC.standsFor hcode⟩
  have hnesting : nesting .free false programPhrase 0 = some 0 := by decide
  have hclear : Standing.clear.At (u ++ ' ' :: v) (.ofText (u ++ ' ' :: v)) :=
    ⟨[], rfl, .inl (by decide)⟩
  have hsampled : Sampled programPhrase := ⟨⟨trivial, trivial⟩, trivial⟩
  rw [← result_heedful hsampled (by decide) hclear]
  have hstep : KeepsStep (commentSeam u outer C v) ['/', ' '] sameLine sameLine.Elsewhere
      (follow fuel) (heedful (u ++ ' ' :: v) (follow fuel')) :=
    keepsStep_of_rules hC fun r _ _ _ h hclear => alike_rule hC hides fuel fuel' r h hclear
  have halike := alike_ahead hstep programPhrase hnesting (by decide) nofun hahead
  exact halike.imp fun _ _ hp => hkept hp

/-- There is room enough for a program. -/
theorem programPhrase_ne_exhausted (source : String) :
    programPhrase.result (follow (nestingBound source.toList.length)) .free
      (.ofText source.toList) ≠ .exhausted := by
  have hbelow : programPhrase.opensBelow Rule.rank 4 = true := by decide
  refine result_ne_exhausted hbelow ?_
  have hlength : (Cursor.ofText source.toList).rest.length = source.toList.length := rfl
  rw [hlength, nestingBound, rulesPerPlace]
  omega

/-- **A program is read from the other text** if both are read in the same way. -/
theorem exists_program_of_alike {R : Cursor → Cursor → Prop} {source source' : String}
    {program : Program}
    (halike : Outcome.Alike (fun p p' => relocated .toLine p = relocated .toLine p') R
      (programPhrase.result (follow (nestingBound source.toList.length)) .free
        (.ofText source.toList))
      (programPhrase.result (follow (nestingBound source'.toList.length)) .free
        (.ofText source'.toList)))
    (h : readProgram source = .ok program) :
    ∃ program', readProgram source' = .ok program' ∧
      program.map (Stmt.relocated .toLine) = program'.map (Stmt.relocated .toLine) := by
  obtain ⟨n, hmatched⟩ := matched_of_readProgram h
  rw [hmatched] at halike
  cases hread : programPhrase.result (follow (nestingBound source'.toList.length)) .free
      (.ofText source'.toList) with
  | matched p n' =>
    rw [hread] at halike
    have hsame := halike.pair.1
    cases p with
    | ok program' => exact ⟨program', readProgram_of_matched hread, Except.ok.inj hsame⟩
    | error e => cases hsame
  | failed =>
    rw [hread] at halike
    exact absurd rfl halike.ne_failed
  | exhausted => exact absurd hread (programPhrase_ne_exhausted source')

/-- **A block comment in one line is a blank**: with a space instead of it the text is the same
program, up to columns and excerpts, unless the comment hides something from a statement that ends
with its line. -/
theorem comment_is_blank (hC : IsComment C)
    (hcode : ∃ outer, Scans (.code [] (u ++ C ++ v)) (.code outer (C ++ v)))
    (hides : ¬ Hides u C v) :
    (∀ program, readProgram (withComment u C v) = .ok program →
      ∃ program', readProgram (withSpace u v) = .ok program' ∧
        program.map (Stmt.relocated .toLine) = program'.map (Stmt.relocated .toLine)) ∧
    ∀ program', readProgram (withSpace u v) = .ok program' →
      ∃ program, readProgram (withComment u C v) = .ok program ∧
        program.map (Stmt.relocated .toLine) = program'.map (Stmt.relocated .toLine) := by
  obtain ⟨outer, hcode⟩ := hcode
  have halike := alike_program hC hides hcode
  refine ⟨fun program h => exists_program_of_alike (halike _ _) h, fun program' h => ?_⟩
  obtain ⟨program, hread, hsame⟩ := exists_program_of_alike
    ((halike _ _).symm.imp fun _ _ => Eq.symm) h
  exact ⟨program, hread, hsame.symm⟩

/-! ### A comment behind a `return` -/

/-- A comment in one line. -/
def shortComment : List Char := "/* c */".toList

theorem isComment_shortComment : IsComment shortComment := ⟨by decide, by decide, by decide⟩

/-- It stands in the code behind a `return`. -/
theorem scans_return (v : List Char) :
    Scans (.code [] ("return ".toList ++ shortComment ++ v)) (.code [] (shortComment ++ v)) :=
  .head rfl (.head rfl (.head rfl (.head rfl (.head rfl (.head rfl (.head rfl .refl))))))

/-- In front of a number it hides nothing. -/
theorem not_hides_number : ¬ Hides "return ".toList shortComment " 1".toList := by
  rintro (⟨-, -, -, -, -, hmark⟩ | ⟨rfl | rfl, hu, -⟩ | ⟨-, hsign⟩ | ⟨-, harrow⟩ | ⟨-, hend, -⟩)
  · exact absurd hmark (by decide)
  · exact absurd (hu.mem 'k' (by decide)) (by decide)
  · exact absurd (hu.mem 'c' (by decide)) (by decide)
  · obtain ⟨fuel, ⟨rest, o, p⟩, x, n, hrest, hread, -⟩ := hsign
    obtain rfl : rest = ['1'] := hrest
    cases hread
  · obtain ⟨fuel, ⟨rest, o, p⟩, x, n, hrest, hread, -⟩ := harrow
    obtain rfl : rest = ['1'] := hrest
    cases hread
  · exact absurd hend (by decide)

/-- It stands in the code behind a longer name. -/
theorem scans_longerName (v : List Char) :
    Scans (.code [] ("x = myreturn ".toList ++ shortComment ++ v)) (.code [] (shortComment ++ v)) :=
  .head rfl (.head rfl (.head rfl (.head rfl (.head rfl (.head rfl (.head rfl (.head rfl (.head rfl
    (.head rfl (.head rfl (.head rfl (.head rfl .refl))))))))))))

/-- Behind a longer name that ends in `return` it hides not even a sign. -/
theorem not_hides_longerName : ¬ Hides "x = myreturn ".toList shortComment " -1".toList := by
  have hreturn : ¬ EndsIn "return" "x = myreturn ".toList := by
    rintro ⟨front, hs, hu, hfront, -⟩
    have hall : ∀ k ∈ List.range 14, "return".toList <+: "x = myreturn ".toList.drop k →
        ending ("x = myreturn ".toList.take k) = .name := by decide
    have hlength : "x = myreturn ".toList.length = (front ++ "return".toList ++ hs).length := by
      rw [← hu]
    have hname := hall front.length (by simp at hlength; simp; omega) ⟨hs, by simp [hu]⟩
    rw [hu, List.append_assoc, List.take_left] at hname
    exact hfront hname
  rintro (⟨-, -, -, -, -, hmark⟩ | ⟨rfl | rfl, hu, -⟩ | ⟨hu, -⟩ | ⟨hu, -⟩ | ⟨hu, -, -⟩)
  · exact absurd hmark (by decide)
  · exact absurd (hu.mem 'k' (by decide)) (by decide)
  · exact absurd (hu.mem 'c' (by decide)) (by decide)
  · exact hreturn hu
  · exact hreturn hu
  · exact hreturn hu

set_option maxRecDepth 100000 in
/-- **A comment between `return` and a number is a blank**, and so is one between a longer name and
a sign. -/
theorem comment_is_blank_in_return :
    IsComment shortComment ∧
    (∃ outer, Scans (.code [] ("return ".toList ++ shortComment ++ " 1".toList))
      (.code outer (shortComment ++ " 1".toList))) ∧
    ¬ Hides "return ".toList shortComment " 1".toList ∧
    (∃ program, readProgram (withComment "return ".toList shortComment " 1".toList) = .ok program) ∧
    (∀ program, readProgram (withComment "return ".toList shortComment " 1".toList) = .ok program →
      ∃ program', readProgram (withSpace "return ".toList " 1".toList) = .ok program' ∧
        program.map (Stmt.relocated .toLine) = program'.map (Stmt.relocated .toLine)) ∧
    ¬ Hides "x = myreturn ".toList shortComment " -1".toList ∧
    ∃ program program',
      readProgram (withComment "x = myreturn ".toList shortComment " -1".toList) = .ok program ∧
      readProgram (withSpace "x = myreturn ".toList " -1".toList) = .ok program' ∧
      program.map (Stmt.relocated .toLine) = program'.map (Stmt.relocated .toLine) := by
  obtain ⟨program, hread⟩ : ∃ program,
    readProgram (withComment "x = myreturn ".toList shortComment " -1".toList) = .ok program :=
      ⟨_, rfl⟩
  obtain ⟨program', hread', hsame⟩ :=
    (comment_is_blank isComment_shortComment ⟨[], scans_longerName _⟩ not_hides_longerName).1
      program hread
  exact ⟨isComment_shortComment, ⟨[], scans_return _⟩, not_hides_number, ⟨_, rfl⟩,
    (comment_is_blank isComment_shortComment ⟨[], scans_return _⟩ not_hides_number).1,
    not_hides_longerName, program, program', hread, hread', hsame⟩

set_option maxRecDepth 100000 in
/-- **In front of a sign it is none**: the `return` has no value, and the negative number is a
statement of its own. -/
theorem comment_hides_sign :
    IsComment shortComment ∧
    Scans (.code [] ("return ".toList ++ shortComment ++ " -1".toList))
      (.code [] (shortComment ++ " -1".toList)) ∧
    ∃ program program',
      readProgram (withComment "return ".toList shortComment " -1".toList) = .ok program ∧
      readProgram (withSpace "return ".toList " -1".toList) = .ok program' ∧
      program.map (Stmt.relocated .toLine) ≠ program'.map (Stmt.relocated .toLine) := by
  refine ⟨isComment_shortComment, scans_return _, _, _, rfl, rfl, fun hsame => ?_⟩
  exact absurd (congrArg List.length hsame) (by decide)

end ScriptTrace.Syntax
