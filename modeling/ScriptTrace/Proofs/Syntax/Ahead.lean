import ScriptTrace.Proofs.Grammar.Correspondence
import ScriptTrace.Proofs.Syntax.Nesting

/-!
# Proofs/Syntax/Ahead — one text in front of two others

The same text stands in front of two others, and the scans of both lead from it to the *seam* where
they part.  Then phrases are read in the same way up to the seam (`alike_ahead`), also strings and
templates, if what stands at the seam belongs to no word.  A phrase may be read across the seam
where blanks stand there; how it goes on then is left open.
-/

namespace ScriptTrace.Syntax

open Grammar
open Grammar.Form
open Phrase

/-- **Where two texts part**, with the text in front and the brackets that are open there. -/
structure Seam where
  front : List Char
  outer : List Bracket
  left : List Char
  right : List Char

/-- **Two places with the same text up to the seam**, to which the scans lead. -/
structure Seam.Ahead (S : Seam) (zone : Zone) (opened : List Bracket) (c c' : Cursor) : Prop where
  inside : c.rest <:+ S.front ++ S.left
  abreast : Cursor.Abreast S.left S.right c c'
  left : Scans ⟨zone, opened, c.rest⟩ (.code S.outer S.left)
  right : Scans ⟨zone, opened, c'.rest⟩ (.code S.outer S.right)

/-- The same seam with the texts exchanged. -/
def Seam.flip (S : Seam) : Seam := ⟨S.front, S.outer, S.right, S.left⟩

/-- **What may stand at a seam**: one of some characters, or a bracket that closes none in front of
it; no quote, and a slash only if it begins a comment. -/
structure Seam.Ends (ends : List Char) (outer : List Bracket) (X : List Char) : Prop where
  head : ∃ x rest, X = x :: rest ∧ (x ∈ ends ∨ isClosing x = true)
  closing : ∀ x ∈ X.head?, isClosing x = true → outer = []
  quote : ∀ x ∈ X.head?, isQuote x = false ∧ x ≠ '`'
  comment : ∀ rest, X = '/' :: rest → commentLength? X ≠ none

/-- Whether a phrase neither takes nor looks for these characters, a slash of an operator apart. -/
def apart (ends : List Char) : {α : Type} → Spacing → Phrase α → Bool
  | _, _, .one p => ends.all (!p ·)
  | _, _, .word w => w = ['/'] || (w = ['/', '='] && !ends.contains '=') || ends.all (!w.contains ·)
  | _, _, .unless a => ends.all (a.avoids ·)
  | _, s, .both a b => apart ends s a && apart ends s b
  | _, s, .either a b => apart ends s a && apart ends s b
  | _, s, .many a | _, s, .perhaps a | _, s, .map _ a | _, s, .spanned a | _, s, .named a =>
    apart ends s a
  | _, s, .spaced s' a => (s ≠ .quiet || s' = .quiet) && apart ends s' a
  | _, _, .finish | _, _, .rule _ => true

variable {S : Seam} {call call' : {α : Type} → Rule α → Spacing → Cursor → Attempt α}
  {ends : List Char} {outer opened opened' : List Bracket} {zone zone' : Zone}
  {c c' n n' : Cursor} {u w X : List Char} {d d' : Nat} {s : Spacing} {solid : Bool} {q : Char}

/-! ## In front of a seam -/

namespace Seam.Ahead

/-- The text in front of the seam ends like the text in front of both. -/
theorem suffix (h : S.Ahead zone opened c c') (hu : c.rest = u ++ S.left) : u <:+ S.front := by
  obtain ⟨t, ht⟩ := h.inside
  rw [hu, ← List.append_assoc] at ht
  exact ⟨t, List.append_cancel_right ht⟩

/-- Two texts trade places at the seam. -/
theorem flip (h : S.Ahead zone opened c c') : S.flip.Ahead zone opened c' c := by
  obtain ⟨u, hu, hu'⟩ := h.abreast.front
  obtain ⟨t, ht⟩ := h.suffix hu
  refine ⟨⟨t, ?_⟩, h.abreast.symm, h.right, h.left⟩
  rw [hu', ← List.append_assoc, ht]
  rfl

/-- Where the scans go on as the text does. -/
theorem onward (h : S.Ahead zone opened c c') (hn : Cursor.Abreast S.left S.right n n')
    (hscan : Scans ⟨zone, opened, c.rest⟩ ⟨zone', opened', n.rest⟩)
    (hscan' : Scans ⟨zone, opened, c'.rest⟩ ⟨zone', opened', n'.rest⟩) :
    S.Ahead zone' opened' n n' := by
  obtain ⟨u, hu, hu'⟩ := hn.front
  refine ⟨hscan.suffix.trans h.inside, hn, hscan.of_length_le h.left ?_,
    hscan'.of_length_le h.right ?_⟩
  · simp [hu]
  · simp [hu']

/-- Outside the code there is a character in front of the seam. -/
theorem exists_cons (hzone : zone ≠ .code) (h : S.Ahead zone opened c c') :
    ∃ x u, c.rest = x :: u ++ S.left ∧ c'.rest = x :: u ++ S.right := by
  obtain ⟨_ | ⟨x, u⟩, hu, hu'⟩ := h.abreast.front
  · have heq := h.left.eq_of_length (by simp [hu])
    exact absurd (congrArg Spot.zone heq) hzone
  · exact ⟨x, u, hu, hu'⟩

end Seam.Ahead

/-- The nesting behind two words is counted one word behind the other. -/
theorem wordNesting_append (u w : List Char) (d : Nat) :
    wordNesting (u ++ w) d = (wordNesting u d).bind (wordNesting w) := by
  induction u generalizing d with
  | nil => rfl
  | cons x u ih =>
    simp only [List.cons_append, wordNesting]
    split_ifs <;> first | exact ih _ | rfl

/-- A word does not reach over the seam. -/
theorem Scans.prefix_of_word (hX : Seam.Ends ends outer X)
    (hnest : nesting s solid (.word w : Phrase Unit) d = some d')
    (hapart : apart ends s (.word w : Phrase Unit) = true)
    (hsolid : solid = true → blankLength (u ++ X) = 0)
    (h : Scans (.code (openedIn d opened) (u ++ X)) (.code outer X)) (hw : w <+: u ++ X) :
    w <+: u := by
  rcases List.prefix_or_prefix_of_prefix hw (List.prefix_append u X) with hu | ⟨t, rfl⟩
  · exact hu
  obtain _ | ⟨y, t⟩ := t
  · simp
  exfalso
  obtain ⟨x, rest, rfl, hx⟩ := hX.head
  obtain ⟨rfl, hrest⟩ := List.cons_prefix_cons.mp ((List.prefix_append_right_inj u).mp hw)
  have hslash (hend : y ≠ '/') : u ++ y :: t ≠ ['/'] := by
    cases u with
    | nil => simp [hend]
    | cons z u => simp
  simp only [apart, Bool.or_eq_true, Bool.and_eq_true, decide_eq_true_eq, Bool.not_eq_true',
    List.contains_eq_mem, decide_eq_false_iff_not, List.all_eq_true] at hapart
  rw [nesting] at hnest
  by_cases hcomment : y = '/'
  · subst hcomment
    have hc := hX.comment rest rfl
    split_ifs at hnest with hone hs htwo
    · obtain ⟨rfl, rfl⟩ : u = [] ∧ t = [] := by
        cases u <;> simp_all
      obtain ⟨n, hn⟩ := Option.ne_none_iff_exists'.mp hc
      have hbounds := commentLength?_bounds hn
      have hblank := hsolid hs
      rw [List.nil_append, blankLength_of_comment rfl hn] at hblank
      omega
    · obtain ⟨rfl, rfl⟩ : u = [] ∧ t = ['='] := by
        rcases u with _ | ⟨z, _ | ⟨z', u⟩⟩ <;> simp_all
      obtain ⟨rest, rfl⟩ := hrest
      exact hc rfl
    · -- Another word has no slash.
      rw [wordNesting_append, Option.bind_eq_some_iff] at hnest
      obtain ⟨e, -, hnest⟩ := hnest
      simp [wordNesting, isOpening, isClosing, isMark] at hnest
  · rw [if_neg (hslash hcomment)] at hnest
    have hends : y ∉ ends := by
      intro hmem
      obtain (hone | ⟨htwo, hequal⟩) | hall := hapart
      · exact hslash hcomment hone
      · obtain _ | ⟨z, _ | ⟨z', u⟩⟩ := u
        · simp_all
        · simp_all
        · simp_all
      · exact hall y hmem (by simp)
    have hclosing := hx.resolve_left hends
    obtain rfl := hX.closing y rfl hclosing
    split_ifs at hnest with htwo
    · obtain _ | ⟨z, _ | ⟨z', u⟩⟩ := u
      · simp_all
      · obtain ⟨-, rfl, -⟩ : z = '/' ∧ y = '=' ∧ t = [] := by simpa using htwo
        cases hclosing
      · simp_all
    · -- The bracket would close one that is open at the seam.
      rw [wordNesting_append, Option.bind_eq_some_iff] at hnest
      obtain ⟨e, hu, hnest⟩ := hnest
      rw [wordNesting, if_neg (by simp [isOpening_of_isClosing hclosing]), if_pos hclosing] at hnest
      split_ifs at hnest with he
      have hseam : Scans (.code (openedIn d opened) (u ++ y :: rest))
        (.code (openedIn e opened) _) :=
        Scans.of_word hu
      have heq := (hseam.of_length_le h le_rfl).eq_of_length le_rfl
      have hlength := congrArg (fun a : Spot => a.opened.length) heq
      simp only [openedIn, List.length_append, List.length_replicate, List.length_nil] at hlength
      omega

/-- **A word goes on to the seam**, if it stands in front of it. -/
theorem Scans.word (hnest : nesting s solid (.word w : Phrase Unit) d = some d')
    (hsolid : solid = true → blankLength (w ++ (u ++ X)) = 0)
    (h : Scans (.code (openedIn d opened) (w ++ (u ++ X))) (.code outer X)) :
    Scans (.code (openedIn d' opened) (u ++ X)) (.code outer X) := by
  rw [nesting] at hnest
  split_ifs at hnest with hslash hs hequal
  · subst hslash
    cases hnest
    obtain heq | ⟨b, hnext, hmore⟩ := Relation.ReflTransGen.cases_head h
    · have hlength := congrArg (fun a : Spot => a.rest.length) heq
      simp at hlength
      omega
    · have hc : commentLength? ('/' :: (u ++ X)) = none := by
        cases hc : commentLength? ('/' :: (u ++ X)) with
        | none => rfl
        | some n =>
          have hbounds := commentLength?_bounds hc
          have hblank := hsolid hs
          rw [List.singleton_append, blankLength_of_comment rfl hc] at hblank
          omega
      change Spot.next? (.code _ ('/' :: (u ++ X))) = _ at hnext
      rw [Spot.next?_slash hc, Option.ite_none_left_eq_some] at hnext
      obtain rfl := Option.some.inj hnext.2
      exact hmore
  · subst hequal
    cases hnest
    have hbehind : Scans (.code (openedIn d opened) ('/' :: '=' :: (u ++ X)))
        (.code (openedIn d opened) (u ++ X)) :=
      (Scans.slash rfl (by simp)).trans (Scans.plain rfl)
    exact Scans.of_length_le hbehind h (by simp)
  · exact (Scans.of_word hnest).of_length_le h (by simp)

/-! ## Phrases -/

/-- **In front of the seam, or behind blanks at the seam**, which quiet forms do not skip. -/
def Seam.Meets (S : Seam) (After : Cursor → Cursor → Prop) (s : Spacing) (zone : Zone)
    (opened : List Bracket) (c c' : Cursor) : Prop :=
  S.Ahead zone opened c c' ∨ s ≠ .quiet ∧ After c c'

/-- **Rules that keep step** up to the seam, and behind its blanks. -/
structure KeepsStep (S : Seam) (ends : List Char) (K : Correspondence Rule)
    (After : Cursor → Cursor → Prop)
    (call call' : {α : Type} → Rule α → Spacing → Cursor → Attempt α) : Prop where
  left : Seam.Ends ends S.outer S.left
  right : Seam.Ends ends S.outer S.right
  advancing : Advancing call
  advancing' : Advancing call'
  position : ∀ p, K.position p p
  text : ∀ t, K.text t t
  text_after : ∀ {n n' : Cursor} (t t' : List Char), After n n' → K.text t t'
  skip : ∀ {opened : List Bracket} {c c' : Cursor}, S.Ahead .code opened c c' →
    S.Meets After .free .code opened c.skipBlanks c'.skipBlanks
  after_skip : ∀ {c c' : Cursor}, After c c' → After c.skipBlanks c'.skipBlanks
  after : ∀ {α : Type} (f : Phrase α) (s : Spacing) {c c' : Cursor}, After c c' →
    Outcome.Alike (f.Corresponds K s) After (f.result call s c) (f.result call' s c')
  look : ∀ {α : Type} (f : Phrase α) {opened : List Bracket} {c c' : Cursor}, glances f = true →
    ends.all (f.avoids ·) = true → S.Ahead .code opened c c' →
      Outcome.Related (fun _ _ => True) (f.result call .quiet c) (f.result call' .quiet c')
  rules : ∀ {α : Type} (r : Rule α) {opened : List Bracket} {c c' : Cursor},
    S.Ahead .code opened c c' →
      Outcome.Alike (K.value r) (S.Meets After .free .code opened) (call r .free c).outcome
        (call' r .free c').outcome

section

variable {K : Correspondence Rule} {After : Cursor → Cursor → Prop}

namespace Seam.Meets

theorem of_quiet (h : S.Meets After .quiet zone opened c c') : S.Ahead zone opened c c' :=
  h.resolve_right fun h => h.1 rfl

/-- What meets under one spacing meets under another that skips as much. -/
theorem spaced {s' : Spacing} (hs : s ≠ .quiet ∨ s' = .quiet)
    (h : S.Meets After s' zone opened c c') : S.Meets After s zone opened c c' := by
  obtain h | ⟨hs', h⟩ := h
  · exact .inl h
  · exact .inr ⟨hs.resolve_right hs', h⟩

/-- To skip space keeps places in front of the seam, or meets it. -/
theorem skip (hstep : KeepsStep S ends K After call call')
    (h : S.Meets After s .code opened c c') :
    S.Meets After s .code opened (s.skip c) (s.skip c') := by
  cases s with
  | free =>
    obtain h | ⟨-, h⟩ := h
    · exact hstep.skip h
    · exact .inr ⟨nofun, hstep.after_skip h⟩
  | tight | quiet => exact h

end Seam.Meets

variable (hstep : KeepsStep S ends K After call call')
include hstep

/-- What is read behind the blanks of the seam. -/
theorem KeepsStep.alike_after {α : Type} (f : Phrase α) (hs : s ≠ .quiet) (h : After c c') :
    Outcome.Alike (f.Corresponds K s) (S.Meets After s zone opened) (f.result call s c)
      (f.result call' s c') :=
  (hstep.after f s h).behind fun _ _ _ _ _ _ hn => .inr ⟨hs, hn⟩

/-- **A phrase is read in the same way** up to the seam, and on behind its blanks. -/
theorem alike_ahead {α : Type} (f : Phrase α) (hf : nesting s solid f d = some d')
    (hapart : apart ends s f = true) (hsolid : solid = true → c.IsSolid ∧ c'.IsSolid)
    (h : S.Ahead .code (openedIn d opened) c c') :
    Outcome.Alike (f.Corresponds K s) (S.Meets After s .code (openedIn d' opened))
      (f.result call s c) (f.result call' s c') := by
  induction f generalizing s solid d d' c c' with
  | one p =>
    rw [nesting] at hf
    split at hf
    · cases hf
    cases hf
    obtain ⟨u, hu, hu'⟩ := h.abreast.front
    have hhead {X : List Char} (hX : Seam.Ends ends S.outer X) :
        ∃ x rest, X = x :: rest ∧ p x = false := by
      obtain ⟨x, rest, rfl, hmem | hclosing⟩ := hX.head
      · exact ⟨x, rest, rfl, by simpa using List.all_eq_true.mp hapart x hmem⟩
      · refine ⟨x, rest, rfl, Bool.eq_false_iff.mpr fun hp => ?_⟩
        simpa [isMark, hclosing] using isMark_of_not_any ‹_› hp
    rw [result_one, result_one, hu, hu']
    cases u with
    | nil =>
      obtain ⟨x, rest, hx, hp⟩ := hhead hstep.left
      obtain ⟨x', rest', hx', hp'⟩ := hhead hstep.right
      simp only [List.nil_append, hx, hx', hp, hp', Bool.false_eq_true, if_false]
      exact .failed
    | cons x u =>
      dsimp only [List.cons_append]
      split
      · have hplain := isMark_of_not_any ‹_› ‹p x = true›
        refine .matched rfl (.inl (h.onward (h.abreast.step hu) ?_ ?_))
        · rw [Cursor.rest_step, hu]
          exact .plain hplain
        · rw [Cursor.rest_step, hu']
          exact .plain hplain
      · exact .failed
  | word w =>
    obtain ⟨u, hu, hu'⟩ := h.abreast.front
    have hleft := h.left
    have hright := h.right
    rw [hu] at hleft
    rw [hu'] at hright
    have hblank : solid = true → blankLength (u ++ S.left) = 0 := fun hs => hu ▸ (hsolid hs).1
    have hblank' : solid = true → blankLength (u ++ S.right) = 0 := fun hs => hu' ▸ (hsolid hs).2
    have hinside : w <+: c.rest → w <+: u := fun hw =>
      Scans.prefix_of_word hstep.left hf hapart hblank hleft (hu ▸ hw)
    have hinside' : w <+: c'.rest → w <+: u := fun hw =>
      Scans.prefix_of_word hstep.right hf hapart hblank' hright (hu' ▸ hw)
    by_cases hw : w <+: u
    · obtain ⟨t, rfl⟩ := hw
      rw [List.append_assoc] at hu hu' hleft hright
      simp only [List.append_assoc] at hblank hblank'
      rw [result_word_of_over (.of_append hu), result_word_of_over (.of_append hu')]
      have hadvance := h.abreast.advance (u := w ++ t) (k := w.length) (by simp [hu]) (by simp)
      refine .matched trivial (.inl ⟨?_, hadvance, ?_, ?_⟩)
      · rw [Cursor.rest_advance]
        exact (List.drop_suffix ..).trans h.inside
      · rw [Cursor.rest_advance, hu, List.drop_left]
        exact Scans.word hf hblank hleft
      · rw [Cursor.rest_advance, hu', List.drop_left]
        exact Scans.word hf hblank' hright
    · rw [result_word_absent fun h => hw (hinside h), result_word_absent fun h => hw (hinside' h)]
      exact .failed
  | finish =>
    obtain ⟨u, hu, hu'⟩ := h.abreast.front
    have hsome {X : List Char} (hX : Seam.Ends ends S.outer X) : (u ++ X).isEmpty = false := by
      obtain ⟨x, rest, rfl, -⟩ := hX.head
      cases u <;> rfl
    rw [result_finish, result_finish, hu, hu', hsome hstep.left, hsome hstep.right]
    exact .failed
  | rule r =>
    rw [nesting] at hf
    split at hf
    · subst s
      cases hf
      exact hstep.rules r h
    · cases hf
  | both f g ihf ihg =>
    rw [nesting, Option.bind_eq_some_iff] at hf
    obtain ⟨e, hff, hfg⟩ := hf
    simp only [apart, Bool.and_eq_true] at hapart
    rw [result_both, result_both]
    refine (ihf hff hapart.1 hsolid h).andThen fun v v' n n' _ _ hv hn => ?_
    refine Outcome.Alike.map ?_ fun w w' hw => ⟨hv, hw⟩
    obtain hn | ⟨hs, hn⟩ := hn.skip hstep
    · exact ihg hfg hapart.2 (fun hs => ⟨isSolid_skip hs, isSolid_skip hs⟩) hn
    · exact hstep.alike_after g hs hn
  | either f g ihf ihg =>
    rw [nesting] at hf
    split at hf
    · rename_i hsame
      simp only [apart, Bool.and_eq_true] at hapart
      rw [result_either, result_either]
      exact ((ihf hf hapart.1 hsolid h).imp fun _ _ => .inl).orElse
        ((ihg (hsame ▸ hf) hapart.2 hsolid h).imp fun _ _ => .inr)
    · cases hf
  | many f ih =>
    rw [nesting] at hf
    split at hf
    · obtain ⟨hconsumes, hff⟩ := ‹f.consumes = true ∧ _›
      cases hf
      have hagain {m m' : Cursor} (hm : S.Meets After s .code (openedIn d opened) m m') :
          Outcome.Alike (f.Corresponds K s) (S.Meets After s .code (openedIn d opened))
            (f.again call s m) (f.again call' s m') := by
        obtain hm | ⟨hs, hm⟩ := hm.skip hstep
        · refine ih hff hapart (fun hs => ?_) hm
          have hfree := (Bool.and_eq_true_iff.mp hs).2
          exact ⟨isSolid_skip hfree, isSolid_skip hfree⟩
        · exact hstep.alike_after f hs hm
      rw [result_many, result_many]
      refine ((ih hff hapart (fun hs => hsolid (Bool.and_eq_true_iff.mp hs).1) h).andThen
        fun v v' m m' _ _ hv hm => ?_).orElse (.matched .nil (.inl h))
      refine (Outcome.Alike.manyResult (fun _ _ => hagain) ?_ ?_ hm (Nat.lt_succ_self _)
        (Nat.lt_succ_self _)).map fun _ _ hvs => .cons hv hvs
      · exact fun c v n hv => (s.le_skip c).trans_lt (lt_of_matched hstep.advancing hv hconsumes)
      · exact fun c v n hv => (s.le_skip c).trans_lt (lt_of_matched hstep.advancing' hv hconsumes)
    · cases hf
  | perhaps f ih =>
    rw [nesting] at hf
    split at hf
    · cases hf
      rw [result_perhaps, result_perhaps]
      exact ((ih ‹_› hapart hsolid h).map fun _ _ => .some).orElse (.matched .none (.inl h))
    · cases hf
  | «unless» f ih =>
    rw [nesting] at hf
    split at hf <;> cases hf
    have hinside := hstep.look f ‹_› hapart h
    rw [result_unless, result_unless]
    generalize f.result call .quiet c = o at hinside
    generalize f.result call' .quiet c' = o' at hinside
    cases hinside with
    | matched => exact .failed
    | failed => exact .matched trivial (.inl h)
    | exhausted => exact .exhausted _
  | map g f ih =>
    rw [result_map, result_map]
    exact (ih hf hapart hsolid h).map fun v v' hv => ⟨v, v', hv, rfl, rfl⟩
  | spanned f ih =>
    rw [result_spanned, result_spanned]
    refine (ih hf hapart hsolid h).andThen fun v v' n n' hm hm' hv hn => ?_
    refine .matched ⟨h.abreast.position_eq ▸ hstep.position _, ?_, hv⟩ hn
    obtain hn | ⟨hs, hn⟩ := hn
    · have htext := h.abreast.textTo_eq hn.abreast (le_of_matched hstep.advancing hm)
        (le_of_matched hstep.advancing' hm')
      split
      · exact htext
      · rw [htext]
        exact hstep.text _
    · rw [if_neg hs]
      exact hstep.text_after _ _ hn
  | named f ih =>
    rw [result_named, result_named]
    exact ih hf hapart hsolid h
  | spaced s' f ih =>
    simp only [apart, Bool.and_eq_true, Bool.or_eq_true, decide_eq_true_eq] at hapart
    exact (ih hf hapart.2 hsolid h).behind fun _ _ _ _ _ _ hn => hn.spaced hapart.1

end

/-! ## Strings -/

/-- A word that stands in front of both texts, if at all. -/
theorem alike_word {A B : List Char} (h : Cursor.Abreast A B c c') (hu : c.rest = u ++ A)
    (hu' : c'.rest = u ++ B) (hw : w <+: c.rest → w <+: u) (hw' : w <+: c'.rest → w <+: u) :
    Outcome.Alike (· = ·) (Cursor.Abreast A B) ((Form.word w : Phrase Unit).result call s c)
      ((Form.word w : Phrase Unit).result call' s c') := by
  by_cases hstarts : w <+: u
  · obtain ⟨t, rfl⟩ := hstarts
    rw [result_word_of_over (.of_append (hu.trans (List.append_assoc ..))),
      result_word_of_over (.of_append (hu'.trans (List.append_assoc ..)))]
    exact .matched rfl (h.advance hu (by simp))
  · rw [result_word_absent fun h => hstarts (hw h), result_word_absent fun h => hstarts (hw' h)]
    exact .failed

/-- A string in front of the seam. -/
theorem quoted_ahead (hcall : Advancing call) (hcall' : Advancing call') {mark : String}
    (hmark : mark.toList = [q]) (hq : isQuote q = true)
    (hquote : ∀ x ∈ S.left.head?, isQuote x = false) (h : S.Ahead .code opened c c') {v : List Char}
    (hread : (token mark *> stringInside q <* token mark : Phrase _).result call .tight c =
      .matched v n) :
    ∃ n', (token mark *> stringInside q <* token mark : Phrase _).result call' .tight c' =
      .matched v n' ∧ S.Ahead .code opened n n' := by
  have hquotes : q = '"' ∨ q = '\'' := by simpa [isQuote] using hq
  obtain ⟨u, hu, hu'⟩ := h.abreast.front
  obtain ⟨k, m, hopen, hinside, hclose⟩ := parts_of_quoted hmark hread
  -- The scan goes into the string and leaves it, since the seam is in the code.
  have hstring : Scans ⟨.string q, opened, k.rest⟩ (.code S.outer S.left) := by
    have hquoted : Scans (.code opened c.rest) ⟨.string q, opened, k.rest⟩ := by
      rw [hopen.rest_eq]
      exact .quote hq
    refine hquoted.of_length_le h.left ?_
    cases u with
    | nil =>
      have hhead := hquote q (by rw [← List.nil_append S.left, ← hu, hopen.rest_eq]; rfl)
      cases hhead.symm.trans hq
    | cons x u =>
      have hlength := congrArg List.length (hu.symm.trans hopen.rest_eq)
      simp only [List.cons_append, List.length_cons, List.length_append, List.length_nil] at hlength
      dsimp only
      omega
  have hbehind := (ScansIn.of_stringInside hcall hq hinside).go_on (by simp) hstring
  rw [hclose.rest_eq, List.singleton_append] at hbehind
  have hend := ((ScansIn.string_quote (ne_backslash_of_isQuote hq)).go_on (by simp) hbehind).suffix
  have hover := Cursor.Over.of_le (le_of_matched hcall hread)
  have hle : (c.textTo n).length ≤ u.length := by
    have hlength := congrArg List.length (hu.symm.trans hover.rest_eq)
    have hlength' := hend.length_le
    simp only [List.length_append] at hlength hlength'
    omega
  obtain ⟨t, ht⟩ : c.textTo n <+: u :=
    List.prefix_of_prefix_length_le ⟨_, hover.rest_eq.symm⟩ ⟨_, hu.symm⟩ hle
  have hover' : c'.Over (c.textTo n) (c'.advance (c.textTo n).length) :=
    .of_append (by rw [hu', ← ht, List.append_assoc])
  have hread' := quoted_elsewhere hcall hcall' hmark hquotes hread hover hover'
  have hadvance := h.abreast.advance hu hle
  rw [← hover.eq_advance] at hadvance
  exact ⟨_, hread', h.onward hadvance (.of_quoted hcall hq hmark hread)
    (.of_quoted hcall' hq hmark hread')⟩

/-- A string that begins before the seam ends before it. -/
theorem alike_quoted (hcall : Advancing call) (hcall' : Advancing call') {mark : String}
    (hmark : mark.toList = [q]) (hq : isQuote q = true)
    (hquote : ∀ x ∈ S.left.head?, isQuote x = false)
    (hquote' : ∀ x ∈ S.right.head?, isQuote x = false) (h : S.Ahead .code opened c c') :
    Outcome.Alike (· = ·) (S.Ahead .code opened)
      ((token mark *> stringInside q <* token mark : Phrase _).result call .tight c)
      ((token mark *> stringInside q <* token mark : Phrase _).result call' .tight c') := by
  cases ho : (token mark *> stringInside q <* token mark : Phrase _).result call .tight c with
  | matched v n =>
    obtain ⟨n', ho', hn⟩ := quoted_ahead hcall hcall' hmark hq hquote h ho
    rw [ho']
    exact .matched rfl hn
  | failed =>
    cases ho' : (token mark *> stringInside q <* token mark : Phrase _).result call' .tight c' with
    | matched v n' =>
      obtain ⟨_, hmatched, -⟩ := quoted_ahead hcall' hcall hmark hq hquote' h.flip ho'
      cases ho.symm.trans hmatched
    | failed => exact .failed
    | exhausted => exact .exhausted_right _
  | exhausted => exact .exhausted _

/-- A string is read alike on both sides. -/
theorem alike_string (hcall : Advancing call) (hcall' : Advancing call')
    (hquote : ∀ x ∈ S.left.head?, isQuote x = false)
    (hquote' : ∀ x ∈ S.right.head?, isQuote x = false) (h : S.Ahead .code opened c c') :
    Outcome.Alike (· = ·) (S.Ahead .code opened) (Phrase.string.result call s c)
      (Phrase.string.result call' s c') := by
  simp only [Phrase.string, result_spaced, result_named, result_orElse]
  exact (alike_quoted hcall hcall' rfl rfl hquote hquote' h).orElse
    (alike_quoted hcall hcall' rfl rfl hquote hquote' h)

/-! ## Templates -/

/-- A piece of a template ends within the text. -/
theorem pieceLength_le (cs : List Char) : pieceLength cs ≤ cs.length := by
  unfold pieceLength
  split
  · exact le_rfl
  · rename_i rest
    cases rest <;> simp
  · rename_i x rest _
    split <;> simp

/-- Nothing that is escaped or begins a value lies across the seam. -/
theorem Scans.template_head {x : Char} (hx : x = '\\' ∨ x = '$')
    (h : Scans ⟨.template, opened, x :: X⟩ (.code outer X)) :
    x = '$' ∧ X.head? ≠ some '\x7b' := by
  obtain rfl | rfl := hx
  · have htail := ScansIn.template_backslash.go_on (by simp) h
    have hlength := htail.suffix.length_le
    rw [List.length_tail] at hlength
    have heq := htail.eq_of_length (by dsimp only; rw [List.length_tail]; omega)
    cases congrArg Spot.zone heq
  · refine ⟨rfl, fun hhead => ?_⟩
    obtain ⟨Y, rfl⟩ := List.head?_eq_some_iff.mp hhead
    have hlength := (ScansIn.template_value.go_on (by simp) h).suffix.length_le
    simp at hlength

/-- A piece of a template has the same length on both sides. -/
theorem Seam.Ahead.pieceLength_eq (h : S.Ahead .template opened c c') :
    pieceLength c.rest = pieceLength c'.rest := by
  obtain ⟨x, u, hu, hu'⟩ := h.exists_cons (by rintro ⟨⟩)
  have hleft := h.left
  have hright := h.right
  rw [hu] at hleft ⊢
  rw [hu'] at hright ⊢
  cases u with
  | cons y u =>
    by_cases hx : x = '\\'
    · subst hx
      rfl
    · simp [pieceLength]
  | nil =>
    by_cases hx : x = '\\' ∨ x = '$'
    · obtain ⟨rfl, hhead⟩ := hleft.template_head hx
      have hhead' := (hright.template_head hx).2
      simp_all [pieceLength]
    · simp only [not_or] at hx
      simp [pieceLength, hx]

/-- A piece of a template is read alike on both sides. -/
theorem alike_templatePiece (h : S.Ahead .template opened c c') :
    Outcome.Alike (fun _ _ => True) (S.Ahead .template opened)
      (templatePiece.result call .quiet c) (templatePiece.result call' .quiet c') := by
  have hlength := h.pieceLength_eq
  obtain ⟨hzero, ho⟩ | ⟨hpos, v, ho⟩ := result_templatePiece call c <;>
    obtain ⟨hzero', ho'⟩ | ⟨hpos', v', ho'⟩ := result_templatePiece call' c'
  · rw [ho, ho']
    exact .failed
  · omega
  · omega
  · obtain ⟨u, hu, -⟩ := h.abreast.front
    have hbehind := ((ScansIn.drop_pieceLength c.rest).go_on (by simp) h.left).suffix.length_le
    have hle : pieceLength c.rest ≤ u.length := by
      have hle := pieceLength_le c.rest
      simp only [List.length_drop, hu, List.length_append] at hbehind hle ⊢
      omega
    rw [ho, ho', ← hlength]
    refine .matched trivial (h.onward (h.abreast.advance hu hle) ?_ ?_)
    · rw [Cursor.rest_advance]
      exact (ScansIn.drop_pieceLength c.rest).scans
    · rw [Cursor.rest_advance, hlength]
      exact (ScansIn.drop_pieceLength c'.rest).scans

/-- The literal characters of a template are read alike on both sides. -/
theorem alike_templateChars (hcall : Advancing call) (hcall' : Advancing call')
    (h : S.Ahead .template opened c c') :
    Outcome.Alike (· = ·) (S.Ahead .template opened) (templateChars.result call s c)
      (templateChars.result call' s c') := by
  have hmany {k k' : Cursor} (hk : S.Ahead .template opened k k') :
      Outcome.Alike (fun _ _ => True) (S.Ahead .template opened)
        ((Form.many templatePiece).result call .quiet k)
        ((Form.many templatePiece).result call' .quiet k') := by
    rw [result_many_eq hcall rfl rfl (Nat.lt_succ_self _),
      result_many_eq hcall' rfl rfl (Nat.lt_succ_self _)]
    refine Outcome.Alike.imp (E := List.Forall₂ fun _ _ => True) ?_ fun _ _ _ => trivial
    exact .manyResult (fun _ _ => alike_templatePiece) (fun _ _ _ hv => lt_of_matched hcall hv rfl)
      (fun _ _ _ hv => lt_of_matched hcall' hv rfl) hk (Nat.lt_succ_self _) (Nat.lt_succ_self _)
  change Outcome.Alike _ _
    ((Form.atom (text (atLeastOne templatePiece)) : Phrase _).result call s c)
    ((Form.atom (text (atLeastOne templatePiece)) : Phrase _).result call' s c')
  simp only [Form.atom, result_named, result_spaced, result_text]
  refine Outcome.Alike.andThen (E := fun _ _ => True) (R := S.Ahead .template opened) ?_
    fun v v' n n' hv hv' _ hn => ?_
  · simp only [atLeastOne, result_combine, Spacing.skip]
    exact (alike_templatePiece h).andThen fun _ _ _ _ _ _ _ hk =>
      (hmany hk).map fun _ _ _ => trivial
  · refine .matched (h.abreast.textTo_eq hn.abreast ?_ ?_) hn
    · exact le_of_matched hcall hv
    · exact le_of_matched hcall' hv'

section

variable {K : Correspondence Rule} {After : Cursor → Cursor → Prop}
  (hstep : KeepsStep S ends K After call call')
include hstep

/-- The characters of a template correspond to themselves. -/
theorem KeepsStep.corresponds_templateChars (v : List Char) :
    templateChars.Corresponds K s v v := by
  have hpiece : templatePiece.Corresponds K .quiet [] [] :=
    .inl ⟨(.ofText [], [], 'x'), (.ofText [], [], 'x'), ⟨hstep.position _, rfl, ((), 'x'), ((), 'x'),
      ⟨trivial, rfl⟩, rfl, rfl⟩, rfl, rfl⟩
  exact ⟨(.ofText [], v, [[]]), (.ofText [], v, [[]]), ⟨hstep.position _, rfl, ([], []), ([], []),
    ⟨hpiece, .nil⟩, rfl, rfl⟩, rfl, rfl⟩

omit hstep in
/-- A word of one character stands in front of the seam, if it does not stand there. -/
theorem prefix_of_head {x : Char} (hX : X.head? ≠ some x) (hw : [x] <+: u ++ X) : [x] <+: u := by
  cases u with
  | nil =>
    obtain ⟨Y, hY⟩ := hw
    exact absurd (by rw [← List.nil_append X, ← hY]; rfl) hX
  | cons y u =>
    exact List.cons_prefix_cons.mpr ⟨(List.cons_prefix_cons.mp hw).1, List.nil_prefix⟩

omit hstep in
/-- The beginning of a value stands in front of the seam. -/
theorem Scans.prefix_of_value (hzone : Scans ⟨.template, opened, u ++ X⟩ (.code outer X))
    (hw : ['$', '\x7b'] <+: u ++ X) : ['$', '\x7b'] <+: u := by
  obtain _ | ⟨x, _ | ⟨y, u⟩⟩ := u
  · cases congrArg Spot.zone (hzone.eq_of_length le_rfl)
  · obtain ⟨rfl, Y, hY⟩ := List.cons_prefix_cons.mp hw
    have hhead : X.head? = some '\x7b' := by
      rw [show X = ['\x7b'] ++ Y from hY.symm]
      rfl
    exact absurd hhead (hzone.template_head (.inr rfl)).2
  · obtain ⟨rfl, hy⟩ := List.cons_prefix_cons.mp hw
    obtain ⟨rfl, -⟩ := List.cons_prefix_cons.mp hy
    exact List.cons_prefix_cons.mpr ⟨rfl, List.cons_prefix_cons.mpr ⟨rfl, List.nil_prefix⟩⟩

omit hstep in
/-- No closing bracket of a value stands at the seam. -/
theorem Seam.Ends.head_ne (hX : Seam.Ends ends outer X)
    (h : Scans (.code (.value :: opened) (u ++ X)) (.code outer X)) (hw : ['\x7d'] <+: u ++ X) :
    ['\x7d'] <+: u := by
  cases u with
  | nil =>
    refine prefix_of_head (fun hhead => ?_) hw
    have heq := h.eq_of_length le_rfl
    cases (congrArg Spot.opened heq).trans (hX.closing _ hhead rfl)
  | cons y u =>
    exact List.cons_prefix_cons.mpr ⟨(List.cons_prefix_cons.mp hw).1, List.nil_prefix⟩

/-- A value in a template is read alike, or holds the seam. -/
theorem alike_templateValue (h : S.Ahead .template opened c c') :
    Outcome.Alike (templateValue.Corresponds K s) (S.Meets After .tight .template opened)
      (templateValue.result call s c) (templateValue.result call' s c') := by
  obtain ⟨u, hu, hu'⟩ := h.abreast.front
  have hopen : Outcome.Alike (· = ·) (S.Ahead .code (.value :: opened))
      ((token "$\x7b" : Phrase Unit).result call .free c)
      ((token "$\x7b" : Phrase Unit).result call' .free c') := by
    refine (alike_word h.abreast hu hu' ?_ ?_).behind fun _ _ k k' hk hk' hn => h.onward hn ?_ ?_
    · rw [hu]
      exact (hu ▸ h.left).prefix_of_value
    · rw [hu']
      exact (hu' ▸ h.right).prefix_of_value
    · rw [(over_of_token hk).rest_eq]
      exact ScansIn.template_value.scans
    · rw [(over_of_token hk').rest_eq]
      exact ScansIn.template_value.scans
  have hclose {m m' : Cursor} (hm : S.Meets After .free .code (.value :: opened) m m') :
      Outcome.Alike (fun _ _ => True) (S.Meets After .tight .template opened)
        ((token "\x7d" : Phrase Unit).result call .free m)
        ((token "\x7d" : Phrase Unit).result call' .free m') := by
    obtain hm | ⟨-, hm⟩ := hm
    · obtain ⟨u, hu, hu'⟩ := hm.abreast.front
      refine ((alike_word hm.abreast hu hu' ?_ ?_).behind fun _ _ k k' hk hk' hn =>
        .inl (hm.onward hn ?_ ?_)).imp fun _ _ _ => trivial
      · rw [hu]
        exact hstep.left.head_ne (hu ▸ hm.left)
      · rw [hu']
        exact hstep.right.head_ne (hu' ▸ hm.right)
      · rw [(over_of_token hk).rest_eq]
        exact Scans.closing_value rfl
      · rw [(over_of_token hk').rest_eq]
        exact Scans.closing_value rfl
    · exact ((hstep.after (token "\x7d") .free hm).imp fun _ _ _ => trivial).behind
        fun _ _ _ _ _ _ hn => Or.inr ⟨nofun, hn⟩
  simp only [templateValue, result_spaced, result_named, result_seqLeft, result_seqRight,
    result_rule]
  refine Outcome.Alike.andThen (E := K.value .expression)
    (R := S.Meets After .free .code (.value :: opened)) ?_ fun v v' m m' _ _ hv hm =>
      (hclose (hm.skip hstep)).map fun _ _ _ => ?_
  · refine hopen.andThen fun _ _ k k' _ _ _ hk => ?_
    obtain hk | ⟨hs, hk⟩ := Seam.Meets.skip (s := .free) hstep (.inl hk)
    · exact hstep.rules .expression hk
    · exact hstep.alike_after (.rule .expression) hs hk
  · exact ⟨(v, ()), (v', ()), ⟨⟨((), v), ((), v'), ⟨trivial, hv⟩, rfl, rfl⟩, trivial⟩, rfl, rfl⟩

/-- A part of a template is read alike, or holds the seam. -/
theorem alike_templatePart (h : S.Ahead .template opened c c') :
    Outcome.Alike (templatePart.Corresponds K s) (S.Meets After .tight .template opened)
      (templatePart.result call s c) (templatePart.result call' s c') := by
  simp only [templatePart, result_orElse, result_fmap]
  refine .orElse ?_ ?_
  · refine (alike_templateChars hstep.advancing hstep.advancing' h).behind
      (fun _ _ _ _ _ _ hn => Or.inl hn) |>.map ?_
    rintro v _ rfl
    exact .inl ⟨v, v, hstep.corresponds_templateChars v, rfl, rfl⟩
  · exact (alike_templateValue hstep h).map fun v v' hv => .inr ⟨v, v', hv, rfl, rfl⟩

/-- **A template is read in the same way** up to the seam, and on behind its blanks. -/
theorem alike_templateBody (h : S.Ahead .code opened c c') :
    Outcome.Alike (templateBody.Corresponds K s) (S.Meets After .tight .code opened)
      (templateBody.result call s c) (templateBody.result call' s c') := by
  have hmark {X : List Char} (hX : Seam.Ends ends S.outer X) : X.head? ≠ some '`' := fun hhead =>
    (hX.quote _ hhead).2 rfl
  have hagain {k k' : Cursor} (hk : S.Meets After .tight .template opened k k') :
      Outcome.Alike (templatePart.Corresponds K .tight) (S.Meets After .tight .template opened)
        (templatePart.result call .tight k) (templatePart.result call' .tight k') := by
    obtain hk | ⟨hs, hk⟩ := hk
    · exact alike_templatePart hstep hk
    · exact hstep.alike_after _ hs hk
  have hmany {k k' : Cursor} (hk : S.Meets After .tight .template opened k k') :
      Outcome.Alike (List.Forall₂ (templatePart.Corresponds K .tight))
        (S.Meets After .tight .template opened)
        ((Form.many templatePart).result call .tight k)
        ((Form.many templatePart).result call' .tight k') := by
    rw [result_many_eq hstep.advancing rfl rfl (Nat.lt_succ_self _),
      result_many_eq hstep.advancing' rfl rfl (Nat.lt_succ_self _)]
    exact .manyResult (fun _ _ => hagain)
      (fun _ _ _ hv => lt_of_matched hstep.advancing hv rfl)
      (fun _ _ _ hv => lt_of_matched hstep.advancing' hv rfl) hk (Nat.lt_succ_self _)
      (Nat.lt_succ_self _)
  have hopen : Outcome.Alike (· = ·) (S.Ahead .template opened)
      ((token "`" : Phrase Unit).result call .tight c)
      ((token "`" : Phrase Unit).result call' .tight c') := by
    obtain ⟨u, hu, hu'⟩ := h.abreast.front
    refine (alike_word h.abreast hu hu' ?_ ?_).behind fun _ _ k k' hk hk' hn => h.onward hn ?_ ?_
    · rw [hu]
      exact prefix_of_head (hmark hstep.left)
    · rw [hu']
      exact prefix_of_head (hmark hstep.right)
    · rw [(over_of_token hk).rest_eq]
      exact .backtick
    · rw [(over_of_token hk').rest_eq]
      exact .backtick
  have hclose {m m' : Cursor} (hm : S.Meets After .tight .template opened m m') :
      Outcome.Alike (fun _ _ => True) (S.Meets After .tight .code opened)
        ((token "`" : Phrase Unit).result call .tight m)
        ((token "`" : Phrase Unit).result call' .tight m') := by
    obtain hm | ⟨hs, hm⟩ := hm
    · obtain ⟨u, hu, hu'⟩ := hm.abreast.front
      refine ((alike_word hm.abreast hu hu' ?_ ?_).behind fun _ _ k k' hk hk' hn =>
        .inl (hm.onward hn ?_ ?_)).imp fun _ _ _ => trivial
      · rw [hu]
        exact prefix_of_head (hmark hstep.left)
      · rw [hu']
        exact prefix_of_head (hmark hstep.right)
      · rw [(over_of_token hk).rest_eq]
        exact ScansIn.template_backtick.scans
      · rw [(over_of_token hk').rest_eq]
        exact ScansIn.template_backtick.scans
    · exact ((hstep.after (token "`") .tight hm).imp fun _ _ _ => trivial).behind
        fun _ _ _ _ _ _ hn => Or.inr ⟨hs, hn⟩
  simp only [templateBody, result_spaced, result_named, result_seqLeft, result_seqRight,
    Spacing.skip]
  refine Outcome.Alike.andThen (E := List.Forall₂ (templatePart.Corresponds K .tight))
    (R := S.Meets After .tight .template opened) ?_ fun v v' m m' _ _ hv hm =>
      (hclose hm).map fun _ _ _ => ?_
  · exact hopen.andThen fun _ _ k k' _ _ _ hk => hmany (.inl hk)
  · exact ⟨(v, ()), (v', ()), ⟨⟨((), v), ((), v'), ⟨trivial, hv⟩, rfl, rfl⟩, trivial⟩, rfl, rfl⟩

/-! ## Rules -/

/-- The characters of a string correspond to themselves. -/
theorem KeepsStep.corresponds_string (v : List Char) :
    Phrase.string.Corresponds K s v v := by
  have hinside : (stringInside '"').Corresponds K .tight v v :=
    ⟨(.ofText [], v, []), (.ofText [], v, []), ⟨hstep.position _, rfl, .nil⟩, rfl, rfl⟩
  exact .inl ⟨(v, ()), (v, ()), ⟨⟨((), v), ((), v), ⟨trivial, hinside⟩, rfl, rfl⟩, trivial⟩,
    rfl, rfl⟩

/-- **The definition of a rule is read in the same way** up to the seam, and on behind
its blanks. -/
theorem alike_phrase {α : Type} (r : Rule α)
    (hr : r.isQuoted = true ∨ apart ends .free r.phrase = true) (h : S.Ahead .code opened c c') :
    Outcome.Alike (r.phrase.Corresponds K .free) (S.Meets After .free .code opened)
      (r.phrase.result call .free c) (r.phrase.result call' .free c') := by
  cases hquoted : r.isQuoted with
  | false =>
    exact alike_ahead hstep r.phrase (r.nesting_phrase hquoted)
      (hr.resolve_left (by simp [hquoted])) nofun h
  | true =>
    cases r with
    | string =>
      refine (alike_string hstep.advancing hstep.advancing'
        (fun x hx => (hstep.left.quote x hx).1) (fun x hx => (hstep.right.quote x hx).1) h).behind
          (fun _ _ _ _ _ _ hn => Or.inl hn) |>.imp ?_
      rintro v _ rfl
      exact hstep.corresponds_string v
    | template =>
      rw [Rule.phrase, Phrase.template, result_fmap, result_fmap]
      have hbody : Outcome.Alike (templateBody.Corresponds K .free)
          (S.Meets After .free .code opened) (templateBody.result call .free c)
          (templateBody.result call' .free c') :=
        (alike_templateBody hstep h).behind fun _ _ _ _ _ _ hn => hn.spaced (.inl (by decide))
      exact hbody.map fun v v' hv => ⟨v, v', hv, rfl, rfl⟩
    | _ => cases hquoted

end

end ScriptTrace.Syntax
