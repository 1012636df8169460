import ScriptTrace.Proofs.Syntax.RoundTrip
import ScriptTrace.Proofs.Syntax.Target

/-!
# Proofs/Syntax/Destructuring — declarations and assignments of patterns

A plain pattern is the same pattern in every text (`plain_in_texts`).  So a declaration and an
assignment in parentheses with the same plain pattern are programs for the same patterns, with the
same target (`destructuring_agrees`).
-/

namespace ScriptTrace.Syntax

open Grammar
open Grammar.Form
open Phrase
open Places

/-! ## Longer texts -/

section

variable {α : Type} {fuel k : Nat} {c c' m m' n : Cursor} {P R : List Char} {y : Char}
  {close : String}

/-- **A list is the same list** if other text stands behind it. -/
theorem listed_in_text {a : Phrase α} (hclose : close.toList = [y]) (hy : isClosing y = true)
    (hnesting : nesting .free true (commaList a) 0 = some 0)
    (hstars : starsApart (commaList a) = true ∧ endsInSlash (commaList a) = false)
    (hapart : apart [] .free (commaList a) = true) (hshelter : (commaList a).isSheltered = true)
    (hblind : (commaList a).Blind) (hposition : m.position = m'.position)
    (hm' : m'.rest = m.rest ++ R) {vs : List α} (hn : n.rest = [])
    (h : (listed a close).result (followPlain k) .free m.skipBlanks = .matched vs n)
    (hroom : (listed a close).result (followPlain fuel) .free m'.skipBlanks ≠ .exhausted) :
    ∃ n', (listed a close).result (followPlain fuel) .free m'.skipBlanks = .matched vs n' ∧
      n'.rest = R := by
  have hscan : Scans (.code [] m.rest) (.code [] [y]) := by
    have hclosed : Scans (.code [] _) _ :=
      (keeps_followPlain k).of_closed hclose hnesting hstars m.isSolid_skipBlanks h
    rw [hn] at hclosed
    exact (Scans.skip .free).trans hclosed
  obtain ⟨u, hu⟩ : [y] <:+ m.rest := Scans.suffix hscan
  have hu' : m'.rest = u ++ y :: R := by rw [hm', ← hu, List.append_assoc, List.singleton_append]
  have hpace : KeepsPace u y [] R (followPlain k) (followPlain fuel) :=
    keepsPace_followPlain hy u [] R k fuel
  have hahead : (bracketSeam u y [] R).Ahead .code [] m m' := by
    refine ⟨hu ▸ List.suffix_refl _, ⟨⟨u, hu.symm, hu'⟩, hposition⟩, hscan, ?_⟩
    rw [hu']
    rw [← hu] at hscan
    exact Scans.front (standsFor_of_isClosing hy) hscan
  have hsolid : true = true → m.skipBlanks.IsSolid ∧ m'.skipBlanks.IsSolid := fun _ =>
    ⟨m.isSolid_skipBlanks, m'.isSolid_skipBlanks⟩
  have halike := KeepsPace.alike hpace (commaList a) hnesting hapart hshelter hblind hsolid
    (hahead.skip_bracket hy)
  simp only [listed, result_seqLeft] at h hroom ⊢
  rw [Outcome.andThen_eq_matched] at h
  obtain ⟨v, e, hv, h⟩ := h
  obtain ⟨_, hend, rfl⟩ := Outcome.map_eq_matched.mp h
  rw [hv] at halike
  cases hread : (commaList a).result (followPlain fuel) .free m'.skipBlanks with
  | matched v' e' =>
    rw [hread] at halike
    obtain ⟨hlike, he⟩ := halike.pair
    obtain rfl : v = v' := hlike
    -- The closing bracket stands behind both.
    obtain ⟨w, hw, hw'⟩ := ((he.resolve_right And.right).skip_bracket hy).abreast.front
    have hend : (Spacing.free.skip e).Over [y] n := hclose ▸ over_of_token hend
    obtain rfl : w = [] := by
      refine List.append_left_eq_self.mp (hw.symm.trans ?_)
      rw [← hn]
      exact hend.rest_eq
    have hover : (Spacing.free.skip e').Over [y] ((Spacing.free.skip e').advance 1) :=
      .of_append (w := [y]) hw'
    refine ⟨(Spacing.free.skip e').advance 1, ?_, ?_⟩
    · rw [Outcome.andThen_matched, result_token close (hclose ▸ hover), Outcome.map_matched]
    · exact Cursor.rest_advance .. |>.trans (congrArg (List.drop 1) hw')
  | failed =>
    rw [hread] at halike
    exact absurd rfl halike.ne_failed
  | exhausted =>
    rw [hread] at hroom
    exact absurd rfl hroom

theorem blind_plainSlots : (commaList plainSlot).Blind := by
  repeat' apply And.intro
  all_goals first
    | exact trivial
    | (intro c c' t v h; exact congrArg (·, v) h)

theorem blind_plainProperties : (commaList plainProperty).Blind := by
  repeat' apply And.intro
  all_goals first
    | exact trivial
    | (intro c c' t v h; rfl)
    | (intro c c' t v h; exact congrArg (·, v) h)

/-- A plain pattern that begins with a bracket is an array pattern. -/
theorem result_plain_of_bracket (h : c.Over ['['] m) :
    (readPlain (k + 1) .free c).outcome =
      ((listed plainSlot "]").result (followPlain k) .free m.skipBlanks).map
        Syntax.arrayPattern := by
  rw [result_readPlain, plainPattern, plainArray, plainObject]
  simp only [result_named, result_orElse, result_fmap, name_failed_of_bracket h.rest_eq (.inl rfl),
    result_bracketed_list, result_token "[" h, token_other (k := "\x7b") h.rest_eq rfl (by decide),
    Outcome.andThen_matched, Outcome.andThen_failed, Outcome.map_failed, Outcome.orElse_failed]
  cases (listed plainSlot "]").result (followPlain k) .free m.skipBlanks <;> rfl

/-- A plain pattern that begins with a brace is an object pattern. -/
theorem result_plain_of_brace (h : c.Over ['\x7b'] m) :
    (readPlain (k + 1) .free c).outcome =
      ((listed plainProperty "\x7d").result (followPlain k) .free m.skipBlanks).map
        Syntax.objectPattern := by
  rw [result_readPlain, plainPattern, plainArray, plainObject]
  simp only [result_named, result_orElse, result_fmap, name_failed_of_bracket h.rest_eq (.inr rfl),
    result_bracketed_list, result_token "\x7b" h, token_other (k := "[") h.rest_eq rfl (by decide),
    Outcome.andThen_matched, Outcome.andThen_failed, Outcome.map_failed, Outcome.orElse_failed]

/-- **A plain pattern is the same pattern in a longer text**, at the same place. -/
theorem plain_of_standing (hc : c.rest = P) (hc' : c'.rest = P ++ R)
    (hposition : c.position = c'.position) (hbounds : Bounds R)
    {target : Built Pattern} (h : (readPlain k .free c).outcome = .matched target n)
    (hn : n.rest = []) :
    ∃ fuel n', (readPlain fuel .free c').outcome = .matched target n' ∧ n'.rest = R := by
  cases k with
  | zero => cases h
  | succ k =>
    obtain ⟨fuel, hroom⟩ : ∃ fuel, Roomy (fuel + 1) c' :=
      ⟨rulesPerPlace * (c'.rest.length + 1), Nat.le_succ _⟩
    have hbracket {x : Char} {m : Cursor} (hopen : c.Over [x] m) :
        c'.Over [x] c'.step ∧ m.position = c'.step.position ∧ c'.step.rest = m.rest ++ R := by
      have hm : c'.rest = x :: (m.rest ++ R) := by
        rw [hc', ← hc, hopen.rest_eq]
        rfl
      obtain rfl : c.step = m := hopen.eq_advance.symm
      refine ⟨.of_append (w := [x]) hm, ?_, by rw [Cursor.rest_step, hm, List.tail_cons]⟩
      rw [Cursor.step_of_cons hopen.rest_eq, Cursor.step_of_cons hm, hposition]
    refine ⟨fuel + 1, ?_⟩
    obtain ⟨x, hname, rfl⟩ | ⟨m, vs, hopen, rfl, hlist⟩ | ⟨m, vs, hopen, rfl, hlist⟩ :=
      exists_of_plain (follow k) h
    · obtain ⟨hword, hfree, hover, -⟩ := over_of_name (advancing_follow k) hname
      have hrest : c'.rest = x.toList ++ R := by
        rw [hc', ← hc, hover.rest_eq, hn, List.append_nil]
      have hover' : c'.Over x.toList (c'.advance x.toList.length) := .of_append hrest
      have hend : (c'.advance x.toList.length).rest = R := by
        rw [Cursor.rest_advance, hrest, List.drop_left]
      have hread : name.result (followPlain fuel) .free c' =
          .matched x (c'.advance x.toList.length) :=
        result_name (advancing_followPlain fuel) hword hfree hover' (hend.symm ▸ hbounds)
      refine ⟨_, ?_, hend⟩
      rw [result_readPlain, plainPattern, result_named, result_orElse, result_fmap, hread]
      rfl
    · obtain ⟨hover, hm, hrest⟩ := hbracket hopen
      have hne := readPlain_ne_exhausted (s := .free) hroom
      have hread := result_plain_of_bracket (k := fuel) hover
      obtain ⟨n', hlist', hn'⟩ := listed_in_text rfl rfl (by decide) (by decide) (by decide)
        (by decide) blind_plainSlots hm hrest hn hlist fun hexhausted =>
          hne (hread.trans (by rw [hexhausted]; rfl))
      exact ⟨n', by rw [hread, hlist', Outcome.map_matched], hn'⟩
    · obtain ⟨hover, hm, hrest⟩ := hbracket hopen
      have hne := readPlain_ne_exhausted (s := .free) hroom
      have hread := result_plain_of_brace (k := fuel) hover
      obtain ⟨n', hlist', hn'⟩ := listed_in_text rfl rfl (by decide) (by decide) (by decide)
        (by decide) blind_plainProperties hm hrest hn hlist fun hexhausted =>
          hne (hread.trans (by rw [hexhausted]; rfl))
      exact ⟨n', by rw [hread, hlist', Outcome.map_matched], hn'⟩

/-- **A plain pattern is a pattern in a longer text**, the one that its text is by itself. -/
theorem plain_in_text (hP : IsPlainPattern P) (hroom : rulesPerPlace * (P.length + 1) ≤ fuel)
    (hc : c.rest = P ++ R) (hbounds : Bounds R) :
    ∃ k target n, (readPlain k .free c).outcome = .matched target n ∧ n.rest = R ∧
      ∃ d m, d.rest = P ∧
        (Form.rule .pattern : Phrase _).result (follow (fuel + 1)) .free d = .matched target m := by
  obtain ⟨k, target, n, h, hn⟩ := hP
  have hsame : (Cursor.ofText P).rest = (⟨P, c.offset, c.position⟩ : Cursor).rest := rfl
  obtain ⟨target', m, h', hm⟩ := Outcome.Related.exists_matched
    (h ▸ elsewhere_followPlain k .pattern .free hsame)
  obtain ⟨_, n', hread, hn'⟩ := plain_of_standing (c := ⟨P, c.offset, c.position⟩) rfl hc rfl
    hbounds h' (hm ▸ hn)
  exact ⟨_, target', n', hread, hn', _, m, rfl, pattern_of_plain h' hroom⟩

/-- **Plain patterns are the same in all texts**, up to places. -/
theorem plain_in_texts {R' : List Char} (hP : IsPlainPattern P) (hc : c.rest = P ++ R)
    (hc' : c'.rest = P ++ R') (hbounds : Bounds R) (hbounds' : Bounds R') :
    ∃ k k' target target' n n', (readPlain k .free c).outcome = .matched target n ∧ n.rest = R ∧
      (readPlain k' .free c').outcome = .matched target' n' ∧ n'.rest = R' ∧
      unplaced target = unplaced target' := by
  obtain ⟨fuel, hroom⟩ : ∃ fuel, rulesPerPlace * (P.length + 1) ≤ fuel := ⟨_, le_refl _⟩
  obtain ⟨k, target, n, h, hn, d, m, hd, hread⟩ := plain_in_text hP hroom hc hbounds
  obtain ⟨k', target', n', h', hn', d', m', hd', hread'⟩ := plain_in_text hP hroom hc' hbounds'
  have halike :
    Outcome.Alike _ _ ((Form.rule .pattern : Phrase _).result (follow (fuel + 1)) .free d)
      ((Form.rule .pattern : Phrase _).result (follow (fuel + 1)) .free d') :=
    result_alike_elsewhere Relocation.steady_toStart (.rule .pattern) ⟨hd.trans hd'.symm, rfl⟩
  rw [hread, hread'] at halike
  refine ⟨k, k', target, target', n, n', h, hn, h', hn', ?_⟩
  rw [← relocated_toStart_pattern, ← relocated_toStart_pattern]
  exact halike.pair.1

end

/-! ## A value behind a pattern -/

/-- A name behind an equals sign, with `T` behind it. -/
def given (x : String) (T : List Char) : List Char := ' ' :: '=' :: ' ' :: (x.toList ++ T)

/-- What stands behind the value: nothing, or a parenthesis. -/
def IsEnd (T : List Char) : Prop := T = [] ∨ T = [')']

section

variable {fuel : Nat} {c n : Cursor} {x : String} {T : List Char}

theorem IsEnd.isSolid (hT : IsEnd T) (hn : n.rest = T) : n.IsSolid := by
  obtain rfl | rfl := hT
  · exact Cursor.isSolid_of_nil hn
  · exact Cursor.isSolid_of_cons hn rfl (by decide)

/-- The end of the text closes what stands before it. -/
theorem IsEnd.closes (hT : IsEnd T) : Closes T := by
  obtain rfl | rfl := hT
  · exact .finish
  · exact .parenthesis []

theorem bounds_given : Bounds (given x T) := bounds_of_cons rfl _

/-- **The value is read** behind the sign, up to what stands behind it. -/
theorem exists_value (hx : IsName x) (hT : IsEnd T) (hn : n.rest = given x T)
    (hroom : Roomy fuel n) :
    ∃ d p m, Assigned n.skipBlanks.rest ∧ n.skipBlanks.Over ['='] d ∧
      (follow (fuel + 1) .assignment .free d.skipBlanks).outcome =
        .matched (.ok (.mk (.name x) p)) m ∧ m.rest = T := by
  have hrest : n.rest = (' ' :: (['='] ++ ' ' :: x.toList)) ++ T := hn
  obtain ⟨m, hover, hm⟩ : ∃ m, n.Over (' ' :: (['='] ++ ' ' :: x.toList)) m ∧ m.rest = T :=
    ⟨_, .of_append hrest, by rw [Cursor.rest_advance, hrest, List.drop_left]⟩
  obtain ⟨d, k, hsign, hspace, hname⟩ := over_mark ['='] hover fun _ => rfl
  have hformula := Expr.IsFormula.name (p := .start) hx
  have hk := hspace.skipBlanks_eq (hformula.isFormulaText.isSolid hname)
  have hready : Ready fuel k := by
    refine ⟨?_, ?_⟩
    · rw [hname.rest_eq, hm]
      refine hformula.isFormulaText.arrowless.append ?_ ?_
      · obtain rfl | rfl := hT <;> exact arrowless_of_not_mem (by decide)
      · obtain rfl | rfl := hT <;> decide
    · have hle : n ≤ k := n.le_skipBlanks.trans (hsign.le.trans hspace.le)
      have hroom' := hroom.mono hle
      unfold Roomy rulesPerPlace at hroom'
      unfold rulesPerPlace
      omega
  obtain ⟨e, hread, halike⟩ := hformula.parses.whole.read hready hname (hm ▸ hT.closes)
  cases halike with
  | name _ _ q =>
    rw [(hT.isSolid hm).skipBlanks_eq] at hread
    refine ⟨d, q, m, ⟨_, hsign.rest_eq, ?_⟩, hsign, hk ▸ hread, hm⟩
    rw [hspace.rest_eq]
    exact ⟨nofun, nofun⟩

end

/-! ## Declarations -/

section

variable {fuel k : Nat} {c m n : Cursor} {x : String} {target : Built Pattern}

/-- A pattern with a name behind it is read as a declared variable. -/
theorem exists_declarator (h : (readPlain k .free c).outcome = .matched target n)
    (hroom : Roomy fuel c) (hx : IsName x) (hn : n.rest = given x []) :
    ∃ p e, declarator.result (follow (fuel + 1)) .free c =
      .matched (c.position, target, some (.ok (.mk (.name x) p))) e ∧ e.rest = [] := by
  have htarget : (follow (fuel + 1) .pattern .free c).outcome = .matched target n :=
    pattern_of_plain h hroom
  have hle := (advancing_followPlain k .pattern _ _ _ _ h).le
  obtain ⟨d, p, e, -, hsign, hvalue, he⟩ := exists_value hx (.inl rfl) hn (hroom.mono hle)
  refine ⟨p, e, ?_, he⟩
  simp only [declarator, result_placed, result_named, result_both, result_rule, htarget,
    Outcome.andThen_matched, Spacing.skip, result_perhaps, result_seqRight,
    result_token "=" hsign, hvalue, Outcome.map_matched, Outcome.orElse_matched]

/-- **A declaration of a plain pattern is a statement**, if the pattern is built. -/
theorem exists_declaration (hlet : c.Over "let".toList m) (hm : m.rest.head? = some ' ')
    (h : (readPlain k .free m.skipBlanks).outcome = .matched target n)
    (hroom : Roomy fuel m.skipBlanks) (hx : IsName x) (hn : n.rest = given x []) :
    ∃ p e, statementNode.result (follow (fuel + 1)) .free c =
      .matched (target.map fun t => .declare .lexical [.mk t (some (.mk (.name x) p))]) e ∧
        e.rest = [] := by
  obtain ⟨p, e, hread, he⟩ := exists_declarator h hroom hx hn
  refine ⟨p, e, ?_, he⟩
  have hbounds : Bounds m.rest := by
    obtain ⟨X, hX⟩ := List.head?_eq_some_iff.mp hm
    exact hX ▸ bounds_of_cons rfl X
  have hvar : (wholeWord "var").result (follow (fuel + 1)) .quiet c = .failed := by
    have hkeyword : (keyword "var").result (follow (fuel + 1)) .free c = .failed :=
      keyword_other hlet rfl hbounds rfl (by decide)
    rwa [keyword, atom, result_named, result_spaced] at hkeyword
  have hself : (wholeWord "let").result (follow (fuel + 1)) .quiet c = .matched () m := by
    have hkeyword : (keyword "let").result (follow (fuel + 1)) .free c = .matched () m :=
      keyword_self hlet hbounds
    rwa [keyword, atom, result_named, result_spaced] at hkeyword
  have hblock : (Form.rule .block : Phrase _).result (follow (fuel + 1)) .free c = .failed := by
    change block.result (follow fuel) .free c = _
    simp only [block, result_fmap, result_named, result_seqLeft, result_seqRight,
      token_other (k := "\x7b") hlet.rest_eq rfl (by decide), Outcome.andThen_failed,
      Outcome.map_failed]
  have hend (w : String) (hw : w.toList ≠ []) :
      (token w : Phrase Unit).result (follow (fuel + 1)) .free e = .failed := by
    refine result_token_absent w ?_
    rw [he, List.prefix_nil]
    exact hw
  simp only [statementNode, result_orElse, result_fmap, hblock, Outcome.map_failed,
    Outcome.orElse_failed, variableStatement, declaration, declarationKind, commaSeparated, atom,
    semicolon, result_named, result_spaced, result_seqLeft, result_combine, hvar, hself,
    Outcome.map_matched, Outcome.orElse_matched, Outcome.andThen_matched, Spacing.skip, hread,
    result_many, result_seqRight, (Cursor.isSolid_of_nil he).skipBlanks_eq,
    hend "," (by decide), hend ";" (by decide), Outcome.andThen_failed, result_perhaps]
  cases target <;> rfl

end

/-! ## Assignments in parentheses -/

section

variable {fuel k : Nat} {c d e n : Cursor} {x : String} {target : Built Pattern} {v : Built Expr}
  {p : Position} {Y : List Char}

/-- **The assignment of a value to a pattern**, if the pattern is built. -/
inductive Assigns (x : String) (target : Built Pattern) (v : Built Expr) : Prop
  | built {t : Pattern} {p q : Position} (ht : target = .ok t)
    (hv : v = .ok (.mk (.assign .plain t (.mk (.name x) p)) q))
  | faulty {error : SyntaxError} (ht : ∀ t, target ≠ .ok t) (hv : v = .error error)

/-- **An assignment to a literal that is recast writes to the pattern.** -/
theorem Recast.assigns {left : Built Expr} (h : Recast target left) (q : Position) :
    Assigns x target
      (left >>= fun left => Syntax.assignment q left .plain (.ok (.mk (.name x) p))) := by
  cases left with
  | error error =>
    refine .faulty (fun t ht => ?_) rfl
    obtain ⟨_, he, -⟩ := (h.iff t).mp ht
    cases he
  | ok left =>
    cases hleft : left.toPattern with
    | ok t =>
      refine .built ((h.iff t).mpr ⟨left, rfl, hleft⟩) (p := p) (q := q) ?_
      simp only [bind, Except.bind, Syntax.assignment, decide_true, Bool.true_or, if_true, hleft]
      rfl
    | error error =>
      have hfault : (Except.ok left >>= fun left =>
          Syntax.assignment q left .plain (.ok (.mk (.name x) p))) = .error error := by
        simp only [bind, Except.bind, Syntax.assignment, decide_true, Bool.true_or, if_true, hleft]
      refine .faulty (fun t ht => ?_) hfault
      obtain ⟨_, he, ht⟩ := (h.iff t).mp ht
      cases he
      cases ht.symm.trans hleft

/-- **A value is assigned to a plain pattern**, or no expression is read. -/
theorem assignment_of_plain (h : (readPlain k .free d).outcome = .matched target n)
    (hroom : Roomy fuel d) (hx : IsName x) (hn : n.rest = given x [')']) :
    (∃ v e, Phrase.assignment.result (follow (fuel + 1)) .free d = .matched v e ∧
      e.rest = [')'] ∧ Assigns x target v) ∨
    (∀ t, target ≠ .ok t) ∧ Phrase.assignment.result (follow (fuel + 1)) .free d = .failed := by
  have hle := (advancing_followPlain k .pattern _ _ _ _ h).le
  obtain ⟨m, p, e, hsign, hover, hvalue, he⟩ := exists_value hx (.inr rfl) hn (hroom.mono hle)
  have harrow : arrow.result (follow (fuel + 1)) .free d = .failed :=
    arrow_failed_of_plain h (.assigned hsign)
  obtain ⟨left, hleft, hcast⟩ | ⟨hdead, hfailed⟩ :=
    conditional_of_plain h (hroom.trans (Nat.le_succ fuel)) (.assigned hsign)
  · exact .inl ⟨_, e, assignment_of_assigned harrow hleft hsign hover hvalue, he,
      hcast.assigns d.position⟩
  · exact .inr ⟨hdead, assignment_failed harrow hfailed⟩

/-- The parenthesis behind the value is the first one that closes. -/
theorem scans_given (hx : IsName x) (hn : n.rest = given x [')']) :
    Scans (.code [] n.rest) (.code [] [')']) := by
  obtain ⟨fuel, hroom⟩ : ∃ fuel, Roomy fuel n := ⟨_, le_refl _⟩
  obtain ⟨d, p, e, -, hsign, hvalue, he⟩ := exists_value hx (.inr rfl) hn hroom
  have hbehind := (keeps_follow (fuel + 1)).scans .assignment [] hvalue
  rw [he] at hbehind
  have hequal : Scans (.code [] n.skipBlanks.rest) (.code [] d.rest) := by
    rw [hsign.rest_eq]
    exact .plain rfl
  exact (Scans.skip .free).trans (hequal.trans ((Scans.skip .free).trans hbehind))

/-- **No function starts there**, because the text ends with the parenthesis. -/
theorem arrow_failed_of_parenthesis (hopen : c.Over ['('] d)
    (h : (readPlain k .free d).outcome = .matched target n) (hx : IsName x)
    (hn : n.rest = given x [')']) (hroom : Roomy fuel c) :
    arrow.result (follow fuel) .free c = .failed := by
  cases harrow : arrow.result (follow fuel) .free c with
  | matched v m =>
    simp only [arrow, result_fmap, result_placed, result_named, result_both,
      Outcome.map_eq_matched, Outcome.andThen_eq_matched, result_seqLeft] at harrow
    obtain ⟨_, ⟨_, ⟨_, m, ⟨_, e, hparameters, _, harrow, -⟩, -⟩, -⟩, -⟩ := harrow
    have hname : name.result (follow fuel) .free c = .failed := by
      have hrest := hopen.rest_eq
      obtain ⟨rest, o, p⟩ := c
      obtain rfl : rest = _ := hrest
      rfl
    rw [arrowParameters, result_named, result_orElse, result_fmap, hname, Outcome.map_failed,
      Outcome.orElse_failed] at hparameters
    have hscan : Scans (.code [] _) _ :=
      (keeps_follow fuel).of_bracketed rfl rfl rfl (by decide) hparameters
    rw [hopen.rest_eq, List.singleton_append, List.tail_cons] at hscan
    have hclose := ((keeps_followPlain k).scans .pattern [] h).trans (scans_given hx hn)
    have heq := Scans.eq_of_length (Scans.of_stuck hscan hclose (Spot.next?_closing rfl)) (by simp)
    have he : e.rest = [] := (List.cons.inj (congrArg Spot.rest heq)).2.symm
    have hskip : (Spacing.free.skip e).rest = [] := by
      rw [Spacing.skip, (Cursor.isSolid_of_nil he).skipBlanks_eq, he]
    cases (over_of_token harrow).rest_eq.symm.trans hskip
  | failed => rfl
  | exhausted => exact absurd harrow (hroom.result_ne_exhausted (by decide))

end

/-! ### From the parentheses to the statement -/

section

variable {fuel : Nat} {c d e n : Cursor} {v : Built Expr} {Y : List Char}

/-- What is an operand in front of a parenthesis is in parentheses. -/
theorem head_of_parenthesis (h : c.rest = '(' :: Y) (hroom : rulesPerPlace * c.rest.length < fuel) :
    frontOperator.result (follow fuel) .free c = .failed ∧
      (newExpression <|> primary : Phrase (Built Expr)).result (follow fuel) .free c =
        parenthesized.result (follow fuel) .free c := by
  have hfront := front_parenthesis h
  refine ⟨hfront.frontOperator_failed, (hfront.result_head hroom).trans ?_⟩
  refine either_of_failed_right ?_
  obtain ⟨rest, o, p⟩ := c
  obtain rfl : rest = _ := h
  rfl

/-- **An expression in parentheses is a statement**, up to the end of the text. -/
theorem statementNode_of_parenthesized (hopen : c.Over ['('] d) (hd : d.IsSolid)
    (hroom : rulesPerPlace * c.rest.length < fuel + 2)
    (harrow : arrow.result (follow (fuel + 2)) .free c = .failed)
    (h : Phrase.assignment.result (follow fuel) .free d = .matched v e) (he : e.rest = [')']) :
    ∃ n, statementNode.result (follow (fuel + 4)) .free c =
      .matched (v.map StmtNode.expr) n ∧ n.rest = [] := by
  obtain ⟨n, hclose, hn⟩ : ∃ n, e.Over [')'] n ∧ n.rest = [] :=
    ⟨_, .of_append (X := []) he, by rw [Cursor.rest_advance, he]; rfl⟩
  have hsolid : n.IsSolid := Cursor.isSolid_of_nil hn
  have hinside : parenthesized.result (follow (fuel + 2)) .free c = .matched v n := by
    rw [parenthesized, result_named]
    exact result_enclosed (a := "(") (b := ")") rfl rfl (.inl rfl) hopen hd h hclose
  obtain ⟨hfront, hhead⟩ := head_of_parenthesis hopen.rest_eq hroom
  have hends : Closes n.skipBlanks.rest := by
    rw [hsolid.skipBlanks_eq, hn]
    exact .finish
  have hconditional := conditional_of_head hfront (hhead.trans hinside)
    (Cursor.isSolid_of_cons hopen.rest_eq rfl (by decide)) (.closes hends)
  have hassignment : Phrase.assignment.result (follow (fuel + 2)) .free c = .matched v n := by
    have hoperator : assignOperator.result (follow (fuel + 2)) .free n.skipBlanks.skipBlanks =
        .failed := hends.assignOperator_failed
    rw [n.isSolid_skipBlanks.skipBlanks_eq] at hoperator
    have hread := result_assignment_of_arrow_failed harrow hoperator hconditional
    rwa [hsolid.skipBlanks_eq] at hread
  have hexpression : expression.result (follow (fuel + 3)) .free c = .matched v n :=
    result_expression hassignment hsolid (by simp [hn])
  refine ⟨n, ?_, hn⟩
  rw [result_statementNode hopen.rest_eq rfl (by
    rw [hopen.rest_eq]
    exact opens_of_sign (by decide) _)]
  exact result_expressionStatement hexpression hn

/-- **Where no expression stands in the parentheses there is no statement.** -/
theorem statementNode_failed_of_parenthesized (hopen : c.Over ['('] d) (hd : d.IsSolid)
    (hroom : rulesPerPlace * c.rest.length < fuel + 2)
    (harrow : arrow.result (follow (fuel + 2)) .free c = .failed)
    (h : Phrase.assignment.result (follow fuel) .free d = .failed) :
    statementNode.result (follow (fuel + 4)) .free c = .failed := by
  have hnone {m : Cursor} {room : Nat}
      (h : Phrase.assignment.result (follow room) .free m = .failed) :
      (Form.rule .expression : Phrase _).result (follow (room + 2)) .free m = .failed := by
    have hrule : (Form.rule .assignment : Phrase _).result (follow (room + 1)) .free m = .failed :=
      (result_rule_succ ..).trans h
    change expression.result (follow (room + 1)) .free m = .failed
    simp only [expression, commaSeparated, result_fmap, result_placed, result_named, result_combine,
      hrule, Outcome.andThen_failed, Outcome.map_failed]
  have hinside : parenthesized.result (follow (fuel + 2)) .free c = .failed := by
    simp only [parenthesized, result_named, result_seqLeft, result_seqRight,
      result_token "(" hopen, Outcome.andThen_matched, Spacing.skip, hd.skipBlanks_eq, hnone h,
      Outcome.andThen_failed]
  obtain ⟨hfront, hhead⟩ := head_of_parenthesis hopen.rest_eq hroom
  have hconditional := conditional_failed hfront (hhead.trans hinside)
    (Cursor.isSolid_of_cons hopen.rest_eq rfl (by decide))
  have hexpression := hnone (assignment_failed harrow hconditional)
  rw [result_statementNode hopen.rest_eq rfl (by
    rw [hopen.rest_eq]
    exact opens_of_sign (by decide) _)]
  simp only [expressionStatement, result_fmap, result_named, result_seqLeft, hexpression,
    Outcome.andThen_failed, Outcome.map_failed]

end

/-! ## Both texts -/

/-- **A declaration** of the pattern `P` with a name for its value. -/
def declarationText (P : List Char) (x : String) : String :=
  .ofList ("let ".toList ++ (P ++ given x []))

/-- **An assignment** of the name to the pattern, in parentheses. -/
def assignmentText (P : List Char) (x : String) : String := .ofList ('(' :: (P ++ given x [')']))

section

variable {k : Nat} {P : List Char} {x : String} {target : Built Pattern} {n : Cursor}

/-- No space stands before a plain pattern. -/
theorem IsPlainPattern.isSolid (hP : IsPlainPattern P) {R : List Char} {c : Cursor}
    (hc : c.rest = P ++ R) : c.IsSolid := by
  obtain ⟨k, target, n, h, -⟩ := hP
  obtain ⟨y, Y, hrest, hy⟩ := head_of_plain h
  obtain rfl : P = y :: Y := hrest
  refine Cursor.isSolid_of_cons hc ?_ ?_
  · obtain hy | rfl | rfl := hy
    · exact isSpace_of_opensFormula (by simp [opensFormula, hy])
    · rfl
    · rfl
  · rintro rfl
    simp [isNameStart] at hy

/-- **The declaration is a program** if the pattern is built. -/
theorem readProgram_of_declaration {source : String} {m : Cursor}
    (hlet : (Cursor.ofText source.toList).Over "let".toList m) (hm : m.rest.head? = some ' ')
    (h : (readPlain k .free m.skipBlanks).outcome = .matched target n) (hx : IsName x)
    (hn : n.rest = given x []) :
    ∃ p excerpt, readProgram source = target.map fun t =>
      [.mk (.declare .lexical [.mk t (some (.mk (.name x) p))]) .start excerpt] := by
  have hroom : Roomy (rulesPerPlace * source.toList.length + 8) (.ofText source.toList) := by
    have hlength : (Cursor.ofText source.toList).rest.length = source.toList.length := rfl
    unfold Roomy rulesPerPlace
    omega
  obtain ⟨p, e, hnode, he⟩ := exists_declaration hlet hm h
    (hroom.mono (hlet.le.trans m.le_skipBlanks)) hx hn
  have hfuel : nestingBound source.toList.length =
      rulesPerPlace * source.toList.length + 8 + 1 + 1 := by
    unfold nestingBound rulesPerPlace
    omega
  obtain ⟨excerpt, hread⟩ := readProgram_of_node hfuel
    (Cursor.isSolid_of_cons hlet.rest_eq rfl (by decide)) hnode he
  refine ⟨p, excerpt, hread.trans ?_⟩
  cases target <;> rfl

/-- **The assignment is a program** if and only if the pattern is built. -/
theorem readProgram_of_assignment {source : String} {d : Cursor}
    (hopen : (Cursor.ofText source.toList).Over ['('] d) (hd : d.IsSolid)
    (h : (readPlain k .free d).outcome = .matched target n) (hx : IsName x)
    (hn : n.rest = given x [')']) :
    (∃ t p q excerpt, target = .ok t ∧ readProgram source =
      .ok [.mk (.expr (.mk (.assign .plain t (.mk (.name x) p)) q)) .start excerpt]) ∨
    (∀ t, target ≠ .ok t) ∧ ∃ error, readProgram source = .error error := by
  obtain ⟨room, hbound, hroom, hrooms⟩ : ∃ room,
      nestingBound source.toList.length = room + 1 + 4 + 1 ∧
        Roomy room d ∧ Roomy (room + 1 + 2) (.ofText source.toList) := by
    have hlength : (Cursor.ofText source.toList).rest.length = source.toList.length := rfl
    have hinside := Cursor.length_rest_lt hopen.lt
    refine ⟨rulesPerPlace * source.toList.length + 4, ?_, ?_, ?_⟩ <;>
      simp only [nestingBound, Roomy, rulesPerPlace] <;> omega
  have hplaces : rulesPerPlace * (Cursor.ofText source.toList).rest.length < room + 1 + 2 := by
    unfold Roomy rulesPerPlace at hrooms
    unfold rulesPerPlace
    omega
  have harrow := arrow_failed_of_parenthesis hopen h hx hn hrooms
  have hsolid : (Cursor.ofText source.toList).IsSolid :=
    Cursor.isSolid_of_cons hopen.rest_eq rfl (by decide)
  obtain ⟨v, e, hread, he, hv⟩ | ⟨hdead, hfailed⟩ := assignment_of_plain h hroom hx hn
  · obtain ⟨n, hnode, hn⟩ := statementNode_of_parenthesized hopen hd hplaces harrow hread he
    obtain ⟨excerpt, hprogram⟩ := readProgram_of_node hbound hsolid hnode hn
    cases hv with
    | @built t p q ht hv =>
      subst hv
      exact .inl ⟨t, p, q, excerpt, ht, hprogram⟩
    | faulty ht hv =>
      subst hv
      exact .inr ⟨ht, _, hprogram⟩
  · have hnode := statementNode_failed_of_parenthesized hopen hd hplaces harrow hfailed
    refine .inr ⟨hdead, readProgram_of_no_node hbound hsolid hnode ?_⟩
    intro hnil
    have hrest : source.toList = '(' :: d.rest := hopen.rest_eq
    cases hnil.symm.trans hrest

/-- **Declarations and assignments agree on plain patterns.**  The declaration is a program if and
only if the assignment is, and then their patterns are equal up to places. -/
theorem destructuring_agrees (hP : IsPlainPattern P) (hx : IsName x) :
    ((∃ program, readProgram (declarationText P x) = .ok program) ↔
      ∃ program, readProgram (assignmentText P x) = .ok program) ∧
    ∀ program program', readProgram (declarationText P x) = .ok program →
      readProgram (assignmentText P x) = .ok program' →
      ∃ t t' p p' q excerpt excerpt',
        program = [.mk (.declare .lexical [.mk t (some (.mk (.name x) p))]) .start excerpt] ∧
        program' = [.mk (.expr (.mk (.assign .plain t' (.mk (.name x) p')) q)) .start excerpt'] ∧
        t.unplaced = t'.unplaced := by
  obtain ⟨m, hlet, hm⟩ : ∃ m, (Cursor.ofText (declarationText P x).toList).Over "let".toList m ∧
      m.rest = ' ' :: (P ++ given x []) := by
    have hrest : (Cursor.ofText (declarationText P x).toList).rest =
        "let".toList ++ ' ' :: (P ++ given x []) := String.toList_ofList
    exact ⟨_, .of_append hrest, by rw [Cursor.rest_advance, hrest, List.drop_left]⟩
  obtain ⟨d, hopen, hd⟩ : ∃ d, (Cursor.ofText (assignmentText P x).toList).Over ['('] d ∧
      d.rest = P ++ given x [')'] := by
    have hrest : (Cursor.ofText (assignmentText P x).toList).rest =
        ['('] ++ (P ++ given x [')']) := String.toList_ofList
    exact ⟨_, .of_append hrest, by rw [Cursor.rest_advance, hrest, List.drop_left]⟩
  have hstep : m.step.rest = P ++ given x [] := by rw [Cursor.rest_step, hm, List.tail_cons]
  have hskip : m.skipBlanks.rest = P ++ given x [] := by
    rw [Cursor.skipBlanks_of_space hm, (hP.isSolid hstep).skipBlanks_eq, hstep]
  obtain ⟨k, k', target, target', n, n', h, hn, h', hn', hsame⟩ :=
    plain_in_texts hP hskip hd bounds_given bounds_given
  obtain ⟨p, excerpt, hdeclaration⟩ :=
    readProgram_of_declaration hlet (hm ▸ rfl) h hx hn
  obtain ⟨t', p', q, excerpt', rfl, hassignment⟩ | ⟨hdead, error, hassignment⟩ :=
    readProgram_of_assignment hopen (hP.isSolid hd) h' hx hn'
  · -- Both patterns are built.
    cases target with
    | error error => cases hsame
    | ok t =>
      refine ⟨⟨fun _ => ⟨_, hassignment⟩, fun _ => ⟨_, hdeclaration⟩⟩, ?_⟩
      intro program program' hprogram hprogram'
      cases hprogram.symm.trans hdeclaration
      cases hprogram'.symm.trans hassignment
      exact ⟨t, t', p, p', q, excerpt, excerpt', rfl, rfl, Except.ok.inj hsame⟩
  · -- Neither is.
    have hnone (program : Program) : readProgram (declarationText P x) ≠ .ok program := by
      intro hprogram
      cases target with
      | error error => cases hprogram.symm.trans hdeclaration
      | ok t =>
        cases target' with
        | error error => cases hsame
        | ok t' => exact hdead t' rfl
    refine ⟨⟨?_, ?_⟩, fun program _ hprogram => absurd hprogram (hnone program)⟩
    · rintro ⟨program, hprogram⟩
      exact absurd hprogram (hnone program)
    · rintro ⟨program, hprogram⟩
      cases hprogram.symm.trans hassignment

end

/-- A pattern with properties, an array, a default, a rest and a trailing comma. -/
def nestedPattern : List Char := "\x7ba, b: [c = 1, ...d],\x7d".toList

set_option maxRecDepth 100000 in
theorem isPlainPattern_nestedPattern : IsPlainPattern nestedPattern := ⟨9, _, _, rfl, rfl⟩

/-- Nested patterns with a default value, dots and an empty place at the end. -/
theorem destructuring_agrees_nestedPattern :
    IsPlainPattern nestedPattern ∧ IsName "x" ∧
    declarationText nestedPattern "x" = "let \x7ba, b: [c = 1, ...d],\x7d = x" ∧
    assignmentText nestedPattern "x" = "(\x7ba, b: [c = 1, ...d],\x7d = x)" ∧
    ∃ t t' p p' q excerpt excerpt',
      readProgram (declarationText nestedPattern "x") =
        .ok [.mk (.declare .lexical [.mk t (some (.mk (.name "x") p))]) .start excerpt] ∧
      readProgram (assignmentText nestedPattern "x") =
        .ok [.mk (.expr (.mk (.assign .plain t' (.mk (.name "x") p')) q)) .start excerpt'] ∧
      t.unplaced = t'.unplaced := by
  have hx : IsName "x" := ⟨rfl, by decide⟩
  refine ⟨isPlainPattern_nestedPattern, hx, by decide, by decide, ?_⟩
  obtain ⟨hiff, hpatterns⟩ := destructuring_agrees isPlainPattern_nestedPattern hx
  have hok : (readProgram (declarationText nestedPattern "x")).isOk = true := by decide +kernel
  cases hprogram : readProgram (declarationText nestedPattern "x") with
  | error e =>
    rw [hprogram] at hok
    cases hok
  | ok program =>
    obtain ⟨program', hprogram'⟩ := hiff.mp ⟨program, hprogram⟩
    obtain ⟨t, t', p, p', q, excerpt, excerpt', rfl, rfl, hsame⟩ :=
      hpatterns program program' hprogram hprogram'
    exact ⟨t, t', p, p', q, excerpt, excerpt', rfl, hprogram', hsame⟩

end ScriptTrace.Syntax
