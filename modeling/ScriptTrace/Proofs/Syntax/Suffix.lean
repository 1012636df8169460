import ScriptTrace.Proofs.Syntax.Operand

/-!
# Proofs/Syntax/Suffix — members and calls read from their texts

An operand is extended by one suffix at a time: the access to a member, by its name or by an index,
or a call with the list of its arguments (`Chained.snoc`).
-/

namespace ScriptTrace.Syntax

open Grammar
open Grammar.Form
open Phrase

variable {fuel : Nat} {c m n : Cursor} {e : Expr} {x : Char} {Y : List Char}

/-! ## Suffixes -/

/-- Suffixes are applied one behind the other. -/
theorem applySuffixes_append (object : Expr) (suffixes more : List Suffix) :
    applySuffixes object (suffixes ++ more) =
      (applySuffixes object suffixes).bind (applySuffixes · more) := by
  induction suffixes generalizing object with
  | nil => rfl
  | cons s suffixes ih =>
    cases s with
    | call arguments isOptional =>
      cases arguments with
      | error => rfl
      | ok arguments => exact ih _
    | member key isOptional =>
      cases key with
      | error => rfl
      | ok key => exact ih _

/-- One more suffix makes the chain longer. -/
theorem Chained.snoc {e' : Expr} {s : Suffix} (h : Chained fuel c e m)
    (hread : suffix.result (follow fuel) .free m.skipBlanks = .matched s n)
    (he : applySuffixes e [s] = .ok e') : Chained fuel c e' n := by
  obtain ⟨head, k, suffixes, k', hhead, hruns, hk', happly⟩ := h.suffixes
  refine ⟨h.front, head, k, suffixes ++ [s], n, hhead, hruns.snoc ?_, rfl, ?_⟩
  · rw [again, Spacing.skip, hk', hread]
  · rw [applySuffixes_append, happly]
    exact he

/-- Arguments begin with a parenthesis. -/
theorem arguments_failed (hrest : c.rest = x :: Y) (hx : '(' ≠ x) :
    arguments.result (follow fuel) .free c = .failed := by
  simp only [arguments, result_fmap, result_named, result_seqLeft, result_seqRight,
    token_other (k := "(") hrest rfl hx, Outcome.andThen_failed, Outcome.map_failed]

/-- An index begins with a bracket. -/
theorem index_failed (hrest : c.rest = x :: Y) (hx : '[' ≠ x) :
    index.result (follow fuel) .free c = .failed := by
  simp only [index, result_fmap, result_seqLeft, result_seqRight,
    token_other (k := "[") hrest rfl hx, Outcome.andThen_failed, Outcome.map_failed]

/-- **The access to a member by its name.** -/
theorem suffix_member {k : String} (isOptional : Bool) (hk : isWord k.toList = true)
    (h : c.Over ((if isOptional then ['?', '.'] else ['.']) ++ k.toList) n) (hn : Bounds n.rest) :
    suffix.result (follow fuel) .free c = .matched (.member (.ok (.static k)) isOptional) n := by
  obtain ⟨m, hmark, hname⟩ := Cursor.Over.append_iff.mp h
  have hproperty : propertyName.result (follow fuel) .free m = .matched k n :=
    result_propertyName (advancing_follow fuel) hk hname hn
  have hsolid := (isFormulaText_word hk).isSolid hname
  cases isOptional with
  | false =>
    have hrest : c.rest = '.' :: m.rest := hmark.rest_eq
    simp only [suffix, memberSuffix, result_orElse, result_fmap, result_named, result_seqRight,
      arguments_failed hrest (by decide), result_token "." hmark, Outcome.andThen_matched,
      Spacing.skip, hsolid.skipBlanks_eq, hproperty]
    rfl
  | true =>
    have hrest : c.rest = '?' :: '.' :: m.rest := hmark.rest_eq
    obtain ⟨x, v, hlist, hx, -⟩ := exists_of_isWord hk
    have hhead : m.rest = x :: (v ++ n.rest) := by rw [hname.rest_eq, hlist, List.cons_append]
    simp only [suffix, memberSuffix, indexSuffix, result_orElse, result_fmap, result_named,
      result_seqRight, arguments_failed hrest (by decide), index_failed hrest (by decide),
      token_other (k := ".") hrest rfl (by decide), result_token "?." hmark,
      Outcome.andThen_matched, Spacing.skip, hsolid.skipBlanks_eq,
      arguments_failed hhead (ne_of_isNameStart hx rfl),
      index_failed hhead (ne_of_isNameStart hx rfl), hproperty]
    rfl

/-- **The access to a member by an index.** -/
theorem suffix_index (he : e.IsRead) (hready : Ready fuel c) (isOptional : Bool)
    (h : c.Over (optionalMark isOptional ++ '[' :: (e.chars ++ [']'])) n) :
    ∃ e', suffix.result (follow fuel) .free c =
        .matched (.member (.ok (.computed e')) isOptional) n ∧
      e.Alike e' := by
  obtain ⟨m, hmark, hindex⟩ := Cursor.Over.append_iff.mp h
  have hhead := hindex.rest_eq
  have hsolid : m.IsSolid := Cursor.isSolid_of_cons hhead rfl (by decide)
  obtain ⟨e', hread, halike⟩ := exists_of_enclosed he (hready.mono hmark.le) (a := "[") (b := "]")
    rfl rfl (.inr rfl) hindex
  have hindexed : index.result (follow fuel) .free m = .matched (.ok (.computed e')) n := by
    rw [index, result_fmap, hread]
    rfl
  refine ⟨e', ?_, halike⟩
  cases isOptional with
  | false =>
    obtain rfl : m = c := hmark.eq_advance
    simp only [suffix, memberSuffix, indexSuffix, result_orElse, result_fmap, result_named,
      result_seqRight, arguments_failed hhead (by decide),
      token_other (k := ".") hhead rfl (by decide), hindexed]
    rfl
  | true =>
    have hrest : c.rest = '?' :: '.' :: m.rest := hmark.rest_eq
    simp only [suffix, memberSuffix, indexSuffix, result_orElse, result_fmap, result_named,
      result_seqRight, arguments_failed hrest (by decide), index_failed hrest (by decide),
      token_other (k := ".") hrest rfl (by decide), result_token "?." hmark,
      Outcome.andThen_matched, Spacing.skip, hsolid.skipBlanks_eq,
      arguments_failed hhead (by decide), hindexed]
    rfl

/-! ## Arguments -/

/-- An argument is read back. -/
theorem result_argument (he : e.IsRead) (hready : Ready fuel c) (h : c.Over e.chars n)
    (hn : Closes n.rest) :
    ∃ e', Phrase.argument.result (follow (fuel + 1)) .free c =
        .matched (.ok (.single e')) n.skipBlanks ∧ e.Alike e' := by
  obtain ⟨e', hread, halike⟩ := he.read hready h hn
  have hvalue : (follow (fuel + 1) .assignment .free c).outcome = .matched (.ok e') n.skipBlanks :=
    hread
  obtain ⟨x, Y, htext, hx⟩ := he.text.head
  have hrest : c.rest = x :: (Y ++ n.rest) := by rw [h.rest_eq, htext, List.cons_append]
  have hspread : spread.result (follow (fuel + 1)) .free c = .failed := by
    simp only [spread, result_named, result_seqRight,
      token_other (k := "...") hrest rfl (ne_of_opensFormula hx rfl).symm, Outcome.andThen_failed]
  refine ⟨e', ?_, halike⟩
  rw [Phrase.argument, result_orElse, result_fmap, hspread, result_fmap, result_rule, hvalue]
  rfl

theorem Rule.mayOpen_parenthesis {α : Type} (r : Rule α) :
    r.phrase.mayOpen (fun _ => false) ')' = false := by
  cases r <;> decide

/-- Where the list of arguments ends there is no argument. -/
theorem argument_failed (hready : Ready fuel c) (hrest : c.rest = ')' :: Y) :
    Phrase.argument.result (follow (fuel + 1)) .free c = .failed := by
  have hbelow : Phrase.argument.opensBelow Rule.rank 2 = true := by decide
  exact result_failed_of_not_mayOpen (fun r _ => r.mayOpen_parenthesis) hrest
    (Cursor.isSolid_of_cons hrest rfl (by decide)) (by decide) (by decide) hbelow
    (Nat.succ_le_succ hready.room)

/-- Behind an argument there is a comma or the end of the list. -/
theorem closes_of_arguments {es : List Expr}
    (h : c.Over (es.flatMap fun e => ',' :: ' ' :: e.chars) n) (hn : n.rest = ')' :: Y) :
    Closes c.rest ∧ c.IsSolid := by
  have hrest := h.rest_eq
  cases es with
  | nil =>
    have hrest : c.rest = ')' :: Y := hrest.trans hn
    exact ⟨hrest ▸ .parenthesis Y, Cursor.isSolid_of_cons hrest rfl (by decide)⟩
  | cons e es => exact ⟨hrest ▸ .comma _, Cursor.isSolid_of_cons hrest rfl (by decide)⟩

/-- **Further arguments** are read one behind the other. -/
theorem runs_arguments {es : List Expr} (hes : ∀ e ∈ es, e.IsRead) (hready : Ready fuel c)
    (h : c.Over (es.flatMap fun e => ',' :: ' ' :: e.chars) n) (hn : n.rest = ')' :: Y)
    (hm : m.skipBlanks = c) :
    ∃ es' k, Runs ((token "," *> Phrase.argument).again (follow (fuel + 1)) .free) m
        (es'.map fun e => .ok (.single e)) k ∧
      k.skipBlanks = n ∧ List.Forall₂ Expr.Alike es es' := by
  induction es generalizing c m with
  | nil =>
    obtain rfl : n = c := h.eq_advance
    exact ⟨[], m, .nil m, hm, .nil⟩
  | cons e es ih =>
    obtain ⟨he, hes⟩ := List.forall_mem_cons.mp hes
    rw [List.flatMap_cons] at h
    obtain ⟨k, hfirst, hmore⟩ := Cursor.Over.append_iff.mp h
    obtain ⟨d, hcomma, hspaced⟩ := (Cursor.Over.append_iff (w := [','])).mp hfirst
    obtain ⟨d', hspace, hover⟩ := (Cursor.Over.append_iff (w := [' '])).mp hspaced
    have hskip := hspace.skipBlanks_eq (he.text.isSolid hover)
    have hk := closes_of_arguments hmore hn
    have hready' := hready.mono hfirst.le
    obtain ⟨e', hread, halike⟩ :=
      result_argument he (hready.mono (hcomma.le.trans hspace.le)) hover hk.1
    rw [hk.2.skipBlanks_eq] at hread
    obtain ⟨es', k', hruns, hend, hall⟩ := ih hes hready' hmore hk.2.skipBlanks_eq
    refine ⟨e' :: es', k', .cons ?_ hruns, hend, .cons halike hall⟩
    rw [again, Spacing.skip, hm, result_seqRight, result_token "," hcomma, Outcome.andThen_matched,
      Spacing.skip, hskip, hread]

/-- The arguments between the parentheses of a call. -/
theorem result_argumentList {args : List Expr} (hargs : ∀ e ∈ args, e.IsRead)
    (hready : Ready fuel c) (h : c.Over (argumentChars args) n) (hn : n.rest = ')' :: Y) :
    ∃ args' k, (commaList Phrase.argument).result (follow (fuel + 1)) .free c =
        .matched (args'.map fun e => .ok (.single e)) k ∧ k.skipBlanks = n ∧
      List.Forall₂ Expr.Alike args args' := by
  have hnsolid : n.IsSolid := Cursor.isSolid_of_cons hn rfl (by decide)
  have hcomma : (token "," : Phrase Unit).result (follow (fuel + 1)) .free n = .failed :=
    token_other hn rfl (by decide)
  cases args with
  | nil =>
    obtain rfl : n = c := h.eq_advance
    refine ⟨[], n, ?_, hnsolid.skipBlanks_eq, .nil⟩
    simp only [commaList, commaSeparated, result_fmap, result_perhaps, result_seqLeft,
      result_combine, argument_failed hready hn]
    rfl
  | cons e es =>
    obtain ⟨he, hes⟩ := List.forall_mem_cons.mp hargs
    obtain ⟨m, hover, hmore⟩ := Cursor.Over.append_iff.mp h
    obtain ⟨hclose, hsolid⟩ := closes_of_arguments hmore hn
    obtain ⟨e', hread, halike⟩ := result_argument he hready hover hclose
    obtain ⟨es', k, hruns, hk, hall⟩ :=
      runs_arguments hes (hready.mono hover.le) hmore hn hsolid.skipBlanks_eq
    have hmany := many_of_runs (advancing_follow (fuel + 1)) rfl hruns
      (by rw [again, Spacing.skip, hk, result_seqRight, hcomma]; rfl) hsolid.skipBlanks_eq
    rw [hsolid.skipBlanks_eq] at hread
    refine ⟨e' :: es', n, ?_, hnsolid.skipBlanks_eq, .cons halike hall⟩
    simp only [commaList, commaSeparated, result_fmap, result_perhaps, result_seqLeft,
      result_combine, hread, Outcome.andThen_matched, Spacing.skip, hsolid.skipBlanks_eq, hmany,
      Outcome.map_matched, hk, hcomma]
    rfl

/-- **The arguments of a call.** -/
theorem result_arguments {args : List Expr} (hargs : ∀ e ∈ args, e.IsRead) (hready : Ready fuel c)
    (h : c.Over ('(' :: (argumentChars args ++ [')'])) n) :
    ∃ args' : List Expr,
      arguments.result (follow fuel) .free c = .matched (.ok (args'.map .single)) n ∧
      List.Forall₂ Expr.Alike args args' := by
  obtain ⟨m, hopen, hinside⟩ := (Cursor.Over.append_iff (w := ['('])).mp h
  obtain ⟨k, hlist, hclose⟩ := Cursor.Over.append_iff.mp hinside
  have hk : k.rest = ')' :: n.rest := hclose.rest_eq
  obtain ⟨fuel, rfl, hinner⟩ := hready.inside hopen.lt
  obtain ⟨args', k', hread, hk', hall⟩ := result_argumentList hargs hinner.succ hlist hk
  have hmsolid : m.IsSolid := by
    cases args with
    | nil => exact Cursor.isSolid_of_cons (hlist.rest_eq.trans hk) rfl (by decide)
    | cons e es =>
      obtain ⟨d, hover, -⟩ := Cursor.Over.append_iff.mp hlist
      exact (hargs e List.mem_cons_self).text.isSolid hover
  have hbuilt : allBuilt (args'.map fun e => .ok (Element.single e)) = .ok (args'.map .single) :=
    allBuilt_eq_ok.mpr (by rw [List.map_map]; rfl)
  refine ⟨args', ?_, hall⟩
  simp only [arguments, result_fmap, result_named, result_seqLeft, result_seqRight,
    result_token "(" hopen, Outcome.andThen_matched, Spacing.skip, hmsolid.skipBlanks_eq, hread,
    hk', result_token ")" hclose, Outcome.map_matched, hbuilt]

/-- **A call.** -/
theorem suffix_call {args : List Expr} (hargs : ∀ e ∈ args, e.IsRead) (hready : Ready fuel c)
    (isOptional : Bool)
    (h : c.Over (optionalMark isOptional ++ '(' :: (argumentChars args ++ [')'])) n) :
    ∃ args' : List Expr, suffix.result (follow fuel) .free c =
        .matched (.call (.ok (args'.map .single)) isOptional) n ∧
      List.Forall₂ Expr.Alike args args' := by
  obtain ⟨m, hmark, hlist⟩ := Cursor.Over.append_iff.mp h
  have hhead := hlist.rest_eq
  have hsolid : m.IsSolid := Cursor.isSolid_of_cons hhead rfl (by decide)
  obtain ⟨args', hread, hall⟩ := result_arguments hargs (hready.mono hmark.le) hlist
  refine ⟨args', ?_, hall⟩
  cases isOptional with
  | false =>
    obtain rfl : m = c := hmark.eq_advance
    rw [suffix, result_orElse, result_fmap, hread]
    rfl
  | true =>
    have hrest : c.rest = '?' :: '.' :: m.rest := hmark.rest_eq
    simp only [suffix, memberSuffix, indexSuffix, result_orElse, result_fmap, result_named,
      result_seqRight, arguments_failed hrest (by decide), index_failed hrest (by decide),
      token_other (k := ".") hrest rfl (by decide), result_token "?." hmark,
      Outcome.andThen_matched, Spacing.skip, hsolid.skipBlanks_eq, hread]
    rfl

end ScriptTrace.Syntax
