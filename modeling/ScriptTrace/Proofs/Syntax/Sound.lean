import ScriptTrace.Proofs.Grammar.Reading
import ScriptTrace.Proofs.Syntax.First
import ScriptTrace.Proofs.Syntax.Layout

/-!
# Proofs/Syntax/Sound — what is read is laid out where it was read

A phrase *lays* its values if each of them is laid out between the places where the phrase starts
and ends.  There is one rule for each way to build a form.  A statement starts at the very place
where it is read; everything else has its statements strictly behind that, which is the edge of the
range.  Behind a word or a bracket a statement is strictly inside again (`Lays.behind`).
-/

namespace ScriptTrace.Syntax

open Grammar
open Grammar.Form
open Parts

/-- Whether the place where a phrase starts belongs to its range. -/
inductive Edge where
  | «open» | closed

/-- The places between two places, the first one included if the edge is closed. -/
def Edge.range : Edge → Position → Position → Set Position
  | .open, p, q => Set.Ioo p q
  | .closed, p, q => Set.Ico p q

namespace Edge

variable {e e' : Edge} {p p' q q' r : Position}

theorem mem_range : r ∈ e.range p q ↔ p ≤ r ∧ (e = .open → p < r) ∧ r < q := by
  cases e with
  | «open» => exact ⟨fun h => ⟨h.1.le, fun _ => h.1, h.2⟩, fun h => ⟨h.2.1 rfl, h.2.2⟩⟩
  | closed => exact ⟨fun h => ⟨h.1, nofun, h.2⟩, fun h => ⟨h.1, h.2.2⟩⟩

theorem range_subset (hp : p ≤ p') (hq : q' ≤ q) : e.range p' q' ⊆ e.range p q := fun r hr => by
  obtain ⟨h, hopen, hlt⟩ := mem_range.mp hr
  exact mem_range.mpr ⟨hp.trans h, fun he => hp.trans_lt (hopen he), hlt.trans_le hq⟩

theorem range_subset_of_lt (hp : p < p') (hq : q' ≤ q) : e'.range p' q' ⊆ e.range p q :=
  fun r hr => by
    obtain ⟨h, -, hlt⟩ := mem_range.mp hr
    exact mem_range.mpr ⟨(hp.trans_le h).le, fun _ => hp.trans_le h, hlt.trans_le hq⟩

/-- One range behind the other. -/
theorem lt_of_mem {x y : Position} (hx : x ∈ e.range p q) (hq : q ≤ q') (hy : y ∈ e'.range q' r) :
    x < y :=
  ((mem_range.mp hx).2.2.trans_le hq).trans_le (mem_range.mp hy).1

end Edge

/-- **The values of a phrase lie between the places where it starts and ends.** -/
def Lays (text : List Char) (call : {α : Type} → Rule α → Spacing → Cursor → Attempt α) (e : Edge)
    (s : Spacing) {α : Type} [Parts α] (f : Phrase α) : Prop :=
  ∀ ⦃c n : Cursor⦄ ⦃v : α⦄, Cursor.ofText text ≤ c → (e = .closed → c.IsSolid) →
    f.result call s c = .matched v n → Laid text (e.range c.position n.position) v

/-- Values without parts. -/
class Partless (α : Type) [Parts α] : Prop where
  laid : ∀ (text : List Char) (range : Set Position) (v : α), Laid text range v

namespace Partless

variable {α β : Type} [Parts α] [Parts β]

instance : Partless Unit := ⟨fun _ _ _ => ⟨nofun, .nil, nofun⟩⟩
instance : Partless Char := ⟨fun _ _ _ => ⟨nofun, .nil, nofun⟩⟩
instance : Partless String := ⟨fun _ _ _ => ⟨nofun, .nil, nofun⟩⟩
instance : Partless Position := ⟨fun _ _ _ => ⟨nofun, .nil, nofun⟩⟩
instance : Partless Infix := ⟨fun _ _ _ => ⟨nofun, .nil, nofun⟩⟩
instance : Partless LoopOver := ⟨fun _ _ _ => ⟨nofun, .nil, nofun⟩⟩
instance : Partless DeclarationKind := ⟨fun _ _ _ => ⟨nofun, .nil, nofun⟩⟩
instance : Partless UpdateOperator := ⟨fun _ _ _ => ⟨nofun, .nil, nofun⟩⟩
instance : Partless PrefixOperator := ⟨fun _ _ _ => ⟨nofun, .nil, nofun⟩⟩
instance : Partless AssignOperator := ⟨fun _ _ _ => ⟨nofun, .nil, nofun⟩⟩

instance [Partless α] [Rowless α] : Partless (List α) :=
  ⟨fun text range _ => laid_list.mpr fun v _ => laid text range v⟩

instance [Partless α] : Partless (Option α) :=
  ⟨fun text range v => by cases v <;> simp [laid text range]⟩

instance [Partless α] [Partless β] [Rowless α] : Partless (α × β) :=
  ⟨fun text range v => laid_pair.mpr ⟨laid text range v.1, laid text range v.2⟩⟩

end Partless

namespace Lays

variable {α β γ : Type} [Parts α] [Parts β] [Parts γ] {text : List Char}
  {call : {α : Type} → Rule α → Spacing → Cursor → Attempt α} {e : Edge} {s : Spacing}
  {a a' : Phrase α} {b : Phrase β}

/-! ## One form -/

theorem partless [Partless α] : Lays text call e s a := fun _ _ v _ _ _ => Partless.laid text _ v

theorem named (h : Lays text call e s a) : Lays text call e s (.named a) := by
  intro c n v hc hsolid hv
  exact h hc hsolid (result_named .. ▸ hv)

theorem spaced {s' : Spacing} (h : Lays text call e s a) : Lays text call e s' (.spaced s a) := h

theorem orElse (ha : Lays text call e s a) (ha' : Lays text call e s a') :
    Lays text call e s (a <|> a') := by
  intro c n v hc hsolid hv
  rw [result_orElse, Outcome.orElse_eq_matched] at hv
  exact hv.elim (ha hc hsolid ·) fun hv => ha' hc hsolid hv.2

/-- What may be missing is laid if it is there. -/
theorem perhaps (h : Lays text call e s a) : Lays text call e s (.perhaps a) := by
  intro c n v hc hsolid hv
  simp only [result_perhaps, Outcome.orElse_eq_matched, Outcome.map_eq_matched] at hv
  rcases hv with ⟨w, hv, rfl⟩ | ⟨-, hv⟩
  · exact laid_some.mpr (h hc hsolid hv)
  · cases hv
    exact laid_none

/-- A value that keeps its parts keeps where they stand. -/
theorem map {f : α → β} (h : Lays text call e s a)
    (hf : ∀ (range : Set Position) (v : α), Laid text range v → Laid text range (f v)) :
    Lays text call e s (f <$> a) := by
  intro c n w hc hsolid hw
  rw [result_fmap, Outcome.map_eq_matched] at hw
  obtain ⟨v, hv, rfl⟩ := hw
  exact hf _ v (h hc hsolid hv)

theorem placed (h : Lays text call e s a) : Lays text call e s (Form.placed a) := by
  intro c n v hc hsolid hv
  rw [result_placed, Outcome.map_eq_matched] at hv
  obtain ⟨w, hv, rfl⟩ := hv
  exact laid_pair.mpr ⟨Partless.laid .., h hc hsolid hv⟩

theorem combine {f : α → β → γ} (h : Lays text call e s (.both a b))
    (hf : ∀ (range : Set Position) (v : α) (w : β), Laid text range (v, w) →
      Laid text range (f v w)) : Lays text call e s (Form.combine f a b) :=
  map h fun range vw => hf range vw.1 vw.2

theorem left (h : Lays text call e s (.both a b)) : Lays text call e s (a <* b) :=
  map h fun _ _ => Laid.fst

theorem right (h : Lays text call e s (.both a b)) : Lays text call e s (a *> b) :=
  map h fun _ _ => Laid.snd

/-! ## One form behind the other -/

variable (hcall : Advancing call)
include hcall

/-- Two forms one behind the other lay their parts one behind the other. -/
theorem both (ha : Lays text call e s a) (hb : Lays text call .open s b) :
    Lays text call e s (.both a b) := by
  intro c n vw hc hsolid h
  simp only [result_both, Outcome.andThen_eq_matched, Outcome.map_eq_matched] at h
  obtain ⟨v, m, hm, w, hn, rfl⟩ := h
  have hle := le_of_matched hcall hm
  have hskip := s.le_skip m
  have hend := Cursor.position_le (le_of_matched hcall hn)
  have hw := hb (hc.trans (hle.trans hskip)) nofun hn
  have hstart := Cursor.position_le (hle.trans hskip)
  have hskip := Cursor.position_le hskip
  refine (ha hc hsolid hm).pair hw (fun p hp q hq => Edge.lt_of_mem hp hskip hq) ?_ ?_
  · exact Edge.range_subset le_rfl (hskip.trans hend)
  · exact fun p hp => Edge.mem_range.mpr
      ⟨(hstart.trans_lt hp.1).le, fun _ => hstart.trans_lt hp.1, hp.2⟩

/-- **What is read behind something lies behind it.** -/
theorem behind {e' : Edge} (ha : Lays text call e .free a) (hconsumes : a.consumes = true)
    (hb : Lays text call e' .free b) : Lays text call e .free (.both a b) := by
  intro c n vw hc hsolid h
  simp only [result_both, Outcome.andThen_eq_matched, Outcome.map_eq_matched] at h
  obtain ⟨v, m, hm, w, hn, rfl⟩ := h
  have hlt := lt_of_matched hcall hm hconsumes
  have hskip := Spacing.free.le_skip m
  have hend := Cursor.position_le (le_of_matched hcall hn)
  have hw := hb (hc.trans (hlt.le.trans hskip)) (fun _ => m.isSolid_skipBlanks) hn
  have hstart := Cursor.position_lt (hlt.trans_le hskip)
  have hskip := Cursor.position_le hskip
  refine (ha hc hsolid hm).pair hw (fun p hp q hq => Edge.lt_of_mem hp hskip hq) ?_ ?_
  · exact Edge.range_subset le_rfl (hskip.trans hend)
  · exact Edge.range_subset_of_lt hstart le_rfl

/-- A repetition lays its parts one behind the other. -/
theorem many (hs : e = .closed → s = .free) (ha : Lays text call e s a) :
    Lays text call e s (.many a) := by
  -- One after the other, each from behind the blanks where the one before it ended.
  have hmany {m n : Cursor} {ws : List α} {fuel : Nat} (hm : Cursor.ofText text ≤ m)
      (h : manyResult (a.again call s) fuel m = .matched ws n) :
      m ≤ n ∧ Laid text (e.range m.position n.position) ws := by
    refine manyResult_induction (P := fun m n ws => Cursor.ofText text ≤ m →
      m ≤ n ∧ Laid text (e.range m.position n.position) ws) ?_ ?_ h hm
    · exact fun m _ => ⟨le_rfl, laid_nil⟩
    · intro c v m vs n hv hmore hc
      have hskip := s.le_skip c
      have hle := le_of_matched hcall hv
      obtain ⟨hend, hvs⟩ := hmore (hc.trans (hskip.trans hle))
      have hfirst := ha (hc.trans hskip) (fun he => hs he ▸ c.isSolid_skipBlanks) hv
      refine ⟨hskip.trans (hle.trans hend), laid_cons.mpr (hfirst.pair hvs ?_ ?_ ?_)⟩
      · exact fun p hp q hq => Edge.lt_of_mem hp le_rfl hq
      · exact Edge.range_subset (Cursor.position_le hskip) (Cursor.position_le hend)
      · exact Edge.range_subset (Cursor.position_le (hskip.trans hle)) le_rfl
  intro c n vs hc hsolid h
  rcases (many_eq_matched ..).mp h with ⟨v, m, ws, hv, hws, rfl⟩ | ⟨-, rfl, rfl⟩
  · have hle := le_of_matched hcall hv
    obtain ⟨hend, hws⟩ := hmany (hc.trans hle) hws
    refine laid_cons.mpr ((ha hc hsolid hv).pair hws ?_ ?_ ?_)
    · exact fun p hp q hq => Edge.lt_of_mem hp le_rfl hq
    · exact Edge.range_subset le_rfl (Cursor.position_le hend)
    · exact Edge.range_subset (Cursor.position_le hle) le_rfl
  · exact laid_nil

/-- A form behind one without parts. -/
theorem after [Partless α] (hb : Lays text call .open s b) : Lays text call .open s (a *> b) :=
  .right (.both hcall .partless hb)

/-- A form in front of one without parts. -/
theorem before [Partless β] (ha : Lays text call e s a) : Lays text call e s (a <* b) :=
  .left (.both hcall ha .partless)

theorem commaSeparated (ha : Lays text call .open s a) :
    Lays text call .open s (Form.commaSeparated a) :=
  .combine (.both hcall ha (.many hcall nofun (.after hcall ha))) fun _ _ _ => laid_cons.mpr

theorem commaList [Rowless α] (ha : Lays text call .open s a) :
    Lays text call .open s (Phrase.commaList a) :=
  .map (.perhaps (.before hcall (.commaSeparated hcall ha))) fun _ items hitems => by
    cases items with
    | none => exact laid_nil
    | some items => exact laid_some.mp hitems

end Lays

/-! ## The phrases of the language -/

/-- **The rules lay their values**, the statements from the place on where they start. -/
structure LaysRules (text : List Char)
    (call : {α : Type} → Rule α → Spacing → Cursor → Attempt α) : Prop where
  advancing : Advancing call
  statement : Lays text call .closed .free (.rule .statement)
  block : Lays text call .open .free (.rule .block)
  expression : Lays text call .open .free (.rule .expression)
  assignment : Lays text call .open .free (.rule .assignment)
  pattern : Lays text call .open .free (.rule .pattern)
  template : Lays text call .open .free (.rule .template)
  returned : Lays text call .open .free (.rule .return)

namespace LaysRules

open Phrase

variable {text : List Char} {call : {α : Type} → Rule α → Spacing → Cursor → Attempt α}
  (h : LaysRules text call)
include h

/-! ### Patterns and parameters -/

theorem fallback : Lays text call .open .free Phrase.fallback := .after h.advancing h.assignment

theorem element : Lays text call .open .free Phrase.element := by
  refine .named (.combine (.both h.advancing h.pattern (.perhaps h.fallback)) ?_)
  intro range target value hparts
  obtain ⟨htarget, hvalue⟩ := laid_pair.mp hparts
  refine .seq htarget fun target htarget => .seq hvalue.optionBuilt fun value hvalue => ?_
  simp_all

theorem restTarget : Lays text call .open .free Phrase.restTarget :=
  .named (.after h.advancing h.pattern)

theorem slot : Lays text call .open .free Phrase.slot := by
  refine .placed (.named (.map (.perhaps (.orElse (.map h.restTarget ?_) (.map h.element ?_))) ?_))
  · exact fun range target => laid_slotRest.mpr
  · exact fun range value => laid_slotElement.mpr
  · intro range part hpart
    cases part with
    | none => simp [laid_iff]
    | some part => exact laid_some.mp hpart

theorem arrayPattern : Lays text call .open .free Phrase.arrayPattern :=
  .map (.named (.before h.advancing (.after h.advancing (.commaSeparated h.advancing h.slot))))
    fun _ _ => Laid.arrayPattern

theorem key : Lays text call .open .free Phrase.key := by
  refine .named (.orElse (.map ?_ ?_) (.orElse (.map .partless ?_)
    (.orElse (.map .partless ?_) (.map .partless ?_))))
  · exact .named (.before h.advancing (.after h.advancing h.assignment))
  · exact fun range value hvalue => hvalue.through fun _ => laid_computed.mpr
  · exact fun _ _ _ => laid_ok.mpr laid_static
  · exact fun _ _ _ => .bind fun _ _ => laid_pure.mpr laid_static
  · exact fun _ _ _ => laid_ok.mpr laid_static

theorem objectPatternProperty : Lays text call .open .free Phrase.objectPatternProperty := by
  refine .placed (.named (.orElse (.map h.restTarget ?_) (.orElse (.named (.combine
    (.both h.advancing (.before h.advancing h.key) h.element) ?_)) (.map h.element ?_))))
  · exact fun range target => laid_propertyRest.mpr
  · exact fun range key element hparts => laid_propertyKeyed.mpr (laid_pair.mp hparts)
  · exact fun range element => laid_propertyShorthand.mpr

theorem objectPattern : Lays text call .open .free Phrase.objectPattern :=
  .map (.named (.before h.advancing (.after h.advancing
    (.commaList h.advancing h.objectPatternProperty)))) fun _ _ => Laid.objectPattern

theorem patternPhrase : Lays text call .open .free Phrase.pattern :=
  .named (.orElse (.map .partless fun _ _ _ => laid_ok.mpr laid_name)
    (.orElse h.arrayPattern h.objectPattern))

theorem parameter : Lays text call .open .free Phrase.parameter := by
  refine .placed (.named (.orElse (.map h.restTarget ?_) (.map h.element ?_)))
  · exact fun range target => laid_parameterRest.mpr
  · exact fun range value => laid_parameterElement.mpr

theorem parameters : Lays text call .open .free Phrase.parameters := by
  refine .map (.perhaps (.named (.before h.advancing (.commaSeparated h.advancing h.parameter)))) ?_
  intro range parts hparts
  refine Laid.parameterList ?_ laid_none
  cases parts with
  | none => exact laid_nil
  | some parts => exact laid_some.mp hparts

/-! ### Functions -/

theorem functionTail : Lays text call .open .free Phrase.functionTail := by
  refine .combine (.both h.advancing
    (.before h.advancing (.after h.advancing h.parameters)) h.block) ?_
  intro range parameters body hparts
  obtain ⟨hparameters, hbody⟩ := laid_pair.mp hparts
  refine .seq hparameters fun (elements, rest) hparameters => .seq hbody fun body hbody => ?_
  simp_all

theorem functionStatement : Lays text call .open .free Phrase.functionStatement := by
  refine .map (.placed (.named (.both h.advancing .partless h.functionTail))) ?_
  intro range (p, x, tail) hparts
  have htail := (laid_pair.mp hparts).2.snd
  exact htail.through fun tail htail => htail.function

theorem functionExpression : Lays text call .open .free Phrase.functionExpression := by
  refine .map (.placed (.named (.both h.advancing .partless h.functionTail))) ?_
  intro range (p, x, tail) hparts
  have htail := (laid_pair.mp hparts).2.snd
  exact htail.through fun tail htail => laid_expr.mpr (laid_functionNode.mpr htail.function)

theorem arrowParameters : Lays text call .open .free Phrase.arrowParameters := by
  refine .named (.orElse (.map .partless fun _ _ _ => ?_)
    (.before h.advancing (.after h.advancing h.parameters)))
  simp

theorem arrowBody : Lays text call .open .free Phrase.arrowBody :=
  .orElse (.map h.block fun _ _ hbody => hbody.through fun _ => laid_block.mpr)
    (.map h.assignment fun _ _ hvalue => hvalue.through fun _ => laid_value.mpr)

theorem arrow : Lays text call .open .free Phrase.arrow := by
  refine .map (.placed (.named (.both h.advancing (.before h.advancing h.arrowParameters)
    h.arrowBody))) ?_
  intro range (p, parameters, body) hparts
  obtain ⟨-, hparts⟩ := laid_pair.mp hparts
  refine .seq hparts.fst fun (elements, rest) hparameters => .seq hparts.snd fun body hbody => ?_
  obtain ⟨helements, hrest⟩ := laid_pair.mp hparameters
  exact laid_pure.mpr (laid_expr.mpr (laid_functionNode.mpr
    (laid_function helements hrest hbody)))

/-! ### Operands -/

theorem spread : Lays text call .open .free Phrase.spread :=
  .named (.after h.advancing h.assignment)

theorem argument : Lays text call .open .free Phrase.argument := by
  refine .orElse (.map h.spread ?_) (.map h.assignment ?_)
  · exact fun range source hsource => hsource.through fun _ => laid_spread.mpr
  · exact fun range value hvalue => hvalue.through fun _ => laid_single.mpr

theorem arguments : Lays text call .open .free Phrase.arguments :=
  .map (.named (.before h.advancing (.after h.advancing (.commaList h.advancing h.argument))))
    fun _ _ => Laid.allBuilt

theorem arrayLiteral : Lays text call .open .free Phrase.arrayLiteral :=
  .map (.named (.before h.advancing (.after h.advancing (.commaList h.advancing h.argument))))
    fun _ _ helements => helements.allBuilt.through fun _ => by simp [laid_iff, Node.WellFormed]

theorem method : Lays text call .open .free Phrase.method := by
  refine .map (.placed (.named (.both h.advancing h.key h.functionTail))) ?_
  intro range (p, key, tail) hparts
  obtain ⟨-, hparts⟩ := laid_pair.mp hparts
  refine .seq hparts.fst fun key hkey => .seq hparts.snd fun tail htail => ?_
  exact laid_pure.mpr (laid_keyed.mpr
    ⟨laid_static, laid_expr.mpr (laid_functionNode.mpr htail.function)⟩)

theorem keyedProperty : Lays text call .open .free Phrase.keyedProperty := by
  refine .named (.combine (.both h.advancing (.before h.advancing h.key) h.assignment) ?_)
  intro range key value hparts
  exact .seq hparts.fst fun key hkey => .seq hparts.snd fun value hvalue =>
    laid_pure.mpr (laid_keyed.mpr ⟨hkey, hvalue⟩)

theorem objectLiteral : Lays text call .open .free Phrase.objectLiteral := by
  refine .map (.named (.before h.advancing (.after h.advancing (.commaList h.advancing
    (.orElse (.map h.spread ?_) (.orElse h.method
      (.orElse h.keyedProperty (.map .partless ?_)))))))) ?_
  · exact fun range source hsource => hsource.through fun _ => laid_propertySpread.mpr
  · exact fun range (p, x) _ => laid_ok.mpr (laid_keyed.mpr ⟨laid_static, by
      simp [laid_iff, Node.WellFormed]⟩)
  · exact fun range properties hproperties => hproperties.allBuilt.through fun _ => by
      simp [laid_iff, Node.WellFormed]

theorem parenthesized : Lays text call .open .free Phrase.parenthesized :=
  .named (.before h.advancing (.after h.advancing h.expression))

omit h in
theorem atPlace {node : Phrase (Built ExprNode)} (hnode : Lays text call .open .free node) :
    Lays text call .open .free (Phrase.atPlace node) :=
  .map (.placed hnode) fun _ _ hparts =>
    (laid_pair.mp hparts).2.through fun _ => laid_expr.mpr

omit h in
theorem constant {w : String} {node : ExprNode}
    (hnode : ∀ range : Set Position, Laid text range node) :
    Lays text call .open .free (Phrase.constant w node) :=
  atPlace (.map .partless fun range _ _ => laid_ok.mpr (hnode range))

theorem primary : Lays text call .open .free Phrase.primary := by
  refine .orElse h.functionExpression (.orElse (.map .partless ?_) (.orElse
    (atPlace (.map .partless ?_)) (.orElse (atPlace h.template) (.orElse (atPlace h.arrayLiteral)
    (.orElse (atPlace h.objectLiteral) (.orElse h.parenthesized (.orElse (constant ?_) (.orElse
    (constant ?_) (.orElse (constant ?_) (.orElse (constant ?_)
    (atPlace (.map .partless ?_))))))))))))
  · exact fun range (p, text) _ => .bind fun x _ => laid_pure.mpr (by
      simp [laid_iff, Node.WellFormed])
  all_goals
    intro range
    simp [laid_iff, Node.WellFormed]

omit h in
theorem memberSuffix : Lays text call .open .free Phrase.memberSuffix :=
  .map .partless fun _ _ _ => by simp

theorem index : Lays text call .open .free Phrase.index :=
  .map (.before h.advancing (.after h.advancing h.expression)) fun _ _ hvalue =>
    hvalue.through fun _ => laid_computed.mpr

theorem indexSuffix : Lays text call .open .free Phrase.indexSuffix :=
  .map (.named h.index) fun _ _ => laid_member.mpr

theorem suffix : Lays text call .open .free Phrase.suffix := by
  refine .orElse (.map h.arguments ?_) (.orElse memberSuffix (.orElse h.indexSuffix (.orElse
    (.map (.named (.after h.advancing h.arguments)) ?_) (.orElse
    (.map (.named (.after h.advancing h.index)) ?_) (.map .partless ?_)))))
  · exact fun range arguments => laid_call.mpr
  · exact fun range arguments => laid_call.mpr
  · exact fun range key => laid_member.mpr
  · exact fun range x _ => laid_member.mpr (laid_ok.mpr laid_static)

theorem newExpression : Lays text call .open .free Phrase.newExpression := by
  refine .map (.placed (.named (.both h.advancing (.after h.advancing (.named (.both h.advancing
    h.primary (.many h.advancing nofun (.orElse memberSuffix h.indexSuffix)))))
    (.perhaps h.arguments)))) ?_
  intro range (p, (callee, suffixes), arguments) hparts
  obtain ⟨-, hparts⟩ := laid_pair.mp hparts
  refine .seq hparts.fst.fst fun callee hcallee =>
    .seq (hcallee.applySuffixes hparts.fst.snd) fun callee hcallee =>
    .seq hparts.snd.optionBuilt fun arguments harguments => ?_
  refine laid_pure.mpr (laid_expr.mpr ?_)
  cases arguments <;> simp_all [laid_iff, Node.WellFormed]

theorem operand : Lays text call .open .free Phrase.operand := by
  refine .named (.combine (.both h.advancing (.orElse h.newExpression h.primary)
    (.many h.advancing nofun h.suffix)) ?_)
  exact fun range head suffixes hparts => .seq hparts.fst fun head hhead =>
    hhead.applySuffixes hparts.snd

theorem counted : Lays text call .open .free Phrase.counted := by
  refine .map (.placed (.named (.both h.advancing h.operand .partless))) ?_
  intro range (p, target, op) hparts
  refine .seq (laid_pair.mp hparts).2.fst fun target htarget => ?_
  cases op with
  | none => exact laid_pure.mpr htarget
  | some op =>
    refine .bind fun _ hreference => laid_pure.mpr (laid_expr.mpr ?_)
    have hreference := requireReference_eq_ok.mp hreference
    simp_all [laid_iff, Node.WellFormed]

/-! ### Operators -/

theorem unary : Lays text call .open .free Phrase.unary := by
  refine .named (.combine (.both h.advancing .partless h.counted) ?_)
  exact fun range front operand hparts => .seq hparts.snd fun operand hoperand =>
    hoperand.applyFront

theorem operation : Lays text call .open .free Phrase.operation :=
  .combine (.both h.advancing .partless h.unary) fun _ _ _ hparts =>
    hparts.snd.through fun _ hoperand => laid_pair.mpr ⟨Partless.laid .., hoperand⟩

theorem binary : Lays text call .open .free Phrase.binary := by
  refine .named (.combine (.both h.advancing h.unary (.many h.advancing nofun h.operation)) ?_)
  exact fun range first rest hparts => .seq hparts.fst fun first hfirst =>
    .seq hparts.snd.allBuilt fun rest hrest => laid_pure.mpr (hfirst.chain hrest)

theorem conditional : Lays text call .open .free Phrase.conditional := by
  refine .map (.placed (.named (.both h.advancing h.binary (.perhaps (.both h.advancing
    (.after h.advancing h.assignment) (.after h.advancing h.assignment)))))) ?_
  intro range (p, test, branches) hparts
  obtain ⟨-, hparts⟩ := laid_pair.mp hparts
  refine .seq hparts.fst fun test htest => ?_
  rcases branches with _ | ⟨yes, no⟩
  · exact laid_pure.mpr htest
  · have hbranches := laid_some.mp hparts.snd
    refine .seq hbranches.fst fun yes hyes => .seq hbranches.snd fun no hno => ?_
    exact laid_pure.mpr (laid_expr.mpr (by simp_all [laid_iff, Node.WellFormed]))

theorem plainOrAssigned : Lays text call .open .free Phrase.plainOrAssigned := by
  refine .map (.placed (.both h.advancing h.conditional (.perhaps (.both h.advancing .partless
    h.assignment)))) ?_
  intro range (p, left, right) hparts
  obtain ⟨-, hparts⟩ := laid_pair.mp hparts
  refine .seq hparts.fst fun left hleft => ?_
  rcases right with _ | ⟨op, value⟩
  · exact laid_pure.mpr hleft
  · exact hleft.assignment (laid_some.mp hparts.snd).snd

theorem assignmentPhrase : Lays text call .open .free Phrase.assignment :=
  .named (.orElse h.arrow h.plainOrAssigned)

theorem expressionPhrase : Lays text call .open .free Phrase.expression :=
  .map (.placed (.named (.commaSeparated h.advancing h.assignment))) fun _ _ hparts =>
    (laid_pair.mp hparts).2.allBuilt.through fun _ => Laid.sequence

/-! ### Statements -/

theorem inParentheses : Lays text call .open .free Phrase.inParentheses :=
  .before h.advancing (.after h.advancing h.expression)

theorem blockPhrase : Lays text call .open .free Phrase.block := by
  have hbody := Lays.many h.advancing (fun _ => rfl) h.statement
  refine .map (.named (.before h.advancing (.right (.behind h.advancing .partless ?_ hbody)))) ?_
  · rfl
  · exact fun range body hbody => hbody.allBuilt

theorem declarator : Lays text call .open .free Phrase.declarator :=
  .placed (.named (.both h.advancing h.pattern (.perhaps (.after h.advancing h.assignment))))

theorem declaration : Lays text call .open .free Phrase.declaration :=
  .named (.combine (.both h.advancing .partless (.commaSeparated h.advancing h.declarator))
    fun _ _ _ hparts => hparts.snd.declarators)

theorem variableStatement : Lays text call .open .free Phrase.variableStatement :=
  .map (.named (.before h.advancing h.declaration)) fun _ _ hd => hd.through fun d hd => by
    simpa [laid_iff, Node.WellFormed] using hd.sound

theorem functionDeclaration :
    Lays text call .open .free
      ((fun f : Built Function => f.map StmtNode.function) <$> Phrase.functionStatement) :=
  .map h.functionStatement fun _ _ hf => hf.through fun f hf => by
    simpa [laid_iff, Node.WellFormed] using hf.sound

theorem ifStatement : Lays text call .open .free Phrase.ifStatement := by
  have hbranches := Lays.both h.advancing h.statement
    (.perhaps (.right (.behind h.advancing (.partless (a := keyword "else")) rfl h.statement)))
  refine .map (.named (.behind h.advancing (.after h.advancing h.inParentheses) rfl hbranches)) ?_
  intro range (test, yes, no) hparts
  refine .bind fun test ht => .bind fun yes hy => .bind fun no hn => laid_pure.mpr ?_
  obtain rfl := optionBuilt_eq_ok.mp hn
  subst ht hy
  have hsound := hparts.sound
  have hordered := hparts.ordered
  refine ⟨?_, ?_, nofun⟩ <;> cases no <;> simp_all [Node.WellFormed]

theorem eachHead : Lays text call .open .free Phrase.eachHead := by
  refine .map (.named (.both h.advancing (.orElse (.combine (.both h.advancing .partless
    h.pattern) ?_) (.map h.operand ?_)) (.both h.advancing .partless h.expression))) ?_
  · exact fun range kind target hparts => hparts.snd.through fun target htarget =>
      ⟨htarget.sound, .nil, htarget.binds⟩
  · exact fun range target htarget => .seq htarget fun target htarget =>
      .bind fun p hp => laid_pure.mpr ⟨target.sound_toPattern hp htarget.sound, .nil, nofun⟩
  · intro range (target, loop, source) hparts
    refine .seq hparts.fst fun (kind, target) htarget => .seq hparts.snd.snd fun source hsource =>
      laid_pure.mpr ⟨allSound_append.mpr ⟨htarget.sound, hsource.sound⟩, .nil, htarget.binds⟩

theorem forStart : Lays text call .open .free Phrase.forStart := by
  refine .named (.orElse (.map h.declaration ?_) (.map h.expression ?_))
  · exact fun range d hd => hd.through fun d hd => by simpa [laid_iff] using hd.sound
  · exact fun range value hvalue => hvalue.through fun value hvalue => by
      simpa [laid_iff] using hvalue

theorem countingHead : Lays text call .open .free Phrase.countingHead := by
  refine .map (.named (.both h.advancing (.before h.advancing (.perhaps h.forStart))
    (.both h.advancing (.before h.advancing (.perhaps (.named h.expression)))
      (.perhaps (.named h.expression))))) ?_
  intro range (start, test, update) hparts
  refine .seq hparts.fst.optionBuilt fun start hstart =>
    .seq hparts.snd.fst.optionBuilt fun test htest =>
    .seq hparts.snd.snd.optionBuilt fun update hupdate => laid_pure.mpr ⟨?_, .nil, nofun⟩
  exact allSound_append.mpr ⟨hstart.sound, allSound_append.mpr ⟨htest.sound, hupdate.sound⟩⟩

theorem forStatement : Lays text call .open .free Phrase.forStatement := by
  refine .map (.named (.behind h.advancing (.before h.advancing (.after h.advancing
    (.orElse h.eachHead h.countingHead))) rfl h.statement)) ?_
  intro range (head, body) hparts
  refine .bind fun body hb => .bind fun head hh => laid_pure.mpr ?_
  subst hb hh
  exact Laid.loop ⟨hparts.sound, hparts.ordered, hparts.binds⟩

theorem whileStatement : Lays text call .open .free Phrase.whileStatement := by
  refine .named (.combine (.behind h.advancing (.after h.advancing h.inParentheses) rfl
    h.statement) ?_)
  intro range test body hparts
  refine .seq hparts.fst fun test htest => .seq hparts.snd fun body hbody => laid_pure.mpr ?_
  have hsound := htest.sound
  have hbody := hbody.sound
  exact ⟨by simp_all [Node.WellFormed], by simp, nofun⟩

theorem doStatement : Lays text call .open .free Phrase.doStatement := by
  refine .named (.combine (.both h.advancing (.right (.behind h.advancing .partless ?_ h.statement))
    (.before h.advancing (.after h.advancing h.inParentheses))) ?_)
  · rfl
  · intro range body test hparts
    refine .seq hparts.fst fun body hbody => .seq hparts.snd fun test htest => laid_pure.mpr ?_
    have hsound := htest.sound
    have hbody := hbody.sound
    exact ⟨by simp_all [Node.WellFormed], by simp, nofun⟩

theorem returnedPhrase : Lays text call .open .free Phrase.returned :=
  .spaced (.named (.before h.advancing (.after h.advancing (.perhaps (.after h.advancing
    (.spaced (.named h.expression)))))))

theorem returnStatement : Lays text call .open .free
    ((fun value => do return StmtNode.return (← optionBuilt value)) <$> .rule .return) := by
  refine .map h.returned fun range value hvalue => .seq hvalue.optionBuilt fun value hvalue =>
    laid_pure.mpr ?_
  have hsound := hvalue.sound
  cases value <;> simp_all [laid_iff, Node.WellFormed]

theorem throwStatement : Lays text call .open .free Phrase.throwStatement :=
  .map (.named (.before h.advancing (.after h.advancing h.expression))) fun _ _ hvalue =>
    hvalue.through fun value hvalue => by simpa [laid_iff, Node.WellFormed] using hvalue

theorem handler : Lays text call .open .free Phrase.handler := by
  refine .named (.combine (.both h.advancing (.after h.advancing (.perhaps
    (.before h.advancing (.after h.advancing h.pattern)))) h.block) ?_)
  intro range parameter body hparts
  refine .seq hparts.fst.optionBuilt fun parameter hparameter => .seq hparts.snd fun body hbody =>
    laid_pure.mpr ⟨allSound_append.mpr ⟨hparameter.binding, ?_⟩, ?_, nofun⟩
  · exact stmtsNodes_eq body ▸ hbody.sound
  · simpa [Handler.body] using hbody.ordered

theorem tryStatement : Lays text call .open .free Phrase.tryStatement := by
  refine .map (.placed (.named (.both h.advancing (.after h.advancing h.block)
    (.both h.advancing (.perhaps h.handler)
      (.perhaps (.named (.after h.advancing h.block))))))) ?_
  intro range (p, body, handler, finalizer) hparts
  have hparts := (laid_pair.mp hparts).2
  refine .bind fun body hb => .bind fun handler hh => .bind fun finalizer hf => ?_
  obtain rfl := optionBuilt_eq_ok.mp hh
  obtain rfl := optionBuilt_eq_ok.mp hf
  subst hb
  have hsound := hparts.sound
  have hordered := hparts.ordered
  split
  · exact laid_fault
  · refine laid_pure.mpr ⟨?_, ?_, nofun⟩ <;> cases handler <;> cases finalizer <;>
      simp_all [Node.WellFormed]

theorem switchCase : Lays text call .open .free Phrase.switchCase := by
  have hbody := Lays.many h.advancing (fun _ => rfl) h.statement
  refine .named (.combine (.behind h.advancing (.before h.advancing (.orElse
    (.map (.after h.advancing h.expression) ?_) (.map .partless ?_))) rfl hbody) ?_)
  · exact fun _ _ => laid_some.mpr
  · exact fun _ _ _ => laid_none
  · intro range test body hparts
    refine .seq hparts.fst.optionBuilt fun test htest => .seq hparts.snd.allBuilt fun body hbody =>
      laid_pure.mpr ⟨?_, ?_, nofun⟩
    · have hsound := htest.sound
      have hbody := hbody.sound
      cases test <;> simp_all
    · simpa [Case.body] using hbody.ordered

theorem switchStatement : Lays text call .open .free Phrase.switchStatement := by
  refine .named (.combine (.both h.advancing (.before h.advancing (.after h.advancing
    h.inParentheses)) (.before h.advancing (.many h.advancing nofun h.switchCase))) ?_)
  intro range value cases hparts
  refine .seq hparts.fst fun value hvalue => .seq hparts.snd.allBuilt fun cases hcases =>
    laid_pure.mpr ⟨?_, ?_, nofun⟩
  · have hsound := hvalue.sound
    have hcases := hcases.sound
    simp_all [Node.WellFormed]
  · simpa using hcases.ordered

theorem labeledStatement : Lays text call .open .free Phrase.labeledStatement := by
  refine .named (.combine (.behind h.advancing .partless rfl h.statement) ?_)
  exact fun range label body hparts => hparts.snd.through fun body hbody =>
    ⟨by simpa [Node.WellFormed] using hbody.sound, by simp, nofun⟩

theorem expressionStatement : Lays text call .open .free Phrase.expressionStatement :=
  .map (.named (.before h.advancing h.expression)) fun _ _ hvalue =>
    hvalue.through fun value hvalue => by simpa [laid_iff, Node.WellFormed] using hvalue

/-- Whatever kind it is of, a statement lays its parts within itself. -/
theorem statementNode : Lays text call .open .free Phrase.statementNode := by
  have hblock : Lays text call .open .free
      ((fun body : Built (List Stmt) => body.map StmtNode.block) <$> .rule .block) :=
    .map h.block fun _ _ hbody => hbody.through fun body hbody =>
      ⟨by simpa [Node.WellFormed] using hbody.sound, by simpa using hbody.ordered, nofun⟩
  have hplain {node : StmtNode} {range : Set Position} (hnode : (Node.deed node).WellFormed)
      (hinside : node.inside = []) (hrow : node.row = []) :
      Laid text range (.ok node : Built StmtNode) :=
    laid_ok.mpr ⟨by simp_all, by simp_all, nofun⟩
  exact .orElse hblock (.orElse h.variableStatement (.orElse h.functionDeclaration
    (.orElse h.ifStatement (.orElse h.forStatement (.orElse h.whileStatement
    (.orElse h.doStatement (.orElse h.returnStatement
    (.orElse (.map .partless fun _ _ _ => hplain trivial rfl rfl)
    (.orElse (.map .partless fun _ _ _ => hplain trivial rfl rfl)
    (.orElse h.throwStatement (.orElse h.tryStatement (.orElse h.switchStatement
    (.orElse h.labeledStatement
    (.orElse (.map .partless fun _ _ _ => hplain trivial rfl rfl)
      h.expressionStatement))))))))))))))

theorem templatePhrase : Lays text call .open .free Phrase.template := by
  refine .map (.spaced (.named (.before h.advancing (.after h.advancing (.many h.advancing nofun
    (.orElse (.map .partless fun _ _ _ => ?_) (.map (.spaced (.named (.before h.advancing
    (.after h.advancing h.expression)))) fun _ _ hvalue => ?_))))))) ?_
  · exact laid_ok.mpr (laid_inl.mpr (Partless.laid ..))
  · exact hvalue.through fun _ => laid_inr.mpr
  · intro range parts hparts
    refine .seq hparts.allBuilt fun parts hparts => laid_pure.mpr ⟨?_, .nil, nofun⟩
    have hsound := hparts.sound
    rw [← nodes_templateParts] at hsound
    exact allSound_cons.mpr ⟨sound_expr.mpr (length_templateParts parts), by simpa using hsound⟩

end LaysRules

/-! ## Statements in the text -/

/-- A statement shows the first line of its own text. -/
theorem faithful_excerpt {text : List Char} {c n : Cursor} {node : StmtNode} {x : Char}
    {cs : List Char} (hc : Cursor.ofText text ≤ c) (hn : c ≤ n) (htext : c.textTo n = x :: cs)
    (hx : Text.isBlank x = false) :
    (Stmt.mk node c.position (excerpt (x :: cs))).Faithful text := by
  obtain ⟨k, hk, rfl⟩ := hc
  have hbehind := Cursor.textTo_append hn
  rw [htext, Cursor.rest_advance] at hbehind
  refine ⟨⟨text.take k, text.drop k, (List.take_append_drop k text).symm, position_advance text hk,
    ?_, quotes_excerpt cs hx ⟨_, hbehind⟩⟩, excerpt_ne_empty cs hx, length_excerpt_le cs hx,
    newline_not_mem_excerpt cs hx⟩
  exact fun hnil => List.cons_ne_nil _ _ (hbehind.trans hnil)

/-- A match that takes a character takes the first one of the text. -/
theorem exists_textTo {c n : Cursor} (h : c < n) :
    ∃ x cs rest, c.rest = x :: rest ∧ c.textTo n = x :: cs := by
  have hbehind := Cursor.textTo_append h.le
  cases htext : c.textTo n with
  | nil =>
    rw [htext, List.nil_append] at hbehind
    exact absurd (Cursor.length_rest_lt h) (by simp [hbehind])
  | cons x cs => exact ⟨x, cs, cs ++ n.rest, by rw [← hbehind, htext]; rfl, rfl⟩

/-- A statement stands where it begins, around its parts. -/
theorem Laid.statement {text : List Char} {c n : Cursor} {node : StmtNode} {x : Char}
    {cs : List Char} (hnode : Laid text (Edge.open.range c.position n.position) node)
    (hc : Cursor.ofText text ≤ c) (hn : c < n) (htext : c.textTo n = x :: cs)
    (hx : Text.isBlank x = false) :
    Laid text (Edge.closed.range c.position n.position)
      (Stmt.mk node c.position (excerpt (c.textTo n))) := by
  have hwiden : Edge.open.range c.position n.position ⊆ Edge.closed.range c.position n.position :=
    Set.Ioo_subset_Ico_self
  have hinside : ∀ u, .statement u ∈ node.inside → c.position < u.position := fun u hu =>
    ((allSound_cons.mp hnode.sound).2 _ hu).2.1.1
  have hfaithful : (Stmt.mk node c.position (excerpt (x :: cs))).Faithful text :=
    faithful_excerpt hc hn.le htext hx
  rw [htext]
  refine ⟨allSound_cons.mpr ⟨⟨trivial, ?_⟩, hnode.sound.mono hwiden⟩, by simp, nofun⟩
  exact ⟨⟨le_rfl, Cursor.position_lt hn⟩, hfaithful, hinside, hnode.ordered⟩

/-- A statement is laid between its first character and its end. -/
theorem LaysRules.statementPhrase {text : List Char}
    {call : {α : Type} → Rule α → Spacing → Cursor → Attempt α} (h : LaysRules text call)
    (hblank : ∀ {c : Cursor} {x : Char} {rest : List Char}, c.IsSolid → c.rest = x :: rest →
      Text.isBlank x = true → ∀ v n, Phrase.statement.result call .free c ≠ .matched v n) :
    Lays text call .closed .free Phrase.statement := by
  intro c n v hc hsolid hv
  have hlt := lt_of_matched h.advancing hv (by rfl)
  obtain ⟨x, cs, rest, hrest, htext⟩ := exists_textTo hlt
  have hx : Text.isBlank x = false := by
    rw [Bool.eq_false_iff]
    exact fun hx => hblank (hsolid rfl) hrest hx v n hv
  simp only [Phrase.statement, result_fmap, Outcome.map_eq_matched, result_spanned,
    Outcome.andThen_eq_matched] at hv
  obtain ⟨⟨_, _, node⟩, ⟨w, m, hnode, he⟩, rfl⟩ := hv
  cases he
  have hnode := h.statementNode.named hc nofun hnode
  cases node with
  | error e => exact laid_error
  | ok node => exact laid_ok.mpr ((laid_ok.mp hnode).statement hc hlt htext hx)

theorem Lays.rule {α : Type} [Parts α] {text : List Char} {e : Edge} {s : Spacing} {fuel : Nat}
    {r : Rule α} (h : Lays text (fun r s c => readRule Rule.phrase fuel r s c) e s r.phrase) :
    Lays text (fun r s c => readRule Rule.phrase (fuel + 1) r s c) e s (.rule r) := h

/-- **All rules lay their values**, however deep they are followed. -/
theorem laysRules_readRule (text : List Char) (fuel : Nat) :
    LaysRules text fun r s c => readRule Rule.phrase fuel r s c := by
  have hadvancing (fuel : Nat) : Advancing fun r s c => readRule Rule.phrase fuel r s c :=
    advancing_readRule Rule.consumes_phrase fuel
  induction fuel with
  | zero => exact ⟨hadvancing 0, nofun, nofun, nofun, nofun, nofun, nofun, nofun⟩
  | succ fuel ih =>
    have hblank {c : Cursor} {x : Char} {rest : List Char} (hsolid : c.IsSolid)
        (hrest : c.rest = x :: rest) (hx : Text.isBlank x = true) (v : Built Stmt) (n : Cursor) :
        (Rule.phrase .statement).result (fun r s c => readRule Rule.phrase fuel r s c) .free c ≠
          .matched v n :=
      readRule_ne_matched Rule.consumes_phrase (fun r _ => r.mayOpen_blank (mem_blanks hx)) hrest
        hsolid (fuel + 1) rfl
    exact ⟨hadvancing _, .rule (r := .statement) (ih.statementPhrase hblank),
      .rule (r := .block) ih.blockPhrase, .rule (r := .expression) ih.expressionPhrase,
      .rule (r := .assignment) ih.assignmentPhrase, .rule (r := .pattern) ih.patternPhrase,
      .rule (r := .template) ih.templatePhrase, .rule (r := .return) ih.returnedPhrase⟩

end ScriptTrace.Syntax
