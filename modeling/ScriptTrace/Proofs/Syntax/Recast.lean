import Mathlib.Data.List.Forall2
import ScriptTrace.Proofs.Syntax.Layout

/-!
# Proofs/Syntax/Recast — patterns built as such and from expressions

A pattern is put together from parts that were read as patterns, or taken from an expression that
was read in its place.  Both ways yield the same pattern, or none of them yields any, if that holds
of the parts (`recast_array`, `recast_object`).
-/

namespace ScriptTrace.Syntax

open Grammar (Position)

/-! ## Parts -/

/-- **An expression that stands for a pattern**: it yields that pattern, if there is one, and is no
assignment. -/
structure Recast (target : Built Pattern) (value : Built Expr) : Prop where
  iff : ∀ p, target = .ok p ↔ ∃ e, value = .ok e ∧ e.toPattern = .ok p
  bare : ∀ e, value = .ok e → e.plainAssignment? = none

/-- **An expression that stands for a target** with its default. -/
def RecastElement (element : Built PatternElement) (value : Built Expr) : Prop :=
  ∀ v, element = .ok v ↔ ∃ e, value = .ok e ∧ asElement e e.toPattern = .ok v

/-- An element of an array literal that stands for a place of an array pattern. -/
inductive RecastSlot : Position × SlotPart → Built Element → Prop
  | rest {target : Built Pattern} {source : Built Expr} (p : Position) (h : Recast target source) :
    RecastSlot (p, .rest target) (source.map .spread)
  | element {element : Built PatternElement} {value : Built Expr} (p : Position)
    (h : RecastElement element value) : RecastSlot (p, .element element) (value.map .single)

/-- A property of an object literal that stands for one of an object pattern. -/
inductive RecastProperty : Position × PropertyPart → Built Property → Prop
  | rest {target : Built Pattern} {source : Built Expr} (p : Position) (h : Recast target source) :
    RecastProperty (p, .rest target) (source.map .spread)
  | keyed {element : Built PatternElement} {value : Built Expr} (p : Position) (key : Built Key)
    (h : RecastElement element value) :
    RecastProperty (p, .keyed key element) (do return .keyed (← key) (← value))
  | shorthand (p q : Position) (x : String) :
    RecastProperty (p, .shorthand (.ok (.mk (.name x) none)))
      (.ok (.keyed (.static x) (.mk (.name x) q)))

/-- A place of an array pattern that is not built. -/
inductive DeadSlot : Position × SlotPart → Prop
  | rest {target : Built Pattern} (p : Position) (h : ∀ v, target ≠ .ok v) :
    DeadSlot (p, .rest target)
  | element {element : Built PatternElement} (p : Position) (h : ∀ v, element ≠ .ok v) :
    DeadSlot (p, .element element)

/-- A property of an object pattern that is not built, or whose key is no name. -/
inductive DeadProperty : Position × PropertyPart → Prop
  | rest {target : Built Pattern} (p : Position) (h : ∀ v, target ≠ .ok v) :
    DeadProperty (p, .rest target)
  | keyed {element : Built PatternElement} (p : Position) (key : Built Key)
    (h : ∀ v, element ≠ .ok v) : DeadProperty (p, .keyed key element)
  | shorthand {element : Built PatternElement} (p : Position)
    (h : ∀ v x, element = .ok v → v.target ≠ .name x) : DeadProperty (p, .shorthand element)

/-! ## Targets with defaults -/

section

variable {α β : Type} {target : Built Pattern} {value source : Built Expr}

theorem map_eq_ok {x : Built α} {f : α → β} {w : β} :
    x.map f = .ok w ↔ ∃ v, x = .ok v ∧ f v = w := by
  cases x with
  | error e => exact ⟨nofun, nofun⟩
  | ok v => exact ⟨fun h => ⟨v, rfl, Except.ok.inj h⟩, fun ⟨_, hv, h⟩ => by cases hv; rw [← h]; rfl⟩

theorem asElement_of_bare {e : Expr} (he : e.plainAssignment? = none) (target : Built Pattern) :
    asElement e target = target.map (PatternElement.mk · none) := by
  rw [asElement, he]

/-- **Without a default.** -/
theorem Recast.element (h : Recast target value) :
    RecastElement (do return .mk (← target) none) value := by
  intro v
  simp only [pure, Except.pure, bind_eq_ok, h.iff]
  constructor
  · rintro ⟨p, ⟨e, rfl, hp⟩, hv⟩
    cases hv
    exact ⟨e, rfl, by rw [asElement_of_bare (h.bare e rfl), hp]; rfl⟩
  · rintro ⟨e, rfl, hv⟩
    rw [asElement_of_bare (h.bare e rfl), map_eq_ok] at hv
    obtain ⟨p, hp, rfl⟩ := hv
    exact ⟨p, ⟨e, rfl, hp⟩, rfl⟩

/-- **With a default**, which is assigned to the target. -/
theorem Recast.assigned (h : Recast target value) (p : Position) (source : Built Expr) :
    RecastElement (do return .mk (← target) (some (← source)))
      (value >>= fun left => assignment p left .plain source) := by
  intro v
  simp only [pure, Except.pure, bind_eq_ok, h.iff, assignment, decide_true, Bool.true_or, if_true]
  constructor
  · rintro ⟨t, ⟨e, rfl, ht⟩, s, rfl, hv⟩
    cases hv
    exact ⟨_, ⟨e, rfl, t, ht, s, rfl, rfl⟩, rfl⟩
  · rintro ⟨_, ⟨e, rfl, t, ht, s, rfl, he⟩, hv⟩
    cases he
    cases hv
    exact ⟨t, ⟨e, rfl, ht⟩, s, rfl, rfl⟩

end

/-! ## Arrays -/

section

variable {parts : List (Position × SlotPart)} {elements : List (Built Element)}

theorem allBuilt_cons_eq_ok {α : Type} {v : Built α} {vs : List (Built α)} {ws : List α} :
    allBuilt (v :: vs) = .ok ws ↔ ∃ w us, v = .ok w ∧ allBuilt vs = .ok us ∧ ws = w :: us := by
  rw [allBuilt_eq_ok]
  cases ws with
  | nil => simp
  | cons w us => simp [allBuilt_eq_ok, and_comm]

/-- A list is built if its first part and the others are. -/
theorem exists_allBuilt_cons {α : Type} {v : Built α} {vs : List (Built α)} {P : List α → Prop} :
    (∃ ws, allBuilt (v :: vs) = .ok ws ∧ P ws) ↔
      ∃ w us, v = .ok w ∧ allBuilt vs = .ok us ∧ P (w :: us) := by
  constructor
  · rintro ⟨_, hall, h⟩
    obtain ⟨w, us, hw, hus, rfl⟩ := allBuilt_cons_eq_ok.mp hall
    exact ⟨w, us, hw, hus, h⟩
  · rintro ⟨w, us, hw, hus, h⟩
    exact ⟨w :: us, allBuilt_cons_eq_ok.mpr ⟨w, us, hw, hus, rfl⟩, h⟩

/-- Nothing but holes stands behind a rest. -/
theorem arraySlots_behind_rest (h : List.Forall₂ RecastSlot parts elements) (hne : elements ≠ [])
    (target : Pattern) (r : List Slot × Option Pattern) :
    arraySlots parts (some target) ≠ .ok r := by
  cases h with
  | nil => exact absurd rfl hne
  | cons hpart _ => cases hpart <;> exact nofun

theorem elementTargets_behind_spread {es : List Element} (hne : es ≠ []) (source : Expr)
    (p : Position) (r : List Slot × Option Pattern) :
    elementTargets p (.spread source :: es) ≠ .ok r := by
  cases es with
  | nil => exact absurd rfl hne
  | cons e es => simp [elementTargets, fault]

/-- **The places of an array pattern** from the elements of a literal. -/
theorem arraySlots_recast (h : List.Forall₂ RecastSlot parts elements) (p : Position)
    (r : List Slot × Option Pattern) :
    arraySlots parts none = .ok r ↔
      ∃ es, allBuilt elements = .ok es ∧ elementTargets p es = .ok r := by
  induction h generalizing r with
  | nil => simp [arraySlots, allBuilt, elementTargets, pure, Except.pure]
  | @cons part element parts elements hpart hmore ih =>
    cases hpart with
    | @rest target source q hrest =>
      rw [arraySlots, Option.isSome_none, if_neg Bool.false_ne_true, bind_eq_ok]
      constructor
      · rintro ⟨t, ht, hslots⟩
        obtain ⟨e, rfl, he⟩ := (hrest.iff t).mp ht
        cases hmore with
        | nil => exact ⟨[.spread e], rfl, by rw [elementTargets, he]; exact hslots⟩
        | cons hpart hmore =>
          exact absurd hslots (arraySlots_behind_rest (.cons hpart hmore) (by simp) t r)
      · rintro ⟨_, hall, htargets⟩
        obtain ⟨_, es, hsource, hes, rfl⟩ := allBuilt_cons_eq_ok.mp hall
        obtain ⟨e, he, rfl⟩ := map_eq_ok.mp hsource
        cases hmore with
        | nil =>
          obtain rfl : es = [] := by simpa using allBuilt_eq_ok.mp hes
          rw [elementTargets, bind_eq_ok] at htargets
          obtain ⟨t, ht, htargets⟩ := htargets
          exact ⟨t, (hrest.iff t).mpr ⟨e, he, ht⟩, htargets⟩
        | cons =>
          obtain ⟨u, us, -, -, rfl⟩ := allBuilt_cons_eq_ok.mp hes
          exact absurd htargets (elementTargets_behind_spread (List.cons_ne_nil u us) e p r)
    | @element element value q helement =>
      rw [arraySlots, Option.isSome_none, if_neg Bool.false_ne_true, bind_eq_ok]
      constructor
      · rintro ⟨v, hv, hslots⟩
        obtain ⟨e, rfl, he⟩ := (helement v).mp hv
        obtain ⟨r', hr', hslots⟩ := bind_eq_ok.mp hslots
        obtain ⟨es, hes, htargets⟩ := (ih r').mp hr'
        refine ⟨.single e :: es, allBuilt_cons_eq_ok.mpr ⟨_, _, rfl, hes, rfl⟩, ?_⟩
        rw [elementTargets, he, htargets]
        exact hslots
      · rintro ⟨_, hall, htargets⟩
        obtain ⟨_, es, hvalue, hes, rfl⟩ := allBuilt_cons_eq_ok.mp hall
        obtain ⟨e, he, rfl⟩ := map_eq_ok.mp hvalue
        rw [elementTargets, bind_eq_ok] at htargets
        obtain ⟨v, hv, htargets⟩ := htargets
        obtain ⟨r', hr', htargets⟩ := bind_eq_ok.mp htargets
        exact ⟨v, (helement v).mpr ⟨e, he, hv⟩,
          bind_eq_ok.mpr ⟨r', (ih r').mpr ⟨es, hes, hr'⟩, htargets⟩⟩

theorem forall₂_mem_left {α β : Type} {R : α → β → Prop} {l : List α} {l' : List β}
    (h : List.Forall₂ R l l') : ∀ a ∈ l, ∃ b ∈ l', R a b := by
  induction h with
  | nil => exact nofun
  | @cons a b l l' hab _ ih =>
    rw [List.forall_mem_cons]
    exact ⟨⟨b, List.mem_cons_self, hab⟩,
      fun c hc => (ih c hc).imp fun _ => And.imp_left (List.mem_cons_of_mem b)⟩

theorem recastSlot_ne_empty {part : Position × SlotPart} {element : Built Element}
    (h : RecastSlot part element) : part.2 ≠ .empty := by
  cases h <;> exact nofun

/-- An array pattern without an empty place behind its last one. -/
theorem arrayPattern_of_filled (h : ∀ part ∈ parts, part.2 ≠ .empty) :
    arrayPattern parts =
      (do let (slots, rest) ← arraySlots parts none; return .array slots rest) := by
  obtain rfl | ⟨ws, ⟨q, part⟩, rfl⟩ := parts.eq_nil_or_concat
  · rfl
  · have hpart : part ≠ .empty := h (q, part) (by simp)
    simp only [arrayPattern, List.concat_eq_append, List.getLast?_concat]
    cases part with
    | empty => exact absurd rfl hpart
    | rest | element => rfl

/-- **An array literal stands for the array pattern.** -/
theorem recast_array (h : List.Forall₂ RecastSlot parts elements) (p : Position) :
    Recast (arrayPattern parts) (((allBuilt elements).map ExprNode.array).map (.mk · p)) where
  iff v := by
    have hfilled : ∀ part ∈ parts, part.2 ≠ .empty := fun part hpart => by
      obtain ⟨element, -, hcast⟩ := forall₂_mem_left h part hpart
      exact recastSlot_ne_empty hcast
    rw [arrayPattern_of_filled hfilled, bind_eq_ok]
    constructor
    · rintro ⟨r, hslots, hv⟩
      obtain ⟨es, hes, htargets⟩ := (arraySlots_recast h p r).mp hslots
      refine ⟨.mk (.array es) p, by rw [hes]; rfl, ?_⟩
      rw [Expr.toPattern, htargets]
      exact hv
    · rintro ⟨e, he, hv⟩
      obtain ⟨_, hnode, rfl⟩ := map_eq_ok.mp he
      obtain ⟨es, hes, rfl⟩ := map_eq_ok.mp hnode
      rw [Expr.toPattern, bind_eq_ok] at hv
      obtain ⟨r, htargets, hv⟩ := hv
      exact ⟨r, (arraySlots_recast h p r).mpr ⟨es, hes, htargets⟩, hv⟩
  bare e he := by
    obtain ⟨_, hnode, rfl⟩ := map_eq_ok.mp he
    obtain ⟨es, -, rfl⟩ := map_eq_ok.mp hnode
    rfl

/-- Elements that can be no targets make no pattern. -/
theorem arraySlots_of_dead (h : ∃ part ∈ parts, DeadSlot part) (rest : Option Pattern)
    (r : List Slot × Option Pattern) : arraySlots parts rest ≠ .ok r := by
  induction parts generalizing rest r with
  | nil =>
    obtain ⟨_, hpart, -⟩ := h
    cases hpart
  | cons part parts ih =>
    intro hslots
    obtain ⟨q, hmem, hdead⟩ := h
    obtain ⟨p, _ | target | element⟩ := part
    · rw [arraySlots, bind_eq_ok] at hslots
      obtain ⟨r', hslots, -⟩ := hslots
      refine ih ⟨q, (List.mem_cons.mp hmem).resolve_left ?_, hdead⟩ rest r' hslots
      rintro rfl
      cases hdead
    · rw [arraySlots] at hslots
      split at hslots
      · cases hslots
      · obtain ⟨t, ht, hslots⟩ := bind_eq_ok.mp hslots
        refine ih ⟨q, (List.mem_cons.mp hmem).resolve_left ?_, hdead⟩ _ r hslots
        rintro rfl
        cases hdead with
        | rest _ hdead => exact hdead t ht
    · rw [arraySlots] at hslots
      split at hslots
      · cases hslots
      · obtain ⟨v, hv, hslots⟩ := bind_eq_ok.mp hslots
        obtain ⟨r', hslots, -⟩ := bind_eq_ok.mp hslots
        refine ih ⟨q, (List.mem_cons.mp hmem).resolve_left ?_, hdead⟩ rest r' hslots
        rintro rfl
        cases hdead with
        | element _ hdead => exact hdead v hv

/-- **An array pattern with a dead place is not built.** -/
theorem arrayPattern_of_dead (h : ∃ part ∈ parts, DeadSlot part) (v : Pattern) :
    arrayPattern parts ≠ .ok v := by
  intro hv
  rw [arrayPattern, bind_eq_ok] at hv
  obtain ⟨r, hslots, -⟩ := hv
  refine arraySlots_of_dead ?_ none r hslots
  obtain ⟨q, hmem, hdead⟩ := h
  refine ⟨q, ?_, hdead⟩
  split
  · rename_i p hlast
    obtain ⟨ws, rfl⟩ := List.getLast?_eq_some_iff.mp hlast
    rw [List.dropLast_concat]
    refine (List.mem_append.mp hmem).resolve_right fun hq => ?_
    obtain rfl := List.mem_singleton.mp hq
    cases hdead
  · exact hmem

/-- An array pattern is no name. -/
theorem arrayPattern_ne_name (x : String) : arrayPattern parts ≠ .ok (.name x) := by
  intro h
  obtain ⟨r, -, h⟩ := bind_eq_ok.mp h
  cases h

end

/-! ## Objects -/

section

variable {parts : List (Position × PropertyPart)} {properties : List (Built Property)}

/-- **The properties of an object pattern** from those of a literal. -/
theorem objectProperties_recast (h : List.Forall₂ RecastProperty parts properties)
    (r : List PropertyPattern × Option Pattern) :
    objectProperties parts = .ok r ↔
      ∃ ps, allBuilt properties = .ok ps ∧ propertyTargets ps = .ok r := by
  induction h generalizing r with
  | nil => simp [objectProperties, allBuilt, propertyTargets, pure, Except.pure]
  | @cons part property parts properties hpart _ ih =>
    rw [exists_allBuilt_cons]
    cases hpart with
    | @rest target source p hrest =>
      simp only [objectProperties, bind_eq_ok, hrest.iff, ih, map_eq_ok]
      constructor
      · rintro ⟨t, ⟨e, he, ht⟩, r', ⟨us, hus, hr'⟩, hr⟩
        exact ⟨_, us, ⟨e, he, rfl⟩, hus, by simp only [propertyTargets, ht, hr']; exact hr⟩
      · rintro ⟨_, us, ⟨e, he, rfl⟩, hus, hr⟩
        simp only [propertyTargets, bind_eq_ok] at hr
        obtain ⟨t, ht, r', hr', hr⟩ := hr
        exact ⟨t, ⟨e, he, ht⟩, r', ⟨us, hus, hr'⟩, hr⟩
    | @keyed element value p key helement =>
      simp only [objectProperties, bind_eq_ok, helement _, ih]
      constructor
      · rintro ⟨k, rfl, v, ⟨e, rfl, hv⟩, r', ⟨us, hus, hr'⟩, hr⟩
        exact ⟨_, us, ⟨k, rfl, e, rfl, rfl⟩, hus, by simp only [propertyTargets, hv, hr']; exact hr⟩
      · rintro ⟨_, us, ⟨k, rfl, e, rfl, hw⟩, hus, hr⟩
        cases hw
        simp only [propertyTargets, bind_eq_ok] at hr
        obtain ⟨v, hv, r', hr', hr⟩ := hr
        exact ⟨k, rfl, v, ⟨e, rfl, hv⟩, r', ⟨us, hus, hr'⟩, hr⟩
    | shorthand p q x =>
      have htarget : asElement (.mk (.name x) q) (Expr.toPattern (.mk (.name x) q)) =
          .ok (.mk (.name x) none) := by
        rw [Expr.toPattern, asElement_of_bare rfl]
        rfl
      have hparts : objectProperties ((p, .shorthand (.ok (.mk (.name x) none))) :: parts) =
          objectProperties parts >>= fun r =>
            pure (.mk (.static x) (.mk (.name x) none) :: r.1, r.2) := rfl
      rw [hparts]
      simp only [bind_eq_ok, ih]
      constructor
      · rintro ⟨r', ⟨us, hus, hr'⟩, hr⟩
        exact ⟨_, us, rfl, hus, by simp only [propertyTargets, htarget, hr']; exact hr⟩
      · rintro ⟨_, us, hw, hus, hr⟩
        cases hw
        simp only [propertyTargets, htarget, bind_eq_ok] at hr
        obtain ⟨_, hv, r', hr', hr⟩ := hr
        cases hv
        exact ⟨r', ⟨us, hus, hr'⟩, hr⟩

/-- **An object literal stands for the object pattern.** -/
theorem recast_object (h : List.Forall₂ RecastProperty parts properties) (p : Position) :
    Recast (objectPattern parts) (((allBuilt properties).map ExprNode.object).map (.mk · p)) where
  iff v := by
    rw [objectPattern, bind_eq_ok]
    constructor
    · rintro ⟨r, hproperties, hv⟩
      obtain ⟨ps, hps, htargets⟩ := (objectProperties_recast h r).mp hproperties
      refine ⟨.mk (.object ps) p, by rw [hps]; rfl, ?_⟩
      rw [Expr.toPattern, htargets]
      exact hv
    · rintro ⟨e, he, hv⟩
      obtain ⟨_, hnode, rfl⟩ := map_eq_ok.mp he
      obtain ⟨ps, hps, rfl⟩ := map_eq_ok.mp hnode
      rw [Expr.toPattern, bind_eq_ok] at hv
      obtain ⟨r, htargets, hv⟩ := hv
      exact ⟨r, (objectProperties_recast h r).mpr ⟨ps, hps, htargets⟩, hv⟩
  bare e he := by
    obtain ⟨_, hnode, rfl⟩ := map_eq_ok.mp he
    obtain ⟨ps, -, rfl⟩ := map_eq_ok.mp hnode
    rfl

/-- Properties that can be no targets make no pattern. -/
theorem objectProperties_of_dead (h : ∃ part ∈ parts, DeadProperty part)
    (r : List PropertyPattern × Option Pattern) : objectProperties parts ≠ .ok r := by
  induction parts generalizing r with
  | nil =>
    obtain ⟨_, hpart, -⟩ := h
    cases hpart
  | cons part parts ih =>
    intro hproperties
    -- What stands behind the first property is built, so that one is dead.
    have hbehind {r'} (hr' : objectProperties parts = .ok r') : DeadProperty part := by
      obtain ⟨q, hmem, hdead⟩ := h
      obtain rfl | hmem := List.mem_cons.mp hmem
      · exact hdead
      · exact absurd hr' (ih ⟨q, hmem, hdead⟩ r')
    obtain ⟨p, target | ⟨key, element⟩ | element⟩ := part
    · simp only [objectProperties, bind_eq_ok] at hproperties
      obtain ⟨t, ht, r', hr', -⟩ := hproperties
      cases hbehind hr' with
      | rest _ hdead => exact hdead t ht
    · simp only [objectProperties, bind_eq_ok] at hproperties
      obtain ⟨_, -, v, hv, r', hr', -⟩ := hproperties
      cases hbehind hr' with
      | keyed _ _ hdead => exact hdead v hv
    · simp only [objectProperties, bind_eq_ok] at hproperties
      obtain ⟨v, hv, hproperties⟩ := hproperties
      split at hproperties
      · rename_i x hx
        obtain ⟨r', hr', -⟩ := bind_eq_ok.mp hproperties
        cases hbehind hr' with
        | shorthand _ hdead => exact hdead v x hv hx
      · cases hproperties

/-- **An object pattern with a dead property is not built.** -/
theorem objectPattern_of_dead (h : ∃ part ∈ parts, DeadProperty part) (v : Pattern) :
    objectPattern parts ≠ .ok v := by
  intro hv
  obtain ⟨r, hproperties, -⟩ := bind_eq_ok.mp hv
  exact objectProperties_of_dead h r hproperties

/-- A name is the only target without a key. -/
theorem deadProperty_shorthand {target : Built Pattern} (h : ∀ x, target ≠ .ok (.name x))
    (p : Position) : DeadProperty (p, .shorthand (target.map (PatternElement.mk · none))) := by
  refine .shorthand p fun v x hv hx => ?_
  obtain ⟨t, ht, rfl⟩ := map_eq_ok.mp hv
  exact h x (ht.trans (congrArg Except.ok hx))

/-- An object pattern is no name. -/
theorem objectPattern_ne_name (x : String) : objectPattern parts ≠ .ok (.name x) := by
  intro h
  obtain ⟨r, -, h⟩ := bind_eq_ok.mp h
  cases h

end

end ScriptTrace.Syntax
