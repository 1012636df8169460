import ScriptTrace.Proofs.Syntax.Part
import ScriptTrace.Syntax.Hoist

/-!
# Proofs/Syntax/Variable — the variables of a body

A body declares a variable where a `var` stands in it: at any depth of other statements, but not
inside a function.  `listVarNames` collects these names and no others (`mem_listVarNames`): what a
statement collects is what it declares itself, and what the statements in its row collect.
-/

namespace ScriptTrace.Syntax

/-- The patterns that a statement itself declares with `var`. -/
def StmtNode.varTargets : StmtNode → List Pattern
  | .declare .var ds | .forLoop (some (.declare .var ds)) _ _ _ => ds.map Declarator.target
  | .forEach _ (some .var) target _ _ => [target]
  | _ => []

/-- **The statements that stand in a body**, at any depth of other statements. -/
inductive StandsIn (body : List Stmt) : Stmt → Prop
  | row {s : Stmt} (h : s ∈ body) : StandsIn body s
  | inside {s inner : Stmt} (h : StandsIn body s) (hrow : inner ∈ s.node.row) : StandsIn body inner

/-- **A body declares a variable.** -/
def DeclaresVar (body : List Stmt) (name : String) : Prop :=
  ∃ s, StandsIn body s ∧ ∃ p ∈ s.node.varTargets, name ∈ p.names

/-- The names of the functions that are declared in a row. -/
def functionNames (body : List Stmt) : List String :=
  body.filterMap fun s =>
    match s.node with
    | .function f => some (f.name.getD "")
    | _ => none

section

variable {s : Stmt} {ss : List Stmt} {f : Function}

theorem functionNames_of_function (h : s.node = .function f) :
    functionNames (s :: ss) = f.name.getD "" :: functionNames ss :=
  List.filterMap_cons_some (by rw [h])

theorem functionNames_of_other (h : ∀ f, s.node ≠ .function f) :
    functionNames (s :: ss) = functionNames ss := by
  refine List.filterMap_cons_none ?_
  split
  · exact absurd ‹_› (h _)
  · rfl

end

/-! ## What a statement collects -/

/-- The names that `var` declares in a list are those of its statements. -/
theorem listVarNames_eq (ss : List Stmt) : listVarNames ss = ss.flatMap Stmt.varNames := by
  induction ss with
  | nil => rfl
  | cons s ss ih => rw [listVarNames, ih, List.flatMap_cons]

/-- The names of the cases are those of their statements. -/
theorem caseVarNames_eq (cs : List Case) :
    caseVarNames cs = (cs.flatMap Case.body).flatMap Stmt.varNames := by
  induction cs with
  | nil => rfl
  | cons c cs ih =>
    obtain ⟨test, body⟩ := c
    rw [caseVarNames, ih, List.flatMap_cons, List.flatMap_append, Case.varNames, listVarNames_eq]
    rfl

/-- Only `var` declares names for the function around it. -/
theorem varNames_eq (kind : DeclarationKind) (ds : List Declarator) :
    varNames kind (declaredNames ds) =
      (StmtNode.declare kind ds).varTargets.flatMap Pattern.names := by
  cases kind with
  | var => exact (List.flatMap_map ..).symm
  | lexical | const => rfl

/-- **What a statement collects** it declares itself, or the statements in its row collect it. -/
theorem StmtNode.varNames_eq (node : StmtNode) :
    node.varNames = node.varTargets.flatMap Pattern.names ++ node.row.flatMap Stmt.varNames := by
  cases node with
  | declare kind ds =>
    rw [varNames, Syntax.varNames_eq]
    exact (List.append_nil _).symm
  | ifElse test yes no =>
    cases no with
    | none => simp [varNames, varTargets, optionVarNames]
    | some no => simp [varNames, varTargets, optionVarNames]
  | forLoop start test update body =>
    have hbody : ([body] : List Stmt).flatMap Stmt.varNames = body.varNames := by simp
    rw [varNames, row, hbody]
    congr 1
    cases start with
    | none => rfl
    | some start =>
      cases start with
      | expr e => rfl
      | declare kind ds =>
        refine (Syntax.varNames_eq kind ds).trans ?_
        cases kind <;> rfl
  | forEach loop kind target source body =>
    rcases kind with - | - | - | - <;> simp [varNames, varTargets, Syntax.varNames]
  | «try» body handler finalizer =>
    have hhandler : handlerVarNames handler =
        (handler.elim [] Handler.body).flatMap Stmt.varNames := by
      cases handler with
      | none => rfl
      | some h =>
        obtain ⟨parameter, body⟩ := h
        exact listVarNames_eq body
    have hfinalizer : finalizerVarNames finalizer = (finalizer.getD []).flatMap Stmt.varNames := by
      cases finalizer with
      | none => rfl
      | some last => exact listVarNames_eq last
    simp [varNames, varTargets, listVarNames_eq, hhandler, hfinalizer]
  | switch value cases => simp [varNames, varTargets, caseVarNames_eq]
  | block body => simp [varNames, varTargets, listVarNames_eq]
  | «while» | doWhile | labeled => simp [varNames, varTargets]
  | _ => rfl

/-- A name is declared in a statement itself or in one of its row. -/
theorem Stmt.mem_varNames {s : Stmt} {name : String} : name ∈ s.varNames ↔
    (∃ p ∈ s.node.varTargets, name ∈ p.names) ∨ ∃ inner ∈ s.node.row, name ∈ inner.varNames := by
  obtain ⟨node, position, excerpt⟩ := s
  rw [Stmt.varNames, node.varNames_eq, List.mem_append, List.mem_flatMap, List.mem_flatMap]
  rfl

/-! ## What a body declares -/

/-- The statements in the row of a statement are smaller. -/
theorem Stmt.sizeOf_lt_of_mem_row {s inner : Stmt} (h : inner ∈ s.node.row) :
    sizeOf inner < sizeOf s := by
  obtain ⟨node, position, excerpt⟩ := s
  change inner ∈ node.row at h
  suffices hnode : sizeOf inner < sizeOf node by
    rw [Stmt.mk.sizeOf_spec]
    omega
  cases node with
  | ifElse test yes no =>
    rcases List.mem_cons.mp h with rfl | h
    · simp
      omega
    · cases Option.mem_toList.mp h
      simp
      omega
  | «try» body handler finalizer =>
    simp only [StmtNode.row, List.mem_append] at h
    rcases h with h | h | h
    · have hlt := List.sizeOf_lt_of_mem h
      simp
      omega
    · cases handler with
      | none => cases h
      | some handler =>
        obtain ⟨parameter, body⟩ := handler
        have hlt : sizeOf inner < sizeOf body := List.sizeOf_lt_of_mem h
        simp
        omega
    · cases finalizer with
      | none => cases h
      | some last =>
        have hlt : sizeOf inner < sizeOf last := List.sizeOf_lt_of_mem h
        simp
        omega
  | switch value cases =>
    obtain ⟨c, hc, h⟩ := List.mem_flatMap.mp h
    obtain ⟨test, body⟩ := c
    have hlt : sizeOf inner < sizeOf body := List.sizeOf_lt_of_mem h
    have hcase := List.sizeOf_lt_of_mem hc
    simp at hcase ⊢
    omega
  | block body =>
    have hlt : sizeOf inner < sizeOf body := List.sizeOf_lt_of_mem h
    simp
    omega
  | forLoop | forEach | «while» | doWhile | labeled =>
    cases List.mem_singleton.mp h
    simp only [StmtNode.forLoop.sizeOf_spec, StmtNode.forEach.sizeOf_spec,
      StmtNode.while.sizeOf_spec, StmtNode.doWhile.sizeOf_spec, StmtNode.labeled.sizeOf_spec]
    omega
  | _ => cases h

/-- A statement that stands in a body declares there what it collects: induction on its size. -/
theorem StandsIn.declaresVar {body : List Stmt} {name : String} {s : Stmt} (h : StandsIn body s)
    (hname : name ∈ s.varNames) : DeclaresVar body name := by
  rcases Stmt.mem_varNames.mp hname with ⟨p, hp, hname⟩ | ⟨inner, hrow, hname⟩
  · exact ⟨s, h, p, hp, hname⟩
  · exact (h.inside hrow).declaresVar hname
termination_by sizeOf s
decreasing_by exact Stmt.sizeOf_lt_of_mem_row hrow

/-- **The collected names are those of the variables** that a body declares. -/
theorem mem_listVarNames {body : List Stmt} {name : String} :
    name ∈ listVarNames body ↔ DeclaresVar body name := by
  have hcollects {s : Stmt} (h : StandsIn body s) (hname : name ∈ s.varNames) :
      name ∈ listVarNames body := by
    induction h with
    | row h => exact listVarNames_eq body ▸ List.mem_flatMap.mpr ⟨_, h, hname⟩
    | inside _ hrow ih => exact ih (Stmt.mem_varNames.mpr (.inr ⟨_, hrow, hname⟩))
  constructor
  · intro h
    obtain ⟨s, hs, hname⟩ := List.mem_flatMap.mp (listVarNames_eq body ▸ h)
    exact (StandsIn.row hs).declaresVar hname
  · rintro ⟨s, hs, htarget⟩
    exact hcollects hs (Stmt.mem_varNames.mpr (.inl htarget))

/-- **A name is hoisted if a `var` of the body declares it.** -/
theorem mem_hoistedNames {body : List Stmt} {name : String} :
    name ∈ hoistedNames body ↔ DeclaresVar body name := by
  rw [hoistedNames, List.mem_eraseDups]
  exact mem_listVarNames

/-- **A body binds a name before it runs**: that of a variable or a function that it declares. -/
def FunctionBody.Hoists (name : String) : FunctionBody → Prop
  | .expr _ => False
  | .block body => DeclaresVar body name ∨ name ∈ functionNames body

end ScriptTrace.Syntax
