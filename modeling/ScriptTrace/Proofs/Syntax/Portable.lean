import ScriptTrace.Proofs.Grammar.Correspondence
import ScriptTrace.Proofs.Syntax.Building
import ScriptTrace.Proofs.Syntax.First

/-!
# Proofs/Syntax/Portable — a tree depends on its text alone

Two readings that take the same ways through the grammar yield the same trees up to their places
(`Rule.kept_phrase`).  There is one rule for each way to build a form, and one line for each phrase,
which cites how its parts are put together.  So the same text is read as the same trees wherever it
stands (`alike_elsewhere_follow`).
-/

namespace ScriptTrace.Syntax

open Grammar
open Grammar.Form
open Located

/-! ## Values up to relocations -/

/-- The values of a rule have places. -/
@[reducible] def Rule.located : {α : Type} → Rule α → Located α
  | _, .statement | _, .block | _, .expression | _, .assignment | _, .pattern | _, .string
  | _, .template | _, .return | _, .break | _, .continue => inferInstance

/-- Values correspond that two relocations make equal. -/
def Relocation.correspondence (m m' : Relocation) : Correspondence Rule where
  position p p' := m.position p = m'.position p'
  text t t' := m.excerpt (Syntax.excerpt t) = m'.excerpt (Syntax.excerpt t')
  value r v v' := r.located.relocated m v = r.located.relocated m' v'

/-- **Corresponding values of a phrase are equal** up to the relocations. -/
def Kept (m m' : Relocation) (s : Spacing) {α : Type} [Located α] (f : Phrase α) : Prop :=
  ∀ ⦃v v' : α⦄, f.Corresponds (m.correspondence m') s v v' → relocated m v = relocated m' v'

namespace Kept

section

variable {α β γ : Type} [Located α] [Located β] [Located γ] {m m' : Relocation} {s s' : Spacing}
  {a a' : Phrase α} {b : Phrase β}

theorem named (h : Kept m m' s a) : Kept m m' s (.named a) := h

theorem spaced (h : Kept m m' s' a) : Kept m m' s (.spaced s' a) := h

theorem atom (h : Kept m m' .quiet a) : Kept m m' s (Form.atom a) := h

theorem map {f : α → β} (h : Kept m m' s a)
    (hf : ∀ {m : Relocation} v, relocated m (f v) = f (relocated m v)) :
    Kept m m' s (f <$> a) := by
  rintro _ _ ⟨v, v', hv, rfl, rfl⟩
  rw [hf, hf, h hv]

omit [Located α] in
theorem const {w : β} (hw : relocated m w = relocated m' w) :
    Kept m m' s ((fun _ => w) <$> a) := by
  rintro _ _ ⟨v, v', -, rfl, rfl⟩
  exact hw

theorem placed (h : Kept m m' s a) : Kept m m' s (Form.placed a) := by
  rintro _ _ ⟨v, v', ⟨hposition, -, hv⟩, rfl, rfl⟩
  exact congrArg₂ Prod.mk hposition (h hv)

theorem both (ha : Kept m m' s a) (hb : Kept m m' s b) : Kept m m' s (.both a b) :=
  fun _ _ h => congrArg₂ Prod.mk (ha h.1) (hb h.2)

theorem combine {f : α → β → γ} (h : Kept m m' s (.both a b))
    (hf : ∀ {m : Relocation} v w, relocated m (f v w) = f (relocated m v) (relocated m w)) :
    Kept m m' s (Form.combine f a b) :=
  map h fun v => hf v.1 v.2

theorem left {β : Type} {b : Phrase β} (h : Kept m m' s a) : Kept m m' s (a <* b) := by
  rintro _ _ ⟨v, v', hv, rfl, rfl⟩
  exact h hv.1

theorem right {α : Type} {a : Phrase α} (h : Kept m m' s b) : Kept m m' s (a *> b) := by
  rintro _ _ ⟨v, v', hv, rfl, rfl⟩
  exact h hv.2

theorem orElse (h : Kept m m' s a) (h' : Kept m m' s a') : Kept m m' s (a <|> a') :=
  fun _ _ hv => hv.elim (h ·) (h' ·)

theorem perhaps (h : Kept m m' s a) : Kept m m' s (.perhaps a) := by
  rintro _ _ (hv | _)
  · exact congrArg some (h hv)
  · rfl

theorem many (h : Kept m m' s a) : Kept m m' s (.many a) := by
  intro vs vs' hvs
  induction hvs with
  | nil => rfl
  | cons hv _ ih => exact congrArg₂ List.cons (h hv) ih

theorem commaSeparated (h : Kept m m' s a) : Kept m m' s (Form.commaSeparated a) :=
  .combine (.both h (.many (.right h))) fun _ _ => rfl

theorem commaList (h : Kept m m' s a) : Kept m m' s (Phrase.commaList a) :=
  .map (.perhaps (.left (.commaSeparated h))) fun items => by cases items <;> rfl

/-- The text that a form matches is the same. -/
theorem text {α : Type} {a : Phrase α} : Kept m m' .quiet (Form.text a) := by
  rintro _ _ ⟨⟨_, t, _⟩, ⟨_, t', _⟩, ⟨-, rfl, -⟩, rfl, rfl⟩
  exact (relocated_chars t).trans (relocated_chars t).symm

omit [Located α] in
theorem rule (r : Rule α) : @Kept m m' s α r.located (.rule r) := fun _ _ h => h

end

/-! ## The phrases of the language -/

section

open Phrase

variable {m m' : Relocation} {s : Spacing}

/-! ### Words and literals -/

theorem ofList {a : Phrase (List Char)} (ha : Kept m m' s a) :
    Kept m m' s (String.ofList <$> a) :=
  .map ha fun _ => congrArg String.ofList (relocated_chars _).symm

theorem name : Kept m m' s Phrase.name := ofList (.atom (.right text))

theorem propertyName : Kept m m' s Phrase.propertyName := ofList (.atom text)

theorem numberText : Kept m m' .quiet Phrase.numberText :=
  .orElse text (.orElse text text)

theorem number : Kept m m' s Phrase.number := .placed (.atom numberText)

theorem stringInside (quote : Char) : Kept m m' s (Phrase.stringInside quote) :=
  .atom text

theorem stringPhrase : Kept m m' s Phrase.string :=
  .spaced (.named (.orElse
    (.left (.right (stringInside '"')))
    (.left (.right (stringInside '\'')))))

theorem templateChars : Kept m m' s Phrase.templateChars := .atom text

theorem templateValue : Kept m m' s Phrase.templateValue :=
  .spaced (.named (.left (.right (.rule .expression))))

/-- A template keeps its pieces, and its values at their places. -/
theorem templatePhrase : Kept m m' s Phrase.template := by
  refine .map (.spaced (.named (.left (.right (.many (.orElse
    (.map templateChars fun _ => rfl) (.map templateValue fun _ => ?_))))))) ?_
  · exact relocated_map fun _ => rfl
  · intro m parts
    rw [← relocated_allBuilt]
    refine relocated_seq fun parts => ?_
    rw [← relocated_templateParts]
    obtain ⟨pieces, values⟩ := templateParts parts
    simp [pure, Except.pure]

/-! ### Patterns and parameters -/

theorem fallback : Kept m m' s Phrase.fallback :=
  .right (.rule .assignment)

theorem element : Kept m m' s Phrase.element := by
  refine .named (.combine (.both (.rule .pattern) (.perhaps fallback)) ?_)
  intro m target value
  rw [← relocated_optionBuilt]
  exact relocated_seq fun _ => relocated_seq fun value => by cases value <;> rfl

theorem restTarget : Kept m m' s Phrase.restTarget := .named (.right (.rule .pattern))

theorem slot : Kept m m' s Phrase.slot := by
  refine .placed (.named (.map (.perhaps (.orElse
    (.map restTarget fun _ => rfl) (.map element fun _ => rfl))) fun part => ?_))
  cases part <;> rfl

theorem arrayPattern : Kept m m' s Phrase.arrayPattern :=
  .map (.named (.left (.right (.commaSeparated slot))))
    relocated_arrayPattern

theorem relocated_numberKey (p : Position) (text : List Char) :
    relocated m (numberKey p text) = numberKey (relocated m p) (relocated m text) := by
  rw [relocated_chars text, numberKey, numberKey, ← relocated_numberValue]
  exact relocated_seq fun _ => rfl

/-- A key that is computed keeps its place. -/
theorem key : Kept m m' s Phrase.key := by
  refine .named (.orElse (.map (.named (.left (.right (.rule .assignment))))
    fun _ => relocated_map fun _ => rfl) (.orElse (.map (.rule .string) fun inside => ?_)
    (.orElse (.map number fun n => ?_) (.map propertyName fun _ => rfl))))
  · rw [relocated_chars inside]
    rfl
  · exact relocated_numberKey n.1 n.2

theorem objectPatternProperty : Kept m m' s Phrase.objectPatternProperty :=
  .placed (.named (.orElse (.map restTarget fun _ => rfl) (.orElse
    (.named (.combine (.both (.left key) element) fun _ _ => rfl))
    (.map element fun _ => rfl))))

theorem objectPattern : Kept m m' s Phrase.objectPattern :=
  .map (.named (.left (.right (.commaList objectPatternProperty))))
    relocated_objectPattern

theorem patternPhrase : Kept m m' s Phrase.pattern :=
  .named (.orElse (.map name fun _ => rfl)
    (.orElse arrayPattern objectPattern))

theorem parameter : Kept m m' s Phrase.parameter :=
  .placed (.named (.orElse (.map restTarget fun _ => rfl)
    (.map element fun _ => rfl)))

theorem parameters : Kept m m' s Phrase.parameters := by
  refine .map (.perhaps (.named (.left (.commaSeparated parameter)))) ?_
  intro m parts
  have hparts : Option.getD (relocated m parts) [] = relocated m (parts.getD []) := by
    cases parts <;> rfl
  rw [hparts]
  exact relocated_parameterList _ none

/-! ### Functions -/

theorem functionTail : Kept m m' s Phrase.functionTail := by
  refine .combine (.both (.left (.right parameters)) (.rule .block)) ?_
  exact fun parameters body => relocated_seq fun _ => relocated_seq fun _ => rfl

theorem functionStatement : Kept m m' s Phrase.functionStatement :=
  .map (.placed (.named (.both (.right name) functionTail)))
    fun _ => relocated_map fun tail => relocated_function tail _ _

theorem functionExpression : Kept m m' s Phrase.functionExpression :=
  .map (.placed (.named (.both (.right (.perhaps name))
    functionTail))) fun (_, x, _) => relocated_map fun tail => by
      cases x <;> simp [relocated_function]

theorem arrowParameters : Kept m m' s Phrase.arrowParameters :=
  .named (.orElse (.map name fun _ => rfl) (.left (.right parameters)))

theorem arrowBody : Kept m m' s Phrase.arrowBody :=
  .orElse (.map (.rule .block) fun _ => relocated_map fun _ => by simp)
    (.map (.rule .assignment) fun _ => relocated_map fun _ => rfl)

theorem arrow : Kept m m' s Phrase.arrow :=
  .map (.placed (.named (.both (.left arrowParameters) arrowBody)))
    fun _ => relocated_seq fun _ => relocated_seq fun _ => by simp [pure, Except.pure]

/-! ### Operands -/

theorem spread : Kept m m' s Phrase.spread := .named (.right (.rule .assignment))

theorem argument : Kept m m' s Phrase.argument :=
  .orElse (.map spread fun _ => relocated_map fun _ => rfl)
    (.map (.rule .assignment) fun _ => relocated_map fun _ => rfl)

theorem arguments : Kept m m' s Phrase.arguments :=
  .map (.named (.left (.right (.commaList argument)))) relocated_allBuilt

theorem arrayLiteral : Kept m m' s Phrase.arrayLiteral := by
  refine .map (.named (.left (.right (.commaList argument)))) ?_
  intro m elements
  rw [← relocated_allBuilt]
  exact relocated_map fun _ => by simp

theorem method : Kept m m' s Phrase.method := by
  refine .map (.placed (.named (.both key functionTail))) ?_
  rintro m ⟨p, key, tail⟩
  refine relocated_seq fun key => ?_
  cases key <;> exact relocated_seq fun _ => by simp [relocated_function, pure, Except.pure]

theorem keyedProperty : Kept m m' s Phrase.keyedProperty :=
  .named (.combine (.both (.left key) (.rule .assignment))
    fun _ _ => relocated_seq fun _ => relocated_seq fun _ => rfl)

theorem objectLiteral : Kept m m' s Phrase.objectLiteral := by
  refine .map (.named (.left (.right (.commaList (.orElse
    (.map spread fun _ => relocated_map fun _ => rfl) (.orElse method
    (.orElse keyedProperty
      (.map (.placed (.named name)) fun _ => rfl)))))))) ?_
  intro m properties
  rw [← relocated_allBuilt]
  exact relocated_map fun _ => by simp

theorem parenthesized : Kept m m' s Phrase.parenthesized :=
  .named (.left (.right (.rule .expression)))

theorem atPlace {node : Phrase (Built ExprNode)} (hnode : Kept m m' s node) :
    Kept m m' s (Phrase.atPlace node) :=
  .map (.placed hnode) fun _ => relocated_map fun _ => rfl

theorem constant {w : String} {node : ExprNode} (h : ∀ m : Relocation, node.relocated m = node) :
    Kept m m' s (Phrase.constant w node) :=
  atPlace (.const (congrArg Except.ok ((h m).trans (h m').symm)))

/-- Each kind of operand keeps its place. -/
theorem primary : Kept m m' s Phrase.primary := by
  refine .orElse functionExpression (.orElse (.map number ?_)
    (.orElse (atPlace (.map (.rule .string) ?_)) (.orElse (atPlace (.rule .template))
    (.orElse (atPlace arrayLiteral) (.orElse (atPlace objectLiteral)
    (.orElse parenthesized (.orElse (constant fun _ => rfl) (.orElse (constant fun _ => rfl)
    (.orElse (constant fun _ => rfl) (.orElse (constant fun _ => rfl)
    (atPlace (.map name fun _ => rfl))))))))))))
  · rintro m ⟨p, text⟩
    change _ = numberValue (relocated m text) (relocated m p) >>= _
    rw [relocated_chars text, ← relocated_numberValue]
    exact relocated_seq fun _ => rfl
  · intro m inside
    rw [relocated_chars inside]
    rfl

theorem memberSuffix : Kept m m' s Phrase.memberSuffix :=
  .map (.named (.right propertyName)) fun _ => rfl

theorem index : Kept m m' s Phrase.index :=
  .map (.left (.right (.rule .expression))) fun _ => relocated_map fun _ => rfl

theorem indexSuffix : Kept m m' s Phrase.indexSuffix := .map (.named index) fun _ => rfl

theorem suffix : Kept m m' s Phrase.suffix :=
  .orElse (.map arguments fun _ => rfl) (.orElse memberSuffix
    (.orElse indexSuffix (.orElse
    (.map (.named (.right arguments)) fun _ => rfl) (.orElse
    (.map (.named (.right index)) fun _ => rfl)
    (.map (.named (.right propertyName)) fun _ => rfl)))))

/-- What is made with `new` keeps its place. -/
theorem newExpression : Kept m m' s Phrase.newExpression := by
  refine .map (.placed (.named (.both (.right (.named (.both
    primary (.many (.orElse memberSuffix indexSuffix)))))
    (.perhaps arguments)))) ?_
  rintro m ⟨p, ⟨callee, suffixes⟩, arguments⟩
  refine relocated_seq fun callee => ?_
  change _ = applySuffixes (callee.relocated m) (relocated m suffixes) >>= fun _ =>
    optionBuilt (relocated m arguments) >>= _
  rw [← relocated_applySuffixes, ← relocated_optionBuilt]
  exact relocated_seq fun _ => relocated_seq fun arguments => by
    cases arguments <;> simp [pure, Except.pure]

theorem operand : Kept m m' s Phrase.operand := by
  refine .named (.combine (.both (.orElse newExpression primary)
    (.many suffix)) ?_)
  exact fun head suffixes => relocated_seq fun head => relocated_applySuffixes head suffixes

theorem updateOperator : Kept m m' s Phrase.updateOperator :=
  .orElse (.const rfl) (.const rfl)

/-- An operand that is counted keeps its place, and so does the fault of one that cannot be. -/
theorem counted : Kept m m' s Phrase.counted := by
  refine .map (.placed (.named (.both operand
    (.perhaps (.named updateOperator))))) ?_
  rintro m ⟨p, target, op⟩
  refine relocated_seq fun target => ?_
  cases op with
  | none => rfl
  | some op =>
    dsimp only
    rw [← relocated_requireReference]
    exact relocated_seq fun _ => rfl

/-! ### Operators -/

theorem frontOperator : Kept m m' s Phrase.frontOperator :=
  .orElse (.map updateOperator fun _ => rfl)
    (.orElse (.const rfl) (.orElse (.const rfl) (.orElse (.const rfl)
    (.orElse (.const rfl) (.orElse (.const rfl) (.orElse (.const rfl) (.const rfl)))))))

theorem unary : Kept m m' s Phrase.unary :=
  .named (.combine (.both (.many (.placed (.named frontOperator)))
    counted) fun front _ => relocated_seq fun operand => relocated_applyFront operand front)

theorem between : Kept m m' s Phrase.between := by
  repeat' first | exact .const rfl | refine .orElse ?_ ?_

theorem operation : Kept m m' s Phrase.operation :=
  .combine (.both between unary) fun _ _ => relocated_map fun _ => rfl

theorem binary : Kept m m' s Phrase.binary := by
  refine .named (.combine (.both unary (.many operation)) ?_)
  intro m first rest
  rw [← relocated_allBuilt]
  exact relocated_seq fun first => relocated_seq fun rest =>
    congrArg Except.ok (relocated_chain first rest)

/-- A choice keeps the place of its test. -/
theorem conditional : Kept m m' s Phrase.conditional := by
  refine .map (.placed (.named (.both binary (.perhaps (.both
    (.right (.rule .assignment)) (.right (.rule .assignment))))))) ?_
  rintro m ⟨p, test, branches⟩
  refine relocated_seq fun test => ?_
  rcases branches with _ | ⟨yes, no⟩
  · rfl
  · exact relocated_seq fun _ => relocated_seq fun _ => rfl

theorem assignOperator : Kept m m' s Phrase.assignOperator := by
  refine .atom ?_
  repeat' first | exact .const rfl | refine .orElse ?_ ?_

/-- An assignment keeps the place of its left side. -/
theorem plainOrAssigned : Kept m m' s Phrase.plainOrAssigned := by
  refine .map (.placed (.both conditional (.perhaps (.both
    assignOperator (.rule .assignment))))) ?_
  rintro m ⟨p, left, right⟩
  refine relocated_seq fun left => ?_
  rcases right with _ | ⟨op, value⟩
  · rfl
  · exact relocated_assignment p left op value

theorem assignmentPhrase : Kept m m' s Phrase.assignment :=
  .named (.orElse arrow plainOrAssigned)

theorem expressionPhrase : Kept m m' s Phrase.expression := by
  refine .map (.placed (.named (.commaSeparated (.rule .assignment)))) ?_
  rintro m ⟨p, items⟩
  change _ = (allBuilt (relocated m items)).map _
  rw [← relocated_allBuilt]
  exact relocated_map fun items => relocated_sequence p items

/-! ### Statements -/

theorem inParentheses : Kept m m' s Phrase.inParentheses :=
  .left (.right (.rule .expression))

theorem blockPhrase : Kept m m' s Phrase.block :=
  .map (.named (.left (.right (.many (.rule .statement))))) relocated_allBuilt

theorem declarationKind : Kept m m' s Phrase.declarationKind := by
  refine .atom ?_
  repeat' first | exact .const rfl | refine .orElse ?_ ?_

theorem declarator : Kept m m' s Phrase.declarator :=
  .placed (.named (.both (.rule .pattern)
    (.perhaps (.right (.rule .assignment)))))

theorem declaration : Kept m m' s Phrase.declaration := by
  refine .named (.combine (.both declarationKind
    (.commaSeparated declarator)) ?_)
  intro m kind parts
  change _ = (declarators kind (relocated m parts)).map _
  rw [← relocated_declarators]
  exact relocated_map fun _ => rfl

theorem variableStatement : Kept m m' s Phrase.variableStatement :=
  .map (.named (.left declaration)) fun _ => relocated_map fun _ => by simp

theorem ifStatement : Kept m m' s Phrase.ifStatement := by
  refine .map (.named (.both (.right inParentheses) (.both
    (.rule .statement) (.perhaps (.right (.rule .statement)))))) ?_
  rintro m ⟨test, yes, no⟩
  refine relocated_seq fun test => relocated_seq fun yes => ?_
  change _ = optionBuilt (relocated m no) >>= _
  rw [← relocated_optionBuilt]
  exact relocated_seq fun _ => by simp [pure, Except.pure]

/-- The head of a loop keeps the places of target and source. -/
theorem eachHead : Kept m m' s Phrase.eachHead := by
  refine .map (.named (.both (.orElse (.combine (.both
    declarationKind (.rule .pattern)) fun _ _ => relocated_map fun _ => rfl) (.map operand ?_))
    (.both (.orElse (.const rfl) (.const rfl)) (.rule .expression)))) ?_
  · intro m target
    refine relocated_seq fun target => ?_
    change _ = (target.relocated m).toPattern >>= _
    rw [← target.relocated_toPattern]
    exact relocated_seq fun _ => rfl
  · exact fun _ => relocated_seq fun (kind, _) => relocated_seq fun _ => by cases kind <;> rfl

theorem forStart : Kept m m' s Phrase.forStart :=
  .named (.orElse (.map declaration fun _ => relocated_map fun _ => by simp)
    (.map (.rule .expression) fun _ => relocated_map fun _ => rfl))

theorem countingHead : Kept m m' s Phrase.countingHead := by
  refine .map (.named (.both (.left (.perhaps forStart))
    (.both (.left (.perhaps (.named (.rule .expression))))
      (.perhaps (.named (.rule .expression)))))) ?_
  rintro m ⟨start, test, update⟩
  change _ = optionBuilt (relocated m start) >>= fun _ => optionBuilt (relocated m test) >>= fun _ =>
    optionBuilt (relocated m update) >>= _
  rw [← relocated_optionBuilt, ← relocated_optionBuilt, ← relocated_optionBuilt]
  exact relocated_seq fun _ => relocated_seq fun _ => relocated_seq fun _ => rfl

theorem forStatement : Kept m m' s Phrase.forStatement := by
  refine .map (.named (.both (.left (.right
    (.orElse eachHead countingHead))) (.rule .statement))) ?_
  exact fun _ => relocated_seq fun body => relocated_seq fun head =>
    congrArg Except.ok (head.relocated_node body)

theorem whileStatement : Kept m m' s Phrase.whileStatement :=
  .named (.combine (.both (.right inParentheses) (.rule .statement))
    fun _ _ => relocated_seq fun _ => relocated_seq fun _ => rfl)

theorem doStatement : Kept m m' s Phrase.doStatement :=
  .named (.combine (.both (.right (.rule .statement))
    (.left (.right inParentheses)))
    fun _ _ => relocated_seq fun _ => relocated_seq fun _ => rfl)

theorem returnedPhrase : Kept m m' s Phrase.returned :=
  .spaced (.named (.left (.right (.perhaps (.right
    (.spaced (.named (.rule .expression))))))))

theorem returnStatement : Kept m m' s
    ((fun value => do return StmtNode.return (← optionBuilt value)) <$> .rule .return) := by
  refine .map (.rule .return) fun value => ?_
  rw [← relocated_optionBuilt]
  exact relocated_seq fun value => by cases value <;> rfl

theorem jump (w : String) : Kept m m' s (Phrase.jump w) :=
  .spaced (.named (.left (.right (.perhaps (.right name)))))

theorem throwStatement : Kept m m' s Phrase.throwStatement :=
  .map (.named (.left (.right (.rule .expression)))) fun _ => relocated_map fun _ => rfl

theorem handler : Kept m m' s Phrase.handler := by
  refine .named (.combine (.both (.right (.perhaps
    (.left (.right (.rule .pattern))))) (.rule .block)) ?_)
  intro m parameter body
  rw [← relocated_optionBuilt]
  exact relocated_seq fun parameter => relocated_seq fun body => by
    cases parameter <;> simp [pure, Except.pure]

/-- A `try` alone is a fault at the place where it stands. -/
theorem tryStatement : Kept m m' s Phrase.tryStatement := by
  refine .map (.placed (.named (.both (.right (.rule .block))
    (.both (.perhaps handler)
      (.perhaps (.named (.right (.rule .block)))))))) ?_
  rintro m ⟨p, body, handler, finalizer⟩
  refine relocated_seq fun body => ?_
  change _ = optionBuilt (relocated m handler) >>= fun _ =>
    optionBuilt (relocated m finalizer) >>= _
  rw [← relocated_optionBuilt, ← relocated_optionBuilt]
  refine relocated_seq fun handler => relocated_seq fun finalizer => ?_
  cases handler <;> cases finalizer <;> simp [pure, Except.pure, fault]

theorem switchCase : Kept m m' s Phrase.switchCase := by
  refine .named (.combine (.both (.left (.orElse
    (.map (.right (.rule .expression)) fun _ => rfl) (.const rfl)))
    (.many (.rule .statement))) ?_)
  intro m test body
  rw [← relocated_optionBuilt, ← relocated_allBuilt]
  exact relocated_seq fun test => relocated_seq fun body => by
    cases test <;> simp [pure, Except.pure]

theorem switchStatement : Kept m m' s Phrase.switchStatement := by
  refine .named (.combine (.both (.left (.right inParentheses))
    (.left (.many switchCase))) ?_)
  intro m value cases
  rw [← relocated_allBuilt]
  exact relocated_seq fun _ => relocated_seq fun _ => by simp [pure, Except.pure]

theorem labeledStatement : Kept m m' s Phrase.labeledStatement :=
  .named (.combine (.both (.left name) (.rule .statement))
    fun _ _ => relocated_map fun _ => rfl)

theorem expressionStatement : Kept m m' s Phrase.expressionStatement :=
  .map (.named (.left (.rule .expression))) fun _ => relocated_map fun _ => rfl

/-- Whatever kind it is of, a statement keeps the places of its parts. -/
theorem statementNode : Kept m m' s Phrase.statementNode :=
  .orElse (.map (.rule .block) fun _ => relocated_map fun _ => by simp)
    (.orElse variableStatement (.orElse
    (.map functionStatement fun _ => relocated_map fun _ => rfl) (.orElse
    ifStatement (.orElse forStatement (.orElse whileStatement
    (.orElse doStatement (.orElse returnStatement
    (.orElse (.map (.rule .break) fun label => by cases label <;> rfl)
    (.orElse (.map (.rule .continue) fun label => by cases label <;> rfl)
    (.orElse throwStatement (.orElse tryStatement
    (.orElse switchStatement (.orElse labeledStatement
    (.orElse (.const rfl) expressionStatement))))))))))))))

/-- The excerpt of a statement is taken from its text. -/
theorem statementPhrase (hm : (m.correspondence m').Steady) :
    Kept m m' s Phrase.statement := by
  rintro _ _ ⟨⟨c, t, node⟩, ⟨c', t', node'⟩, ⟨hposition, htext, hnode⟩, rfl, rfl⟩
  have hmade (m : Relocation) (p : Position) (t : String) (node : Built StmtNode) :
      relocated m (node.map fun n => Stmt.mk n p t) =
        (relocated m node).map fun n => .mk n (m.position p) (m.excerpt t) :=
    relocated_map fun _ => rfl
  have hexcerpt : m.excerpt (Syntax.excerpt t) = m'.excerpt (Syntax.excerpt t') := by
    split at htext
    · rw [show t = t' from htext]
      exact hm.text t'
    · exact htext
  rw [hmade, hmade, show m.position c.position = m'.position c'.position from hposition, hexcerpt,
    show relocated m node = relocated m' node' from statementNode hnode]

end

end Kept

/-! ## The rules -/

variable {m m' : Relocation} {fuel fuel' : Nat} {c c' : Cursor}

/-- **Corresponding values of a rule are equal** up to the relocations. -/
theorem Rule.kept_phrase (hm : (m.correspondence m').Steady) {α : Type} (r : Rule α) (s : Spacing) :
    @Kept m m' s α r.located r.phrase := by
  cases r with
  | statement => exact .statementPhrase hm
  | block => exact .blockPhrase
  | expression => exact .expressionPhrase
  | assignment => exact .assignmentPhrase
  | pattern => exact .patternPhrase
  | string => exact .stringPhrase
  | template => exact .templatePhrase
  | «return» => exact .returnedPhrase
  | «break» => exact .jump "break"
  | «continue» => exact .jump "continue"

/-- **The same text is read as the same trees**, up to relocations that agree on its places. -/
theorem alike_elsewhere_follow (hm : (m.correspondence m').Steady) {α : Type} (r : Rule α)
    (s : Spacing) (h : (m.correspondence m').Elsewhere c c') :
    Outcome.Alike ((m.correspondence m').value r) (m.correspondence m').Elsewhere
      (follow fuel r s c).outcome (follow fuel' r s c').outcome := by
  induction fuel generalizing α fuel' c c' s with
  | zero => exact .exhausted _
  | succ fuel ih =>
    cases fuel' with
    | zero => exact .exhausted_right _
    | succ fuel' =>
      exact (r.phrase.alike_elsewhere hm (advancing_follow fuel) (advancing_follow fuel')
        (fun r s _ _ h => ih r s h) s h).imp fun _ _ => (r.kept_phrase hm s ·)

/-- So is every phrase. -/
theorem result_alike_elsewhere (hm : (m.correspondence m').Steady) {α : Type} [Located α]
    {f : Phrase α} {s : Spacing} (hf : Kept m m' s f) (h : (m.correspondence m').Elsewhere c c') :
    Outcome.Alike (fun v v' => relocated m v = relocated m' v') (m.correspondence m').Elsewhere
      (f.result (follow fuel) s c) (f.result (follow fuel') s c') :=
  (f.alike_elsewhere hm (advancing_follow fuel) (advancing_follow fuel')
    (fun r s _ _ h => alike_elsewhere_follow hm r s h) s h).imp fun _ _ hv => hf hv

/-- Without places all places agree. -/
theorem Relocation.steady_toStart : (toStart.correspondence toStart).Steady :=
  ⟨fun _ _ => rfl, fun _ => rfl⟩

end ScriptTrace.Syntax
