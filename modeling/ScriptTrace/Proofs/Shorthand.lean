import ScriptTrace.Evaluation.Run
import ScriptTrace.Proofs.Json.Tree
import ScriptTrace.Proofs.Syntax.Method

/-!
# Proofs/Shorthand — a method keeps its key

The object literals `{ K(P) { B } }` and `{ K: function (P) { B } }` mean the same: an object with
one property, whose value is a closure with the name of the key (`method_keeps_key`).  This is so
for keys that are known from the text; a method with a computed key stands under the empty one.
-/

namespace ScriptTrace

open Grammar (Cursor Position)
open Grammar.Form
open Syntax
open Syntax.Places

section

variable {fuel : Nat} {c c' k n q last : Cursor} {x : String} {tail : FunctionTail}

/-! ## Functions -/

/-- Two functions with the same parameters and the same body, up to places. -/
def SameFunction (f f' : Syntax.Function) : Prop :=
  unplaced f'.parameters = unplaced f.parameters ∧ unplaced f'.rest = unplaced f.rest ∧
    unplaced f'.body = unplaced f.body ∧ f'.isArrow = f.isArrow

/-- Functions of the same tail are the same but for name and place. -/
theorem sameFunction_of_unplaced {tail' : FunctionTail} (h : unplaced tail' = unplaced tail)
    (y y' : Option String) (p p' : Position) :
    SameFunction (tail.function y p) (tail'.function y' p') := by
  obtain ⟨helements, hrest, hbody⟩ := FunctionTail.mk.inj h
  refine ⟨helements, hrest, ?_, rfl⟩
  change FunctionBody.block (stmtsUnplaced _) = .block (stmtsUnplaced _)
  rw [stmtsUnplaced_eq, stmtsUnplaced_eq]
  exact congrArg FunctionBody.block hbody

/-! ## Objects -/

/-- An object with one property, which is a closure over a scope with the name of its key. -/
def Heap.HoldsFunction (h : Heap) (v : Value) (x : String) (f : Syntax.Function) (σ : ScopeId) :
    Prop :=
  ∃ id id' props, v = .object id ∧ h.body? id = some (.plain props) ∧
    props.entries = [(x, .object id')] ∧ h.body? id' = some (.closure ⟨x, f, σ⟩)

/-- **A function under a key is evaluated** to a closure with the name of the key, where its own
name is this or none. -/
theorem holdsFunction_expr {f : Syntax.Function} (hf : f.name = none ∨ f.name = some x)
    (σ : ScopeId) (m : Machine) (p p' : Position) (depth : Nat) :
    ∃ m', (Evaluator.bounded (depth + 2)).expr σ
        (.mk (.object [.keyed (.static x) (.mk (.function f) p)]) p') m =
          .ok (.object (m.heap.size + 1)) m' ∧
      m'.heap.HoldsFunction (.object (m.heap.size + 1)) x f σ := by
  let h := m.heap.add (.closure ⟨x, f, σ⟩) none
  let props := Props.ofList [(x, .object m.heap.size)]
  have hsize : h.size = m.heap.size + 1 := Array.size_push _
  rw [← hsize]
  refine ⟨{ m with heap := h.add (.plain props) none }, ?_, h.size, m.heap.size, props, rfl, ?_,
    Props.entries_ofList (List.pairwise_singleton _ _), ?_⟩
  · obtain ⟨name, parameters, rest, body, isArrow, place⟩ := f
    rcases hf with rfl | rfl <;> rfl
  · rw [Heap.body?_add, if_pos rfl]
  · rw [Heap.body?_add, if_neg (hsize ▸ Nat.ne_of_lt (Nat.lt_succ_self _)), Heap.body?_add,
      if_pos rfl]

/-! ## Both spellings -/

/-- **A method keeps its key.**  Where an object literal with one method is read, and its key is
known from the text, the literal with the same function behind the same key and a colon is read up
to the same text, and both properties have this key.  Evaluated in any state, both are objects with
the key as their only name; under it is a closure over the same scope, with the same parameters and
the same body. -/
theorem method_keeps_key (hroom : rulesPerPlace * c'.rest.length ≤ fuel)
    (hopen : c.Over ['\x7b'] k)
    (hkey : Phrase.key.result (follow fuel) .free k.skipBlanks = .matched (.ok (.static x)) n)
    (htail : Phrase.functionTail.result (follow fuel) .free n.skipBlanks = .matched (.ok tail) q)
    (hclose : q.skipBlanks.Over ['\x7d'] last)
    (htext : FunctionUnder (k.skipBlanks.textTo n) n.skipBlanks.rest c') :
    ∃ f f' p p' last',
      Phrase.objectLiteral.result (follow fuel) .free c =
        .matched (.ok (.object [.keyed (.static x) (.mk (.function f) p)])) last ∧
      Phrase.objectLiteral.result (follow fuel) .free c' =
        .matched (.ok (.object [.keyed (.static x) (.mk (.function f') p')])) last' ∧
      last'.rest = last.rest ∧ SameFunction f f' ∧
      ∀ (depth : Nat) (σ : ScopeId) (m : Machine) (r r' : Position), ∃ v m₁ m₁',
        (Evaluator.bounded (depth + 2)).expr σ
          (.mk (.object [.keyed (.static x) (.mk (.function f) p)]) r) m = .ok v m₁ ∧
        (Evaluator.bounded (depth + 2)).expr σ
          (.mk (.object [.keyed (.static x) (.mk (.function f') p')]) r') m = .ok v m₁' ∧
        m₁.heap.HoldsFunction v x f σ ∧ m₁'.heap.HoldsFunction v x f' σ := by
  obtain ⟨tail', p, p', last', hmethod, hfunction, hlast, hsame⟩ :=
    method_elsewhere hroom hopen hkey htail hclose htext
  refine ⟨_, _, p, p', last', hmethod, hfunction, hlast, sameFunction_of_unplaced hsame _ _ _ _,
    fun depth σ m r r' => ?_⟩
  obtain ⟨m₁, hvalue, hholds⟩ :=
    holdsFunction_expr (f := tail.function (some x) p) (.inr rfl) σ m p r depth
  obtain ⟨m₁', hvalue', hholds'⟩ :=
    holdsFunction_expr (f := tail'.function none p') (.inl rfl) σ m p' r' depth
  exact ⟨_, m₁, m₁', hvalue, hvalue', hholds, hholds'⟩

end

/-- The parameters and the body of a function. -/
def doublingTail : List Char := "(x, y = x)\x7breturn [x, y]\x7d\x7d".toList

/-- The text `{a(x, y = x){return [x, y]}}`. -/
def doublingMethod : Cursor := .ofText ('\x7b' :: 'a' :: doublingTail)

/-- The text `{a: function(x, y = x){return [x, y]}}`. -/
def doublingFunction : Cursor :=
  .ofText ('\x7b' :: 'a' :: ':' :: ' ' :: ("function".toList ++ doublingTail))

set_option maxRecDepth 100000 in
/-- The key of a method with parameters and a body is its name. -/
theorem doublingMethod_keeps_key :
    ∃ node node' last last',
      Phrase.objectLiteral.result (follow 400) .free doublingMethod = .matched (.ok node) last ∧
      Phrase.objectLiteral.result (follow 400) .free doublingFunction = .matched (.ok node') last' ∧
      ∃ f f' v m m', SameFunction f f' ∧
        (Evaluator.bounded 5).expr Scopes.globalId (.mk node .start) (.initial .default) = .ok v m ∧
        (Evaluator.bounded 5).expr Scopes.globalId (.mk node' .start) (.initial .default) =
          .ok v m' ∧
        m.heap.HoldsFunction v "a" f Scopes.globalId ∧
        m'.heap.HoldsFunction v "a" f' Scopes.globalId := by
  have hopen : doublingMethod.Over ['\x7b'] (doublingMethod.advance 1) := .of_append rfl
  have hkey : Phrase.key.result (follow 400) .free (doublingMethod.advance 1).skipBlanks =
      .matched (.ok (.static "a")) (doublingMethod.advance 2) := by rfl
  obtain ⟨tail, htail⟩ : ∃ tail,
      Phrase.functionTail.result (follow 400) .free (doublingMethod.advance 2).skipBlanks =
        .matched (.ok tail) (doublingMethod.advance 27) := ⟨_, rfl⟩
  have hclose : (doublingMethod.advance 27).skipBlanks.Over ['\x7d'] (doublingMethod.advance 28) :=
    .of_append rfl
  have htext : FunctionUnder ['a'] doublingTail doublingFunction :=
    ⟨_, _, _, _, .of_append rfl, .of_append rfl, .of_append rfl, .of_append rfl, rfl⟩
  obtain ⟨f, f', p, p', last', hread, hread', -, hsame, hvalue⟩ :=
    method_keeps_key (by decide) hopen hkey htail hclose htext
  obtain ⟨v, m, m', hv, hv', hm, hm'⟩ := hvalue 3 Scopes.globalId (.initial .default) .start .start
  exact ⟨_, _, _, _, hread, hread', f, f', v, m, m', hsame, hv, hv', hm, hm'⟩

/-- A program that shows the name of a method with a computed key. -/
def computedMethodUse : String := "console.log(Object.keys(\x7b [\"a\"]() \x7b\x7d \x7d).join())"

/-- The same program with a function behind the key. -/
def computedFunctionUse : String :=
  "console.log(Object.keys(\x7b [\"a\"]: function () \x7b\x7d \x7d).join())"

/-- **A method does not keep a computed key.** -/
theorem computedMethodUse_loses_key :
    ((run .default computedFunctionUse).consoleTexts, (run .default computedFunctionUse).error) =
      (["a"], none) ∧
    ((run .default computedMethodUse).consoleTexts, (run .default computedMethodUse).error) =
      ([""], none) := ⟨by decide +kernel, by decide +kernel⟩

end ScriptTrace
