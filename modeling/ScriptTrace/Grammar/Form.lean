import ScriptTrace.Grammar.Cursor

/-!
# Grammar/Form — what a piece of text may look like

A form describes the texts of one kind and the value each of them yields.  Forms are read from left
to right, alternatives in order: the first that matches is taken, and repetition takes as much as it
can.  `Form.read` follows a form, `readRule` ties the recursion of a whole grammar.

A failed attempt reports how far a *named* form was tried, which is where a syntax error points to.
-/

namespace ScriptTrace.Grammar

/-- What may stand between the parts of a form. -/
inductive Spacing where
  /-- Space and comments, which are skipped. -/
  | free
  /-- Nothing. -/
  | tight
  /-- Nothing, and named forms inside are not reported. -/
  | quiet
  deriving DecidableEq, Repr

/-- What came of an attempt. -/
inductive Outcome (α : Type) where
  | matched (value : α) (next : Cursor)
  | failed
  /-- The grammar was followed too deep to tell. -/
  | exhausted

/-- An attempt to read a form, with the furthest place at which a named form failed. -/
structure Attempt (α : Type) where
  outcome : Outcome α
  reached : Nat

namespace Attempt

variable {α β : Type}

/-- An attempt that ends behind the place `next` and has asked for no place further on. -/
def success (value : α) (next : Cursor) : Attempt α := ⟨.matched value next, 0⟩

/-- An attempt that fails where it began. -/
def failure : Attempt α := ⟨.failed, 0⟩

/-- Goes on behind a match. -/
def andThen (a : Attempt α) (f : α → Cursor → Attempt β) : Attempt β :=
  match a.outcome with
  | .matched v c => let b := f v c; ⟨b.outcome, max a.reached b.reached⟩
  | .failed => ⟨.failed, a.reached⟩
  | .exhausted => ⟨.exhausted, a.reached⟩

/-- Tries something else after a failure. -/
def orElse (a : Attempt α) (f : Unit → Attempt α) : Attempt α :=
  match a.outcome with
  | .failed => let b := f (); ⟨b.outcome, max a.reached b.reached⟩
  | _ => a

/-- An attempt whose value is put to use. -/
def map (f : α → β) (a : Attempt α) : Attempt β := a.andThen fun v c => success (f v) c

/-- Notes a failure at the place `offset`. -/
def noteFailure (a : Attempt α) (offset : Nat) : Attempt α :=
  match a.outcome with
  | .failed => ⟨.failed, max a.reached offset⟩
  | _ => a

end Attempt

/-- The forms of a grammar with the given rules, by the value they yield. -/
inductive Form (Rule : Type → Type) : Type → Type 1 where
  /-- One character of a class. -/
  | one (p : Char → Bool) : Form Rule Char
  /-- Exactly this text. -/
  | word (w : List Char) : Form Rule Unit
  /-- The end of the text. -/
  | finish : Form Rule Unit
  /-- A rule of the grammar. -/
  | rule {α : Type} (r : Rule α) : Form Rule α
  /-- One form behind the other. -/
  | both {α β : Type} (a : Form Rule α) (b : Form Rule β) : Form Rule (α × β)
  /-- The first form, or else the second. -/
  | either {α : Type} (a b : Form Rule α) : Form Rule α
  /-- As many as there are. -/
  | many {α : Type} (a : Form Rule α) : Form Rule (List α)
  /-- One or none. -/
  | perhaps {α : Type} (a : Form Rule α) : Form Rule (Option α)
  /-- Nothing, provided that the form does not match here. -/
  | unless {α : Type} (a : Form Rule α) : Form Rule Unit
  /-- The form, with another value. -/
  | map {α β : Type} (f : α → β) (a : Form Rule α) : Form Rule β
  /-- The form, with the place where it starts and the text it matched. -/
  | spanned {α : Type} (a : Form Rule α) : Form Rule (Cursor × List Char × α)
  /-- The form, reported by its failure. -/
  | named {α : Type} (a : Form Rule α) : Form Rule α
  /-- The form with another spacing inside. -/
  | spaced {α : Type} (s : Spacing) (a : Form Rule α) : Form Rule α

/-- The cursor in front of the next part of a form. -/
def Spacing.skip (s : Spacing) (c : Cursor) : Cursor :=
  match s with
  | .free => c.skipBlanks
  | _ => c

/-- The cursor behind the given text, if it stands here. -/
def Cursor.after? (c : Cursor) (w : List Char) : Option Cursor :=
  if w.isPrefixOf c.rest then some (c.advance w.length) else none

/-- Matches of `read` one behind the other, as many as there are.  A match must leave less text
behind than there was, or it is the last one. -/
def readMany {α : Type} (read : Cursor → Attempt α) : Nat → Cursor → Attempt (List α)
  | 0, c => .success [] c
  | fuel + 1, c =>
    let a := read c
    match a.outcome with
    | .matched v next =>
      let more := readMany read fuel next
      match more.outcome with
      | .matched vs last => ⟨.matched (v :: vs) last, max a.reached more.reached⟩
      | _ => ⟨.exhausted, max a.reached more.reached⟩
    | .failed => ⟨.matched [] c, a.reached⟩
    | .exhausted => ⟨.exhausted, a.reached⟩

namespace Form

variable {Rule : Type → Type} {α β : Type}

/-- Reads a form at a cursor; `call` reads the rules. -/
def read (call : {α : Type} → Rule α → Spacing → Cursor → Attempt α) :
    {α : Type} → Form Rule α → Spacing → Cursor → Attempt α
  | _, .one p, _, c =>
    match c.rest with
    | [] => .failure
    | x :: _ => if p x then .success x c.step else .failure
  | _, .word w, _, c =>
    match c.after? w with
    | some next => .success () next
    | none => .failure
  | _, .finish, _, c => if c.rest.isEmpty then .success () c else .failure
  | _, .rule r, s, c => call r s c
  | _, .both a b, s, c =>
    (a.read call s c).andThen fun v next =>
      (b.read call s (s.skip next)).map fun w => (v, w)
  | _, .either a b, s, c => (a.read call s c).orElse fun _ => b.read call s c
  | _, .many a, s, c =>
    ((a.read call s c).andThen fun v next =>
      (readMany (fun here => a.read call s (s.skip here)) (next.rest.length + 1) next).map
        (v :: ·)).orElse fun _ => .success [] c
  | _, .perhaps a, s, c =>
    ((a.read call s c).map some).orElse fun _ => .success none c
  | _, .unless a, _, c =>
    match (a.read call .quiet c).outcome with
    | .matched _ _ => .failure
    | .failed => .success () c
    | .exhausted => ⟨.exhausted, 0⟩
  | _, .map f a, s, c => (a.read call s c).map f
  | _, .spanned a, s, c =>
    (a.read call s c).andThen fun v next => .success (c, c.textTo next, v) next
  | _, .named a, s, c =>
    match s with
    | .quiet => a.read call s c
    | _ => (a.read call s c).noteFailure c.offset
  | _, .spaced s a, _, c => a.read call s c

/-! ## Forms built from others -/

instance : Functor (Form Rule) := ⟨fun f a => .map f a, fun v a => .map (fun _ => v) a⟩

instance : SeqLeft (Form Rule) := ⟨fun a b => .map Prod.fst (.both a (b ()))⟩

instance : SeqRight (Form Rule) := ⟨fun a b => .map Prod.snd (.both a (b ()))⟩

instance : OrElse (Form Rule α) := ⟨fun a b => .either a (b ())⟩

/-- Two forms, with their values combined. -/
def combine {γ : Type} (f : α → β → γ) (a : Form Rule α) (b : Form Rule β) : Form Rule γ :=
  .map (fun p => f p.1 p.2) (.both a b)

/-- Exactly this text. -/
def token (w : String) : Form Rule Unit := .word w.toList

/-- The first of several texts that stands here. -/
def oneOf : List String → Form Rule Unit
  | [] => .map (fun _ => ()) (.one fun _ => false)
  | [w] => token w
  | w :: ws => .either (token w) (oneOf ws)

/-- At least one. -/
def atLeastOne (a : Form Rule α) : Form Rule (List α) := combine List.cons a (.many a)

/-- The matched text instead of the value. -/
def text (a : Form Rule α) : Form Rule (List Char) := .map (fun v => v.2.1) (.spanned a)

/-- The place where the form starts, with its value. -/
def placed (a : Form Rule α) : Form Rule (Position × α) :=
    .map (fun v => (v.1.position, v.2.2)) (.spanned a)

/-- A named form without space inside, whose parts are not reported. -/
def atom (a : Form Rule α) : Form Rule α := .named (.spaced .quiet a)

/-- One or more, with commas between. -/
def commaSeparated (a : Form Rule α) : Form Rule (List α) :=
  combine List.cons a (.many (token "," *> a))

end Form

/-- **Reads a rule** of the grammar whose definitions are `form`, at most `fuel` rules inside one
another. -/
def readRule {Rule : Type → Type} (form : {α : Type} → Rule α → Form Rule α) :
    Nat → {α : Type} → Rule α → Spacing → Cursor → Attempt α
  | 0, _, _, _, _ => ⟨.exhausted, 0⟩
  | fuel + 1, _, r, s, c => (form r).read (fun r s c => readRule form fuel r s c) s c

end ScriptTrace.Grammar
