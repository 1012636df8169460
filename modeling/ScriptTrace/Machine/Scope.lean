import ScriptTrace.Machine.Value
import ScriptTrace.Syntax.Tree

/-!
# Machine/Scope — names and what they are bound to

Scopes are numbered in the order in which they are made; the parent of a scope is older than the
scope, and scope `0` is the global one.  `chain` lists a scope with all around it, innermost first.
-/

namespace ScriptTrace

/-- What opens a scope. -/
inductive ScopeKind where
  | global
  | function (name : String)
  | block | catch | loop
  deriving DecidableEq, Repr

/-- The word for a kind of scope in the trace. -/
def ScopeKind.label : ScopeKind → String
  | .global => "global"
  | .function _ => "function"
  | .block => "block"
  | .catch => "catch"
  | .loop => "loop"

/-- The name under which a scope is shown. -/
def ScopeKind.title : ScopeKind → String
  | .global => "Global"
  | .function name => if name.isEmpty then "(anonymous)" else name
  | .block => "Block"
  | .catch => "Catch"
  | .loop => "Loop"

/-- Scopes that are not shown while they bind nothing. -/
def ScopeKind.isHiddenEmpty : ScopeKind → Bool
  | .block | .catch | .loop => true
  | _ => false

/-- How a name was declared. -/
inductive BindingKind where
  | var | lexical | const | function
  deriving DecidableEq, Repr, Inhabited

/-- The word for a kind of binding in the trace. -/
def BindingKind.word : BindingKind → String
  | .var => "var"
  | .lexical => "let"
  | .const => "const"
  | .function => "function"

/-- A value under a name. -/
structure Binding where
  value : Value
  kind : BindingKind
  deriving Inhabited

/-- The names of one scope, and where to go on looking. -/
structure Scope where
  parent : Option ScopeId
  kind : ScopeKind
  /-- The bindings in the order in which they were made. -/
  bindings : List (String × Binding)
  /-- The value of `this`, unless that of the parent counts. -/
  receiver : Option Value

instance : Inhabited Scope := ⟨⟨none, .global, [], none⟩⟩

/-- Puts a binding in the place of the one of its name, or behind all others. -/
def putBinding (name : String) (b : Binding) : List (String × Binding) → List (String × Binding)
  | [] => [(name, b)]
  | e :: es => if e.1 = name then (name, b) :: es else e :: putBinding name b es

namespace Scope

/-- The binding of a name in the scope itself. -/
def find? (s : Scope) (name : String) : Option Binding :=
  (s.bindings.find? (·.1 = name)).map Prod.snd

/-- The scope with a binding put in or replaced. -/
def put (s : Scope) (name : String) (b : Binding) : Scope :=
  { s with bindings := putBinding name b s.bindings }

end Scope

/-- All scopes made so far. -/
abbrev Scopes := Array Scope

namespace Scopes

/-- The global scope. -/
def globalId : ScopeId := 0

/-- The global scope alone. -/
def initial : Scopes := #[⟨none, .global, [], none⟩]

/-- At most `fuel` scopes from one outward. -/
def chainWithin (scopes : Scopes) : Nat → ScopeId → List ScopeId
  | 0, _ => []
  | fuel + 1, id =>
    match scopes[id]? with
    | none => []
    | some s =>
      id :: match s.parent with
        | none => []
        | some p => chainWithin scopes fuel p

/-- **A scope and all around it**, innermost first.  Parents are older, so there are at most
`id + 1` of them. -/
def chain (scopes : Scopes) (id : ScopeId) : List ScopeId := chainWithin scopes (id + 1) id

/-- The binding of a name in one scope. -/
def bindingIn? (scopes : Scopes) (name : String) (id : ScopeId) : Option Binding :=
  scopes[id]?.bind (·.find? name)

/-- The scope next around `id` that binds a name. -/
def binder? (scopes : Scopes) (id : ScopeId) (name : String) : Option ScopeId :=
  (chain scopes id).find? fun s => (bindingIn? scopes name s).isSome

/-- The binding that a name has in a scope. -/
def lookup? (scopes : Scopes) (id : ScopeId) (name : String) : Option Binding :=
  (chain scopes id).findSome? (bindingIn? scopes name)

/-- The value of `this` in a scope: that of the next scope around it that has one. -/
def receiver (scopes : Scopes) (id : ScopeId) : Value :=
  ((chain scopes id).findSome? fun s => scopes[s]?.bind (·.receiver)).getD .globalThis

end Scopes

end ScriptTrace
