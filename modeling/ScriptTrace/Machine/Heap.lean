import ScriptTrace.Machine.Props
import ScriptTrace.Syntax.Tree

/-!
# Machine/Heap — objects

An object is a body with a few marks.  Objects are numbered in the order in which they are made and
are never removed.
-/

namespace ScriptTrace

/-- A function of the program with the scope in which it was made. -/
structure Closure where
  name : String
  definition : Syntax.Function
  scope : ScopeId

/-- What is known of the outcome of a promise. -/
inductive PromiseState where
  | pending
  | fulfilled (value : Value)
  | rejected (reason : Value)
  deriving Inhabited

/-- Whether a promise still waits for its outcome. -/
def PromiseState.isPending : PromiseState → Bool
  | .pending => true
  | _ => false

/-- What a reaction does with the outcome it waits for. -/
inductive ReactionKind where
  | then | catch | finally
  /-- Hands the outcome of one promise on to another. -/
  | adopt
  deriving DecidableEq, Repr

/-- The name of the method that registers such a reaction. -/
def ReactionKind.name : ReactionKind → String
  | .then => "then"
  | .catch => "catch"
  | .finally => "finally"
  | .adopt => "resolve"

/-- What happens once a promise is settled. -/
structure Reaction where
  kind : ReactionKind
  onFulfilled : Option Value
  onRejected : Option Value
  /-- The promise that the reaction settles. -/
  derived : ObjectId
  line : Nat

/-- A promise: its outcome, and who waits for it. -/
structure PromiseRecord where
  state : PromiseState
  /-- Reactions that wait for the outcome. -/
  reactions : List Reaction

/-- The kinds of objects with what they hold. -/
inductive Body where
  | plain (props : Props)
  | array (items : Array Value)
  | closure (c : Closure)
  /-- A function with its first arguments and its `this` fixed. -/
  | bound (target this : Value) (args : List Value)
  /-- A method of the host taken from its receiver. -/
  | method (receiver : Value) (name : String)
  | promise (record : PromiseRecord)
  /-- A function that settles a promise. -/
  | resolver (promise : ObjectId) (rejects : Bool)

instance : Inhabited Body := ⟨.plain .empty⟩

/-- The word for the kind of an object. -/
def Body.kindName : Body → String
  | .plain _ => "object"
  | .array _ => "array"
  | .closure _ | .bound .. | .method .. | .resolver .. => "function"
  | .promise _ => "promise"

/-- Plain objects and arrays are data; only they are shown by themselves. -/
def Body.isData : Body → Bool
  | .plain _ | .array _ => true
  | _ => false

/-- Whether an object of these contents can be called. -/
def Body.isCallable : Body → Bool
  | .closure _ | .bound .. | .method .. | .resolver .. => true
  | _ => false

/-- An object: its contents, and what the trace tells of it. -/
structure HeapObject where
  body : Body
  /-- The first name that the object was bound to. -/
  label : Option String
  /-- The constructor that made the object. -/
  className : Option String
  frozen : Bool
  deriving Inhabited

/-- What can happen to the contents of an object. -/
inductive Change where
  | items (items : Array Value)
  | props (props : Props)
  | record (record : PromiseRecord)
  | freeze

/-- **An object after a change**: contents give way to contents of their own kind only.  Whether the
object is frozen is for those to ask who change it. -/
def HeapObject.changed (o : HeapObject) (c : Change) : HeapObject :=
  match c, o.body with
  | .items items, .array _ => { o with body := .array items }
  | .props props, .plain _ => { o with body := .plain props }
  | .record record, .promise _ => { o with body := .promise record }
  | .freeze, _ => { o with frozen := true }
  | _, _ => o

/-- All objects made so far. -/
structure Heap where
  objects : Array HeapObject
  deriving Inhabited

namespace Heap

/-- A heap without objects. -/
def empty : Heap := ⟨#[]⟩

/-- The number of objects, which is the next free place. -/
def size (h : Heap) : Nat := h.objects.size

/-- The object at a place. -/
def get? (h : Heap) (id : ObjectId) : Option HeapObject := h.objects[id]?

/-- The body of an object. -/
def body? (h : Heap) (id : ObjectId) : Option Body := (h.get? id).map HeapObject.body

/-- Makes an object. -/
def add (h : Heap) (body : Body) (className : Option String) : Heap :=
  ⟨h.objects.push ⟨body, none, className, false⟩⟩

/-- Changes an object. -/
def modify (h : Heap) (id : ObjectId) (f : HeapObject → HeapObject) : Heap :=
  ⟨h.objects.modify id f⟩

/-- The label of an object after it was bound to a name: data keep their first one. -/
def labeled (name : String) (o : HeapObject) : HeapObject :=
  if o.label.isNone && o.body.isData then { o with label := some name } else o

/-- Labels the object that a value names. -/
def label (h : Heap) (v : Value) (name : String) : Heap :=
  match v with
  | .object id => h.modify id (labeled name)
  | _ => h

/-- The elements of an array. -/
def items? (h : Heap) (v : Value) : Option (Array Value) :=
  match v with
  | .object id =>
    match h.body? id with
    | some (.array items) => some items
    | _ => none
  | _ => none

/-- Whether a value can be called. -/
def isCallable (h : Heap) (v : Value) : Bool :=
  match v with
  | .function _ => true
  | .host o => o.isCallable
  | .object id => (h.body? id).any Body.isCallable
  | _ => false

/-- Whether the object at a place is a promise. -/
def isPromise (h : Heap) (id : ObjectId) : Bool :=
  match h.body? id with
  | some (.promise _) => true
  | _ => false

/-- The own properties of a value that a program can list, with their keys. -/
def ownEntries (h : Heap) (v : Value) : List (String × Value) :=
  match v with
  | .object id =>
    match h.body? id with
    | some (.plain props) => props.entries
    | some (.array items) => items.toList.zipIdx.map fun (v, i) => (toString i, v)
    | _ => []
  | .string s => s.toList.zipIdx.map fun (c, i) => (toString i, .chars [c])
  | _ => []

end Heap

end ScriptTrace
