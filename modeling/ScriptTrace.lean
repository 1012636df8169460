import ScriptTrace.Main
import ScriptTrace.Proofs.Accounting
import ScriptTrace.Proofs.ArrayCeiling
import ScriptTrace.Proofs.Ceiling
import ScriptTrace.Proofs.Closed
import ScriptTrace.Proofs.Console
import ScriptTrace.Proofs.EventLoop.Ending
import ScriptTrace.Proofs.EventLoop.Flat
import ScriptTrace.Proofs.EventLoop.Resolvers
import ScriptTrace.Proofs.EventLoop.Timers
import ScriptTrace.Proofs.Finalizer
import ScriptTrace.Proofs.Frozen
import ScriptTrace.Proofs.Growth
import ScriptTrace.Proofs.HostMethod
import ScriptTrace.Proofs.Json.Tree
import ScriptTrace.Proofs.Jump
import ScriptTrace.Proofs.Observer
import ScriptTrace.Proofs.Room
import ScriptTrace.Proofs.Scope.Hoisting
import ScriptTrace.Proofs.Scope.Iteration
import ScriptTrace.Proofs.Sorting.Comparator
import ScriptTrace.Proofs.StepLimit
import ScriptTrace.Proofs.Termination.Endless
import ScriptTrace.Proofs.Grammar.Cursor
import ScriptTrace.Proofs.Grammar.Reading
import ScriptTrace.Proofs.Syntax.Layout
import ScriptTrace.Proofs.Syntax.Sound
import ScriptTrace.Proofs.Syntax.Program
import ScriptTrace.Proofs.Defence.Evaluation
import ScriptTrace.Proofs.Syntax.Blank
import ScriptTrace.Proofs.Syntax.RoundTrip
import ScriptTrace.Proofs.Scope.Assignment
import ScriptTrace.Proofs.OptionalChain
import ScriptTrace.Proofs.Scope.SelfName
import ScriptTrace.Proofs.Syntax.Building
import ScriptTrace.Proofs.Grammar.Elsewhere
import ScriptTrace.Proofs.Syntax.Portable
import ScriptTrace.Proofs.Syntax.Method
import ScriptTrace.Proofs.Syntax.Key
import ScriptTrace.Proofs.Syntax.Precedence
import ScriptTrace.Proofs.Shorthand
import ScriptTrace.Proofs.Grammar.Abreast
import ScriptTrace.Proofs.Syntax.Abreast
import ScriptTrace.Proofs.Syntax.Destructuring
import ScriptTrace.Proofs.Syntax.Comment
import ScriptTrace.Proofs.Countdown
import ScriptTrace.Proofs.Traversal.ArrayText
import ScriptTrace.Proofs.Traversal.Document
import ScriptTrace.Proofs.Traversal.Flattening
import ScriptTrace.Proofs.Text.Splitting
import ScriptTrace.Proofs.Text.Replacing
import ScriptTrace.Proofs.Number.Whole
import ScriptTrace.Proofs.Number.Quotient
import ScriptTrace.Proofs.Number.Base
import ScriptTrace.Proofs.Number.Numeral
import ScriptTrace.Proofs.Number.Beginning
import ScriptTrace.Proofs.Syntax.Numeral
import ScriptTrace.Proofs.Number.Literal
import ScriptTrace.Proofs.Elements
import ScriptTrace.Proofs.Equality
import ScriptTrace.Proofs.Syntax.Literal
import ScriptTrace.Proofs.Syntax.Quotation
import ScriptTrace.Proofs.Properties.Order
import ScriptTrace.Proofs.Json.Number
import ScriptTrace.Proofs.Json.Shape
import ScriptTrace.Proofs.Json.Properties
import ScriptTrace.Proofs.Properties.Copies
import ScriptTrace.Proofs.Random
