import ModelicaFold.Eval.Evaluate
import ModelicaFold.Proofs.Runs.Alignment
import ModelicaFold.Proofs.Runs.Rules
import ModelicaFold.Proofs.Folding.Literals
import ModelicaFold.Proofs.Shape.Builtins
import ModelicaFold.Proofs.Shape.Invariant
import ModelicaFold.Proofs.Memory.Agreement
import ModelicaFold.Proofs.Memory.Transparency
import ModelicaFold.Proofs.Reductions.Collecting
import ModelicaFold.Proofs.Scopes.Lexical
import ModelicaFold.Proofs.Reporting.Once
import ModelicaFold.Proofs.Typing.Safety
import ModelicaFold.Proofs.Reporting.Indifference
import ModelicaFold.Proofs.Memory.Aliasing
import ModelicaFold.Proofs.Runs.Views
import ModelicaFold.Proofs.Modes.Concealment
import ModelicaFold.Proofs.Modes.Mixing
import ModelicaFold.Proofs.Scopes.Occurrences
import ModelicaFold.Proofs.Memory.Growth
import ModelicaFold.Proofs.Quoting.Substitution
import ModelicaFold.Proofs.Deferral.Soundness
import ModelicaFold.Proofs.Effort.Visits
import ModelicaFold.Proofs.Modes.Permissive
import ModelicaFold.Proofs.Depth.Nesting
import ModelicaFold.Proofs.Bounds.Guarded
import ModelicaFold.Proofs.Ranges.Progression
import ModelicaFold.Proofs.Reporting.Queue
import ModelicaFold.Proofs.Shape.Selection
import ModelicaFold.Proofs.Products.Matrices
import ModelicaFold.Proofs.Products.Powers
import ModelicaFold.Proofs.Shape.Broadcast
import ModelicaFold.Proofs.Shape.Constructor
import ModelicaFold.Proofs.Reductions.Combining
import ModelicaFold.Proofs.Shape.Leafwise
import ModelicaFold.Proofs.Reductions.NamedFolds
import ModelicaFold.Proofs.Scopes.Iterators
import ModelicaFold.Proofs.Integers.Operations
import ModelicaFold.Proofs.Integers.Quotients
import ModelicaFold.Proofs.Integers.Scanning
import ModelicaFold.Proofs.Order.Extremes
import ModelicaFold.Proofs.Division.Evaluation
import ModelicaFold.Proofs.Reporting.Order
import ModelicaFold.Proofs.Logic.Negation
import ModelicaFold.Proofs.Shape.Projection
import ModelicaFold.Proofs.Strings.Indexing
import ModelicaFold.Proofs.Products.Transposition
import ModelicaFold.Proofs.Shape.Conversion
import ModelicaFold.Proofs.Quoting.Grouping
import ModelicaFold.Proofs.Quoting.Dotted
import ModelicaFold.Proofs.Shape.Nesting
import ModelicaFold.Proofs.Shape.Traversal
import ModelicaFold.Proofs.Runs.Ordered
