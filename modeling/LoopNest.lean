/-
# Loop nests

A library for scheduling loop nests: symbolic index expressions, what can be
proved about them from ranges and constraints, stages whose loops are split,
fused, rebased and bound to threads, and the lowering of a stage to ranges,
indices and guards.
-/

import LoopNest.Expr.Eval
import LoopNest.Flow.Accesses
import LoopNest.Flow.Flags
import LoopNest.Lowering
import LoopNest.Stage.Edit
import LoopNest.Stage.Schedule
import LoopNest.Proofs.Outcome
import LoopNest.Proofs.Expr.Eval
import LoopNest.Proofs.Expr.Formed
import LoopNest.Proofs.Expr.Fold
import LoopNest.Proofs.Bound.Endpoint
import LoopNest.Proofs.Bound.Operator
import LoopNest.Proofs.Expr.Exact
import LoopNest.Proofs.Facts.Bounds
import LoopNest.Proofs.Expr.Linear
import LoopNest.Proofs.Expr.Rebuild
import LoopNest.Proofs.Expr.Split
import LoopNest.Proofs.Facts.Typed
import LoopNest.Proofs.Facts.Sizes
import LoopNest.Proofs.Facts.Stable
import LoopNest.Proofs.Facts.Division
import LoopNest.Proofs.Facts.Simplify
import LoopNest.Proofs.Facts.Prove
import LoopNest.Proofs.Stage.Linked
import LoopNest.Proofs.Stage.Nested
import LoopNest.Proofs.Stage.IterMap
import LoopNest.Proofs.Flow.Passes
import LoopNest.Proofs.Flow.Points
import LoopNest.Proofs.Stage.Scheduled
import LoopNest.Proofs.Facts.Literal
import LoopNest.Proofs.Flow.Ranges
import LoopNest.Proofs.Expr.Index
import LoopNest.Proofs.Flow.Indices
import LoopNest.Proofs.Facts.Values
import LoopNest.Proofs.Guard.Predicates
import LoopNest.Proofs.Guard.Points
import LoopNest.Proofs.Guard.Decidable
import LoopNest.Proofs.Guard.Exact
import LoopNest.Proofs.Facts.Inert
import LoopNest.Proofs.Lowering.Leaves
import LoopNest.Proofs.Lowering.Threads
import LoopNest.Proofs.Stage.Operations
import LoopNest.Proofs.Stage.Validate
import LoopNest.Proofs.Stage.Commands
import LoopNest.Proofs.Stage.Bindings
import LoopNest.Proofs.Stage.WellFormed
import LoopNest.Proofs.Flow.Inference
import LoopNest.Proofs.Flow.Extents
import LoopNest.Proofs.Flow.Reconstruct
import LoopNest.Proofs.Flow.Evaluated
import LoopNest.Proofs.Flow.RoundTrip
import LoopNest.Proofs.Facts.Mentions
import LoopNest.Proofs.Lowering.Downward
import LoopNest.Proofs.Stage.Derived
import LoopNest.Proofs.Guard.Total
import LoopNest.Proofs.Lowering.Total
import LoopNest.Proofs.Facts.Mixed
import LoopNest.Proofs.Stage.Ancestry
import LoopNest.Proofs.Flow.Flags
import LoopNest.Proofs.Flow.Dominance
import LoopNest.Proofs.Flow.Padding
import LoopNest.Proofs.Facts.Membership
import LoopNest.Proofs.Facts.Conversions
import LoopNest.Proofs.Facts.Followed
import LoopNest.Proofs.Expr.Widened
import LoopNest.Proofs.Flow.Accesses
import LoopNest.Proofs.Flow.Enclosure
import LoopNest.Proofs.Expr.Substitute
import LoopNest.Proofs.Guard.Workload
import LoopNest.Proofs.Expr.Cancellation
import LoopNest.Proofs.Flow.Full
import LoopNest.Proofs.Facts.Agree
import LoopNest.Proofs.Flow.Mentions
import LoopNest.Proofs.Flow.Local
import LoopNest.Proofs.Flow.Exchange
import LoopNest.Proofs.Lowering.Variables
import LoopNest.Proofs.Facts.Encloses
import LoopNest.Proofs.Facts.Unsigned
import LoopNest.Proofs.Facts.Merged
import LoopNest.Proofs.Facts.Connectives
import LoopNest.Proofs.Facts.Counted
import LoopNest.Proofs.Lowering.SingleSplit
import LoopNest.Proofs.Expr.Built
import LoopNest.Proofs.Expr.Proper
import LoopNest.Proofs.Expr.Tokens
import LoopNest.Proofs.Expr.Grammar
import LoopNest.Proofs.Expr.Printed
import LoopNest.Proofs.Expr.Direct
import LoopNest.Proofs.Expr.Uniform
import LoopNest.Proofs.Expr.Normalized
import LoopNest.Proofs.Expr.Division
import LoopNest.Proofs.Flow.Flattened
import LoopNest.Proofs.Guard.Inversion
import LoopNest.Proofs.Guard.Needed
import LoopNest.Proofs.Stage.Names
import LoopNest.Proofs.Stage.Violations
import LoopNest.Proofs.Lowering.Elision
import LoopNest.Proofs.Facts.Search
import LoopNest.Proofs.Stage.FiniteMap
