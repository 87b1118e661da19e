/-
# Relations between iteration variables

A relation derives iteration variables from others. A split replaces a loop by an
outer and an inner one, a fusion replaces two loops by one that runs through
both, a rebase moves a loop to start at zero, and a singleton is a loop of one
iteration out of nothing. The inputs of a relation are the variables it consumes,
the outputs those it makes.
-/

import LoopNest.Stage.IterVar

namespace LoopNest

/-- How a split sizes its loops: by the extent of the inner one or by the extent
of the outer one. -/
inductive SplitSize
  | factor (inner : Expr)
  | parts (outer : Expr)
  deriving DecidableEq, Repr, Inhabited

namespace SplitSize

/-- The written form of the way a split is sized. -/
def label : SplitSize → String
  | factor _ => "factor"
  | parts _ => "nparts"

/-- The extent that the split fixes. -/
def extent : SplitSize → Expr
  | factor inner => inner
  | parts outer => outer

end SplitSize

/-- One step of deriving loops from loops. -/
inductive Relation
  | split (parent outer inner : IterId) (size : SplitSize)
  | fuse (outer inner fused : IterId)
  | rebase (parent rebased : IterId)
  | singleton (iter : IterId)
  deriving DecidableEq, Repr, Inhabited

namespace Relation

/-- The iteration variables that a relation consumes. -/
def inputs : Relation → List IterId
  | split parent _ _ _ => [parent]
  | fuse outer inner _ => [outer, inner]
  | rebase parent _ => [parent]
  | singleton _ => []

/-- The iteration variables that a relation makes. -/
def outputs : Relation → List IterId
  | split _ outer inner _ => [outer, inner]
  | fuse _ _ fused => [fused]
  | rebase _ rebased => [rebased]
  | singleton iter => [iter]

/-- The written form of the kind of a relation. -/
def label : Relation → String
  | split _ _ _ _ => "split"
  | fuse _ _ _ => "fuse"
  | rebase _ _ => "rebase"
  | singleton _ => "singleton"

end Relation

end LoopNest
