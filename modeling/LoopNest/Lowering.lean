/-
# Lowering

Lowering a stage composes all computations in the order in which a code generator
needs them. The roots get their supplied or declared ranges and the other ranges
are inferred. A leaf is indexed by its own variable, or, when it is bound to a
thread, by the thread moved to the start of the leaf. From the leaves the indices
of all variables are computed upward, and from the roots those that can be
computed downward. Both are simplified under the constraint that every leaf stays
inside its range. Last, guards are generated.
-/

import LoopNest.Flow.Indices
import LoopNest.Flow.Ranges
import LoopNest.Guard.Predicates
import LoopNest.Stage.Validate

namespace LoopNest

/-- What lowering finds out about a stage: the range of every variable, its index in
terms of the loops and threads, its index in terms of the roots where that can be
computed, and the guards. -/
structure Lowering where
  ranges : IterMap Range
  upIndices : IterMap Expr
  downIndices : IterMap Expr
  predicates : List Expr

namespace Lowering

/-- The conjunction of all guards, if there are any. -/
def guard? (lowering : Lowering) : Option Expr :=
  match lowering.predicates with
  | [] => none
  | first :: rest => some (rest.foldl Expr.and first)

end Lowering

/-- The index of a leaf and the range it stays in. -/
structure LeafIndex where
  leaf : IterId
  index : Expr
  range : Range

namespace LeafIndex

/-- The predicate that the index stays in the range. -/
def constraint (entry : LeafIndex) : Expr :=
  (entry.index.ge entry.range.min).and (entry.index.lt entry.range.stop)

end LeafIndex

namespace Stage

variable (stage : Stage)

/-- Record the supplied or declared range of a root. -/
def seedRoot (supplied : IterMap Range) (state : Inference) (root : IterId) :
    Except StageError Inference := do
  match supplied.get? root with
  | some range => stage.recordRange state root range
  | none =>
    let iv ← stage.iterVar root
    match iv.declared with
    | some range => stage.recordRange state root range
    | none => throw (.missingDomain (stage.ref root))

/-- Record the declared range of a thread that some leaf is bound to, unless it has
a range already. -/
def seedThread (state : Inference) (thread : IterId) : Except StageError Inference := do
  let iv ← stage.iterVar thread
  match iv.declared with
  | some range =>
    if state.ranges.contains thread then return state
    else stage.recordRange state thread range
  | none => return state

/-- Infer all ranges of a stage from those of its roots and threads. -/
def inferAll (supplied : IterMap Range) : Except StageError Inference := do
  let withRoots ← stage.roots.foldlM (stage.seedRoot supplied) Inference.empty
  let withThreads ← stage.threads.values.foldlM stage.seedThread withRoots
  (stage.rangesDown false withThreads).mapError Halt.error

/-- The index of a leaf: its own variable, or the thread it runs on moved to the
start of its range. -/
def leafIndex (ranges : IterMap Range) (leaf : IterId) : Except StageError LeafIndex := do
  let iv ← stage.iterVar leaf
  let range ← stage.require .lowering ranges leaf
  match stage.threadOf? leaf with
  | some thread =>
    let threadVar ← stage.iterVar thread
    return ⟨leaf, (threadVar.expr.offsetBy range.min).castTo iv.dtype, range⟩
  | none => return ⟨leaf, iv.expr, range⟩

/-- The variable of each root, as the index to start from downward. -/
def rootIndices : Except StageError (IterMap Expr) := do
  let entries ← stage.roots.mapM fun root => do
    let iv ← stage.iterVar root
    return (root, iv.expr)
  return .ofList entries

/-- Lower a stage. The supplied ranges take the place of those that the roots declare. -/
def lower (supplied : IterMap Range) (policy : GuardPolicy) : Except StageError Lowering := do
  stage.validate
  let inferred ← stage.inferAll supplied
  let leaves ← stage.leaves.mapM (stage.leafIndex inferred.ranges)
  let facts := leaves.foldl (fun facts entry => facts.assume entry.constraint) inferred.facts
  let leafIndices := IterMap.ofList (leaves.map fun entry => (entry.leaf, entry.index))
  let up ← (stage.indicesUp inferred.ranges false leafIndices).mapError Halt.error
  let roots ← stage.rootIndices
  let down ← (stage.derivableIndicesDown inferred.ranges roots).mapError Halt.error
  let upIndices := up.map facts.simplify
  let downIndices := down.map facts.simplify
  let predicates ← stage.guards inferred.ranges upIndices policy
  return ⟨inferred.ranges, upIndices, downIndices, predicates⟩

end Stage

end LoopNest
