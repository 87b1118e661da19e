/-
# Deriving loops

The operations by which a schedule is written. Each of them takes a stage to a
new stage, together with the iteration variables it made, or fails; a failing
operation has no effect, because the caller still holds the old stage.

A loop can be transformed only while it is a leaf. Its place in the list of
leaves is taken by the loops derived from it, so the leaves always list the
current nest from the outside in. `pushRelation` and `setLeaves` assemble a
stage by hand without keeping this order; `Stage.validate` checks the outcome.
-/

import LoopNest.Stage.Basic

namespace LoopNest.Stage

/-- A new symbol for the next iteration variable of a stage. -/
def freshVar (stage : Stage) (name : String) (dtype : DType) : Var :=
  ⟨.iteration stage.size, name, dtype⟩

/-- Register an iteration variable that is neither a root nor a leaf. -/
def addIterVar (stage : Stage) (iv : IterVar) : IterId × Stage :=
  (⟨stage.size⟩, { stage with iterVars := stage.iterVars ++ [iv] })

/-- Register an iteration variable as a root. It is the innermost leaf until it is
transformed. -/
def addRootVar (stage : Stage) (iv : IterVar) : IterId × Stage :=
  let (id, extended) := stage.addIterVar iv
  (id, { extended with roots := extended.roots ++ [id], leaves := extended.leaves ++ [id] })

/-- Register a root that runs from zero up to an extent and has its type. -/
def addRoot (stage : Stage) (name : String) (extent : Expr) (kind : IterKind) :
    IterId × Stage :=
  stage.addRootVar ⟨stage.freshVar name extent.dtype, some (.ofExtent extent), kind⟩

/-- Register an iteration variable whose range is inferred. -/
def addDerived (stage : Stage) (name : String) (dtype : DType) (kind : IterKind) :
    IterId × Stage :=
  stage.addIterVar ⟨stage.freshVar name dtype, none, kind⟩

/-- The place of a leaf in the nest. -/
def leafPosition (stage : Stage) (id : IterId) : Except StageError Nat := do
  let _ ← stage.iterVar id
  match stage.leaves.findIdx? (· = id) with
  | some position => return position
  | none => throw (.notALeaf (stage.ref id) stage.name)

/-- Put other loops in the place of some consecutive leaves. -/
def replaceLeaves (stage : Stage) (position count : Nat) (loops : List IterId) : Stage :=
  { stage with
    leaves := stage.leaves.take position ++ loops ++ stage.leaves.drop (position + count) }

/-- Append a relation as it stands. -/
def pushRelation (stage : Stage) (relation : Relation) : Stage :=
  { stage with relations := stage.relations ++ [relation] }

/-- Replace the list of leaves as it stands. -/
def setLeaves (stage : Stage) (leaves : List IterId) : Stage :=
  { stage with leaves := leaves }

/-- Split a leaf into an outer and an inner loop. -/
def splitBy (stage : Stage) (parent : IterId) (size : SplitSize) :
    Except StageError ((IterId × IterId) × Stage) := do
  let position ← stage.leafPosition parent
  let iv ← stage.iterVar parent
  let (outer, withOuter) := stage.addDerived (iv.name ++ ".outer") iv.dtype iv.kind
  let (inner, withInner) := withOuter.addDerived (iv.name ++ ".inner") iv.dtype iv.kind
  let nest := withInner.replaceLeaves position 1 [outer, inner]
  return ((outer, inner), nest.pushRelation (.split parent outer inner size))

/-- Split a leaf so that the inner loop has the given extent. -/
def split (stage : Stage) (parent : IterId) (factor : Expr) :
    Except StageError ((IterId × IterId) × Stage) :=
  stage.splitBy parent (.factor factor)

/-- Split a leaf so that the outer loop has the given extent. -/
def splitIntoParts (stage : Stage) (parent : IterId) (parts : Expr) :
    Except StageError ((IterId × IterId) × Stage) :=
  stage.splitBy parent (.parts parts)

/-- Fuse two leaves of which the second follows the first. -/
def fuse (stage : Stage) (outer inner : IterId) : Except StageError (IterId × Stage) := do
  let position ← stage.leafPosition outer
  let _ ← stage.leafPosition inner
  if stage.leaves[position + 1]? = some inner then
    let outerVar ← stage.iterVar outer
    let innerVar ← stage.iterVar inner
    let name := outerVar.name ++ "." ++ innerVar.name ++ ".fused"
    let (fused, extended) := stage.addDerived name (outerVar.dtype.join innerVar.dtype)
      (outerVar.kind.fuse innerVar.kind)
    let nest := extended.replaceLeaves position 2 [fused]
    return (fused, nest.pushRelation (.fuse outer inner fused))
  else throw (.notAdjacent (stage.ref outer) (stage.ref inner))

/-- Replace a leaf by a loop of the same extent that starts at zero. -/
def rebase (stage : Stage) (parent : IterId) : Except StageError (IterId × Stage) := do
  let position ← stage.leafPosition parent
  let iv ← stage.iterVar parent
  let (rebased, extended) := stage.addDerived (iv.name ++ ".rebased") iv.dtype iv.kind
  let nest := extended.replaceLeaves position 1 [rebased]
  return (rebased, nest.pushRelation (.rebase parent rebased))

/-- Put a loop of one iteration around the nest. -/
def singleton (stage : Stage) (name : String) : IterId × Stage :=
  let (iter, extended) := stage.addDerived name .int32 .parallel
  let nest := extended.setLeaves (iter :: extended.leaves)
  (iter, nest.pushRelation (.singleton iter))

/-- The thread coordinate with a tag. It is made on first use, and only then is a
declared range recorded. -/
def threadAxis (stage : Stage) (tag : String) (declared : Option Range) (dtype : DType) :
    IterId × Stage :=
  match stage.findId? fun iv => iv.kind = .thread && iv.name = tag with
  | some thread => (thread, stage)
  | none => stage.addIterVar ⟨stage.freshVar tag dtype, declared, .thread⟩

/-- Record the thread that a leaf runs on. -/
def setThread (stage : Stage) (leaf thread : IterId) : Stage :=
  { stage with threads := stage.threads.insert leaf thread }

/-- Bind a leaf to the thread coordinate with a tag. -/
def bindThread (stage : Stage) (leaf : IterId) (tag : String) :
    Except StageError (IterId × Stage) := do
  let iv ← stage.iterVar leaf
  let _ ← stage.leafPosition leaf
  let (thread, extended) := stage.threadAxis tag none iv.dtype
  return (thread, extended.setThread leaf thread)

/-- Bind a leaf to a thread coordinate that exists already. -/
def bindTo (stage : Stage) (leaf thread : IterId) : Except StageError Stage := do
  let _ ← stage.iterVar thread
  let _ ← stage.leafPosition leaf
  return stage.setThread leaf thread

/-- Exclude an iteration variable from guards. -/
def skip (stage : Stage) (id : IterId) : Except StageError Stage := do
  let _ ← stage.iterVar id
  return { stage with skipped := if stage.isSkipped id then stage.skipped else id :: stage.skipped }

/-- Give the stage shape parameters and workloads. -/
def setShape (stage : Stage) (shape : DynamicShape) : Stage :=
  { stage with shape := some shape }

end LoopNest.Stage
