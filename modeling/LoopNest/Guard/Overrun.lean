/-
# Overruns

A split whose extents do not multiply to that of its parent makes the loops run
past the end of the parent. Such a parent overruns, and so does everything above
it. The flags flow up from the leaves, which do not overrun by themselves. A split
also counts as an overrun when the range of one of its loops is unknown.
-/

import LoopNest.Facts.Prove
import LoopNest.Flow.Basic

namespace LoopNest.Stage

variable (stage : Stage) (ranges : IterMap Range) (facts : Facts)

/-- Whether the loops of a split provably cover the parent exactly, given that
neither of them overruns. -/
def coversExactly (parent outer inner : IterId) : Except StageError Bool :=
  match ranges.get? outer, ranges.get? inner with
  | some outerRange, some innerRange => do
    let parentRange ← stage.require .overruns ranges parent
    return facts.proves (parentRange.extent.eq (innerRange.extent.mul outerRange.extent))
  | _, _ => return false

/-- Decide for the inputs of a relation whether they overrun. The inner loop of a
split is not consulted when the outer one settles the matter. -/
def liftOverrun (state : IterMap Bool) (relation : Relation) : Except StageError (IterMap Bool) :=
  match relation with
  | .split parent outer inner _ => do
    let outerOverruns ← stage.require .overruns state outer
    let childOverruns ←
      if outerOverruns then pure true else stage.require .overruns state inner
    if childOverruns then return state.insert parent true
    else
      let exactly ← stage.coversExactly ranges facts parent outer inner
      return state.insert parent !exactly
  | .fuse outer inner fused => do
    let overruns ← stage.require .overruns state fused
    return (state.insert outer overruns).insert inner overruns
  | .rebase parent rebased => do
    let overruns ← stage.require .overruns state rebased
    return state.insert parent overruns
  | .singleton _ => return state

/-- Decide for all variables whether they overrun. -/
def overrunsUp (state : IterMap Bool) : Except (Halt (IterMap Bool)) (IterMap Bool) :=
  stage.flowUp (Halt.atomically (stage.liftOverrun ranges facts)) state

/-- No leaf overruns by itself. -/
def leafOverruns : IterMap Bool :=
  .ofList (stage.leaves.map fun leaf => (leaf, false))

end LoopNest.Stage
