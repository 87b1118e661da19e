/-
# Thread dominance

A variable is dominated by threads when some loop derived from it runs on a
thread. The flag starts at the leaves and flows up through the relations; a
variable without a flag is not dominated.
-/

import LoopNest.Flow.Basic

namespace LoopNest.Stage

/-- Pass the flags of the outputs of a relation on to its inputs. -/
def inheritThreads (flags : IterMap Bool) : Relation → IterMap Bool
  | .split parent outer inner _ =>
    flags.insert parent (flags.getDefault inner || flags.getDefault outer)
  | .fuse outer inner fused =>
    (flags.insert outer (flags.getDefault fused)).insert inner (flags.getDefault fused)
  | .rebase parent rebased => flags.insert parent (flags.getDefault rebased)
  | .singleton _ => flags

/-- Whether each leaf is bound to a thread. -/
def leafThreads (stage : Stage) : IterMap Bool :=
  .ofList (stage.leaves.map fun leaf => (leaf, (stage.threadOf? leaf).isSome))

/-- Which variables are dominated by threads. -/
def threadDominance (stage : Stage) : IterMap Bool :=
  stage.relations.reverse.foldl inheritThreads stage.leafThreads

end LoopNest.Stage
