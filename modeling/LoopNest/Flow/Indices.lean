/-
# Index reconstruction

Given the index of each leaf, the indices of the loops they were derived from are
computed upward: a split index is the outer one times the extent of the inner
loop plus the inner one, and a fused index divides into quotient and remainder by
the extent of the inner loop. The minimum of the parent is added where it is not
literally zero, and the result takes the type of the parent.

Downward, the indices of derived loops are computed from those of the roots. The
decomposition assumes that some ranges start at zero: that of the inner loop of a
split, those of both loops of a fusion and that of the parent of a rebase.
`derivableIndicesDown` leaves out what cannot be computed, while
`indicesDown` reports it.
-/

import LoopNest.Flow.Basic

namespace LoopNest.Stage

variable (stage : Stage) (ranges : IterMap Range)

/-- Compute the indices of the inputs of a relation from those of its outputs. A
lenient pass skips a relation whose outputs have no index. -/
def liftIndex (lenient : Bool) (state : IterMap Expr) (relation : Relation) :
    Except (Halt (IterMap Expr)) (IterMap Expr) :=
  match relation with
  | .split parent outer inner _ => Halt.keeping state do
    let some (outerIndex, innerIndex) ←
        stage.readBoth? .upIndices lenient state outer inner
      | return state
    let innerRange ← stage.require .upIndices ranges inner
    let parentRange ← stage.require .upIndices ranges parent
    let index := (outerIndex.mul innerRange.extent).add innerIndex
    let iv ← stage.iterVar parent
    return state.insert parent ((index.offsetBy parentRange.min).castTo iv.dtype)
  | .fuse outer inner fused => do
    let some index ← Halt.keeping state (stage.read? .upIndices lenient state fused)
      | return state
    let innerRange ← Halt.keeping state (stage.require .upIndices ranges inner)
    let outerRange ← Halt.keeping state (stage.require .upIndices ranges outer)
    let outerIndex := (index.floorDiv innerRange.extent).offsetBy outerRange.min
    let innerIndex := (index.floorMod innerRange.extent).offsetBy innerRange.min
    let outerVar ← Halt.keeping state (stage.iterVar outer)
    let lifted := state.insert outer (outerIndex.castTo outerVar.dtype)
    let innerVar ← Halt.keeping lifted (stage.iterVar inner)
    return lifted.insert inner (innerIndex.castTo innerVar.dtype)
  | .rebase parent rebased => Halt.keeping state do
    let some index ← stage.read? .upIndices lenient state rebased
      | return state
    let parentRange ← stage.require .upIndices ranges parent
    return state.insert parent (index.offsetBy parentRange.min)
  | .singleton _ => return state

/-- Compute the indices of all variables from those of the leaves. -/
def indicesUp (lenient : Bool) (state : IterMap Expr) :
    Except (Halt (IterMap Expr)) (IterMap Expr) :=
  stage.flowUp (stage.liftIndex ranges lenient) state

/-- Whether the range of a variable starts at literal zero. Where it does not, this
is an error unless offsets are skipped. -/
def startsAtZero (skipOffsets : Bool) (id : IterId) (range : Range) :
    Except StageError Bool :=
  if range.min.isZero then .ok true
  else if skipOffsets then .ok false
  else .error (.nonzeroMin .downIndices (stage.ref id) range.min)

/-- Compute the indices of the outputs of a relation from those of its inputs. A
lenient pass skips a relation whose inputs have no index, and one that skips
offsets also a relation whose ranges do not start at zero. -/
def lowerIndex (lenient skipOffsets : Bool) (state : IterMap Expr) (relation : Relation) :
    Except StageError (IterMap Expr) :=
  match relation with
  | .split parent outer inner _ => do
    let some index ← stage.read? .downIndices lenient state parent
      | return state
    let innerRange ← stage.require .downIndices ranges inner
    let innerAtZero ← stage.startsAtZero skipOffsets inner innerRange
    if innerAtZero then
      return (state.insert outer (index.floorDiv innerRange.extent)).insert inner
        (index.floorMod innerRange.extent)
    else return state
  | .fuse outer inner fused => do
    let some (outerIndex, innerIndex) ←
        stage.readBoth? .downIndices lenient state outer inner
      | return state
    let outerRange ← stage.require .downIndices ranges outer
    let innerRange ← stage.require .downIndices ranges inner
    let outerAtZero ← stage.startsAtZero skipOffsets outer outerRange
    if outerAtZero then
      let innerAtZero ← stage.startsAtZero skipOffsets inner innerRange
      if innerAtZero then
        return state.insert fused ((outerIndex.mul innerRange.extent).add innerIndex)
      else return state
    else return state
  | .rebase parent rebased => do
    let some index ← stage.read? .downIndices lenient state parent
      | return state
    let parentRange ← stage.require .downIndices ranges parent
    let parentAtZero ← stage.startsAtZero skipOffsets parent parentRange
    if parentAtZero then return state.insert rebased index else return state
  | .singleton iter => do
    let iv ← stage.iterVar iter
    return state.insert iter (.zero iv.dtype)

/-- Compute the indices of all variables from those of the roots, and report what
cannot be computed. -/
def indicesDown (lenient : Bool) (state : IterMap Expr) :
    Except (Halt (IterMap Expr)) (IterMap Expr) :=
  stage.flowDown (Halt.atomically (stage.lowerIndex ranges lenient false)) state

/-- Compute from the indices of the roots those indices that can be computed. -/
def derivableIndicesDown (state : IterMap Expr) :
    Except (Halt (IterMap Expr)) (IterMap Expr) :=
  stage.flowDown (Halt.atomically (stage.lowerIndex ranges true true)) state

end LoopNest.Stage
