/-
# Range inference

The ranges of the roots determine those of all derived loops. A split fixes the
extent of one of its loops and gives the other as many iterations as it takes to
cover the parent, rounding up. The fixed extent is cut down to the extent of the
parent where that is provably smaller, unless a thread depends on it: threads run
all iterations whether they are needed or not. A fusion multiplies extents, a
rebase keeps the extent, and a singleton has one iteration. Every derived range
starts at zero. In the end each thread gets the range of the leaf bound to it.

A range that is inferred is also bound as a fact. A variable that has a range
already keeps it, and the new one has to agree: the old one must start at
literal zero and the extents must be provably equal.
-/

import LoopNest.Facts.Prove
import LoopNest.Flow.Threads

namespace LoopNest

/-- The ranges found so far and the facts that include them. -/
structure Inference where
  ranges : IterMap Range
  facts : Facts

namespace Inference

/-- Nothing is known yet. -/
def empty : Inference := ⟨.empty, .empty⟩

/-- Give a variable a range and bind it as a fact. -/
def insert (state : Inference) (id : IterId) (v : Var) (range : Range) : Inference :=
  ⟨state.ranges.insert id range, state.facts.bind v range⟩

end Inference

namespace Facts

/-- Whether a range agrees with another that was inferred before. -/
def agrees (facts : Facts) (existing proposed : Range) : Bool :=
  let difference := proposed.extent.sub existing.extent
  existing.min.isZero && facts.proves (difference.eq (.zero difference.dtype))

/-- The quotient of two extents rounded up. It is exact where the divisor provably
divides the dividend. -/
def ceilDiv (facts : Facts) (dividend divisor : Expr) : Expr :=
  if facts.proves ((dividend.floorMod divisor).eq (.zero dividend.dtype)) then
    facts.simplify (dividend.floorDiv divisor)
  else
    facts.simplify ((dividend.add (divisor.sub (.one divisor.dtype))).floorDiv divisor)

/-- The first of two extents if it is provably smaller, else the second. -/
def smallerOrSecond (facts : Facts) (first second : Expr) : Expr :=
  if facts.proves (first.lt second) then facts.simplify first else facts.simplify second

end Facts

namespace Stage

variable (stage : Stage)

/-- Record an inferred range, or check it against the one that is known. -/
def recordRange (state : Inference) (id : IterId) (range : Range) :
    Except StageError Inference :=
  match state.ranges.get? id with
  | none => do
    let iv ← stage.iterVar id
    return state.insert id iv.var range
  | some existing =>
    if state.facts.agrees existing range then .ok state
    else .error (.inconsistentRange (stage.ref id) existing range)

/-- The loop of a split whose extent is given, and the loop whose extent follows. -/
def fixedAndDerived (outer inner : IterId) : SplitSize → IterId × IterId
  | .factor _ => (inner, outer)
  | .parts _ => (outer, inner)

/-- The ranges of the two loops of a split, the fixed one first. The fixed extent
stays as given when `keep` holds. -/
def splitRanges (facts : Facts) (extent given : Expr) (keep : Bool) : Range × Range :=
  let fixedExtent := if keep then given else facts.smallerOrSecond extent given
  (.ofExtent (fixedExtent.castTo extent.dtype), .ofExtent (facts.ceilDiv extent given))

/-- Infer the ranges of the outputs of a relation. A lenient inference skips a
relation whose inputs have no range and cuts no extent down; neither does any
inference where `dominance` says that a thread depends on the fixed loop. -/
def inferRanges (dominance : IterMap Bool) (lenient : Bool) (state : Inference)
    (relation : Relation) :
    Except (Halt Inference) Inference :=
  match relation with
  | .split parent outer inner size => do
    let some parentRange ← Halt.keeping state (stage.read? .ranges lenient state.ranges parent)
      | return state
    let extent := parentRange.extent
    let (fixed, derived) := fixedAndDerived outer inner size
    let keep := lenient || extent.isZero || dominance.getDefault fixed
    let (fixedRange, derivedRange) := splitRanges state.facts extent size.extent keep
    let recorded ← Halt.keeping state (stage.recordRange state fixed fixedRange)
    Halt.keeping recorded (stage.recordRange recorded derived derivedRange)
  | .fuse outer inner fused => Halt.keeping state do
    let some (outerRange, innerRange) ←
        stage.readBoth? .ranges lenient state.ranges outer inner
      | return state
    let iv ← stage.iterVar fused
    let product := state.facts.simplify (outerRange.extent.mul innerRange.extent)
    return state.insert fused iv.var (.ofExtent product)
  | .rebase parent rebased => Halt.keeping state do
    let some parentRange ← stage.read? .ranges lenient state.ranges parent
      | return state
    stage.recordRange state rebased (.ofExtent parentRange.extent)
  | .singleton iter => Halt.keeping state do
    let iv ← stage.iterVar iter
    stage.recordRange state iter (.constant iv.dtype 1)

/-- Give a thread the range of the leaf bound to it. -/
def inferThreadRange (lenient : Bool) (state : Inference) (binding : IterId × IterId) :
    Except (Halt Inference) Inference :=
  Halt.keeping state do
    let some range ← stage.read? .ranges lenient state.ranges binding.1
      | return state
    stage.recordRange state binding.2 range

/-- Infer the range of every variable from those that are known. -/
def rangesDown (lenient : Bool) (state : Inference) : Except (Halt Inference) Inference := do
  let inferred ← stage.flowDown (stage.inferRanges stage.threadDominance lenient) state
  stage.threads.toList.foldlM (stage.inferThreadRange lenient) inferred

end Stage

end LoopNest
