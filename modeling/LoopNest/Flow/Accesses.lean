/-
# Accessed sets

Given the set of values that each leaf takes, the sets that the loops above it
take are computed upward. Where a loop takes its whole range, so do the loops it
was derived from. Otherwise the set of a split or rebased loop follows from its
index by interval arithmetic, and the set of a fused loop is projected onto the
two loops it runs through.

The projection treats the fused values as cells of rows that are as long as the
inner extent. The rows give the outer set. The inner set is exact when the values
stay within one row; otherwise it is the whole inner range, which is exact when
the values cover full rows and merely safe when they do not. The last case is
counted, because it makes a computation redundant.
-/

import LoopNest.Facts.Values
import LoopNest.Flow.Basic

namespace LoopNest

/-- The sets found so far and the number of projections that did not fit the rows. -/
structure Accesses where
  sets : IterMap ValueSet
  misaligned : Nat

namespace Accesses

/-- Give a variable a set, in place of any it had. -/
def insert (state : Accesses) (id : IterId) (set : ValueSet) : Accesses :=
  { state with sets := state.sets.insert id set }

end Accesses

/-- The outer and inner sets of a fused set, and whether they fit it badly. -/
structure Projection where
  outer : ValueSet
  inner : ValueSet
  misaligned : Bool

namespace Facts

variable (facts : Facts)

/-- Whether the remainder of two expressions provably vanishes. -/
def divides (divisor dividend : Expr) : Bool :=
  (facts.simplify (dividend.floorMod divisor)).isZero

/-- Project a single fused value. -/
def projectPoint (value : Expr) (outerRange innerRange : Range) : Projection :=
  let outer := (value.floorDiv innerRange.extent).offsetBy outerRange.min
  let inner := (value.floorMod innerRange.extent).offsetBy innerRange.min
  ⟨.point (facts.simplify outer), .point (facts.simplify inner), false⟩

/-- Project an interval of fused values. -/
def projectInterval (min max : Expr) (outerRange innerRange : Range) : Projection :=
  let row := innerRange.extent
  let span := (max.sub min).add (.one max.dtype)
  let outer := ValueSet.between (facts.simplify (outerRange.min.add (min.floorDiv row)))
    (facts.simplify (outerRange.min.add (max.floorDiv row)))
  if facts.divides span row && facts.divides span min then
    let inner := ValueSet.between (facts.simplify (innerRange.min.add (min.floorMod row)))
      (facts.simplify (innerRange.min.add (max.floorMod row)))
    ⟨outer, inner, false⟩
  else
    ⟨outer, .ofRange innerRange, !(facts.divides row span && facts.divides row min)⟩

/-- Project a set of fused values onto the ranges of the two loops. -/
def projectFused (fused : ValueSet) (outerRange innerRange : Range) : Projection :=
  match fused.point? with
  | some value => facts.projectPoint value outerRange innerRange
  | none =>
    match fused.min?, fused.max? with
    | some min, some max => facts.projectInterval min max outerRange innerRange
    | _, _ => ⟨.ofRange outerRange, .ofRange innerRange, false⟩

end Facts

namespace Stage

variable (stage : Stage) (ranges : IterMap Range) (facts : Facts)

/-- Compute the sets of the inputs of a relation from those of its outputs. -/
def liftAccesses (state : Accesses) (relation : Relation) : Except StageError Accesses :=
  match relation with
  | .split parent outer inner _ => do
    let outerSet ← stage.require .upAccesses state.sets outer
    let innerSet ← stage.require .upAccesses state.sets inner
    let outerRange ← stage.require .upAccesses ranges outer
    let innerRange ← stage.require .upAccesses ranges inner
    let parentRange ← stage.require .upAccesses ranges parent
    if outerSet.fills outerRange facts && innerSet.fills innerRange facts then
      return state.insert parent (.ofRange parentRange)
    else
      let outerVar ← stage.iterVar outer
      let innerVar ← stage.iterVar inner
      let index :=
        ((outerVar.expr.mul innerRange.extent).add innerVar.expr).add parentRange.min
      let domains := (Domains.empty.insert outerVar.var outerSet).insert innerVar.var innerSet
      return state.insert parent (facts.values index domains)
  | .fuse outer inner fused => do
    let fusedSet ← stage.require .upAccesses state.sets fused
    let outerRange ← stage.require .upAccesses ranges outer
    let innerRange ← stage.require .upAccesses ranges inner
    let fusedRange ← stage.require .upAccesses ranges fused
    let projection :=
      if fusedSet.fills fusedRange facts then
        ⟨.ofRange outerRange, .ofRange innerRange, false⟩
      else facts.projectFused fusedSet outerRange innerRange
    let counted : Accesses :=
      { state with misaligned := state.misaligned + projection.misaligned.toNat }
    return (counted.insert outer projection.outer).insert inner projection.inner
  | .rebase parent rebased => do
    let rebasedSet ← stage.require .upAccesses state.sets rebased
    let rebasedRange ← stage.require .upAccesses ranges rebased
    let parentRange ← stage.require .upAccesses ranges parent
    if rebasedSet.fills rebasedRange facts then
      return state.insert parent (.ofRange parentRange)
    else
      let rebasedVar ← stage.iterVar rebased
      let domains := Domains.empty.insert rebasedVar.var rebasedSet
      return state.insert parent
        (facts.values (rebasedVar.expr.add parentRange.min) domains)
  | .singleton _ => return state

/-- Compute the sets of all variables from those of the leaves. -/
def accessesUp (state : Accesses) : Except (Halt Accesses) Accesses :=
  stage.flowUp (Halt.atomically (stage.liftAccesses ranges facts)) state

end Stage

end LoopNest
