/-
# Indices there and back

On a stage of one signed type whose roots start at zero, indices may be computed downward
from the roots and upward from the leaves. The two passes meet at a point: downward the
indices have its values as long as it stays inside all ranges, upward they have its values
as soon as it follows the relations.

Such a point exists for all roots inside their ranges exactly when no sum that rounds up the
extent of a split wraps. A sum that wraps is negative, so the loop whose extent is derived
from it has no iteration, while its indices are natural numbers.
-/

import LoopNest.Proofs.Flow.Evaluated
import LoopNest.Proofs.Stage.WellFormed

namespace LoopNest

/-- The remainder that a split of a natural extent asks for is defined. -/
theorem IterMap.HasNumbers.floorMod? {ranges : IterMap Range} {dtype : DType} {id : IterId}
    (h : ranges.HasNumbers dtype id) (hpositive : 1 ≤ ranges.box.extent id) {given : Int}
    (hcontains : dtype.contains given = true) (hgiven : 1 ≤ given) :
    Word.floorMod? (ranges.box.extent id) given = some (ranges.box.extent id % given) :=
  Word.floorMod?_of_nonneg (by omega) (DType.fits_of_contains h.extent)
    (DType.fits_of_contains hcontains) hgiven

namespace Stage

variable {stage : Stage} {dtype : DType} {ranges : IterMap Range} {assignment : Assignment}

/-- The variables of the roots have values in the ranges of the roots. -/
def AtRoots (stage : Stage) (ranges : IterMap Range) (assignment : Assignment) : Prop :=
  ∀ root ∈ stage.roots, ∃ iv x, stage.iterVar? root = some iv ∧ assignment iv.var = some x ∧
    ranges.box.Contains root x

/-- The indices of all loops have values in the ranges of the loops. -/
def AllInside (stage : Stage) (ranges : IterMap Range) (indices : IterMap Expr)
    (assignment : Assignment) : Prop :=
  ∀ id ∈ stage.defined, ∃ x, indices.HasValue assignment id x ∧ ranges.box.Contains id x

/-- Typed indices inside their ranges, with the values that they have. -/
theorem AllInside.evaluatesTo {indices : IterMap Expr}
    (h : stage.AllInside ranges indices assignment)
    (htyped : ∀ id ∈ stage.defined, ∃ e, indices.get? id = some e ∧ e.TypedAt dtype) :
    ∀ id ∈ stage.defined,
      indices.EvaluatesTo dtype assignment id (indices.valueAt assignment id) ∧
        ranges.box.Contains id (indices.valueAt assignment id) := by
  intro id hid
  obtain ⟨x, ⟨index, hindex, hx⟩, hcontains⟩ := h id hid
  obtain ⟨other, hother, htyped⟩ := htyped id hid
  obtain rfl := Option.some.inj (hindex.symm.trans hother)
  rw [IterMap.valueAt_of_eval hindex hx]
  exact ⟨⟨index, hindex, htyped, hx⟩, hcontains⟩

/-- Indices of the leaves that lead back to the roots: computed upward from them, the index
of each root has the value of the variable of the root. -/
def RestoresRoots (stage : Stage) (ranges : IterMap Range) (leaves : IterMap Expr) : Prop :=
  ∃ up, stage.indicesUp ranges false leaves = .ok up ∧
    ∀ assignment, stage.AtRoots ranges assignment → ∀ root ∈ stage.roots, ∃ iv x,
      stage.iterVar? root = some iv ∧ assignment iv.var = some x ∧ up.HasValue assignment root x

/-- Downward indices that lead back to the leaves: where the indices computed upward from
the variables of the leaves stay inside all ranges, the downward index of each leaf has at
the values of the roots the value of the variable of the leaf. -/
def RestoresLeaves (stage : Stage) (ranges : IterMap Range) (down : IterMap Expr) : Prop :=
  ∃ up, stage.indicesUp ranges false stage.leafVariables = .ok up ∧
    ∀ assignment atRoots, stage.AllInside ranges up assignment →
      stage.RootsAt (up.valueAt assignment) atRoots →
      ∀ leaf ∈ stage.leaves, ∃ iv x, stage.iterVar? leaf = some iv ∧
        iv.expr.eval assignment = .ok x ∧ down.HasValue atRoots leaf x

/-- The two passes over indices undo each other. -/
def RoundTrips (stage : Stage) (ranges : IterMap Range) : Prop :=
  ∃ roots down, stage.rootIndices = .ok roots ∧ stage.indicesDown ranges false roots = .ok down ∧
    (∀ assignment, stage.AtRoots ranges assignment → stage.AllInside ranges down assignment) ∧
    (∀ leaves : IterMap Expr, (∀ leaf ∈ stage.leaves, leaves.get? leaf = down.get? leaf) →
      stage.RestoresRoots ranges leaves) ∧
    stage.RestoresLeaves ranges down

/-- Ranges inferred on a stage of one signed type whose roots start at zero. -/
structure ZeroBased (stage : Stage) (dtype : DType) (state inferred : Inference) : Prop where
  signed : dtype.isSigned = true
  typed : ∀ id ∈ stage.defined, ∀ iv, stage.iterVar? id = some iv → iv.dtype = dtype
  sizes : ∀ relation ∈ stage.relations, relation.HasConstSize dtype
  consistent : state.facts.Consistent
  roots : ∀ root ∈ stage.roots, ∃ extent, state.ranges.get? root = some (.between dtype 0 extent) ∧
    dtype.contains extent = true ∧ 1 ≤ extent
  unknown : ∀ relation ∈ stage.relations, ∀ id ∈ relation.outputs, state.ranges.get? id = none
  infers : stage.rangesDown false state = .ok inferred
  fuses : ∀ relation ∈ stage.relations, inferred.ranges.box.FusesWithin dtype relation

section Passes

variable {value : IterId → Int} {down up seed : IterMap Expr}
variable (hlinked : stage.Linked) (htype : stage.HasType dtype)
variable (hranges : stage.HasLiteralRanges dtype ranges) (hfits : ranges.box.Fits stage)
variable (hzero : ∀ id ∈ stage.defined, ranges.box.low id = 0)

include hlinked hfits in
/-- Roots inside their ranges belong to a point. -/
theorem AtRoots.exists_point (h : stage.AtRoots ranges assignment) :
    ∃ value, ranges.box.IsPoint stage value ∧ stage.RootsAt value assignment := by
  let target : IterId → Int := fun id =>
    ((stage.iterVar? id).bind fun iv => assignment iv.var).getD 0
  have htarget : ∀ {id iv x}, stage.iterVar? id = some iv → assignment iv.var = some x →
      target id = x := fun hiv hx => by simp [target, hiv, hx]
  have hcontains : ∀ root ∈ stage.roots, ranges.box.Contains root (target root) := by
    intro root hroot
    obtain ⟨iv, x, hiv, hx, hcontains⟩ := h root hroot
    rwa [htarget hiv hx]
  obtain ⟨value, hroots, hfollows, hinside⟩ := hfits.exists_point hlinked hcontains
  refine ⟨value, ⟨hinside, hfollows⟩, fun root hroot => ?_⟩
  obtain ⟨iv, x, hiv, hx, -⟩ := h root hroot
  exact ⟨iv, hiv, by rw [hroots root hroot, htarget hiv hx, hx]⟩

include hlinked htype hranges hfits hzero in
/-- All indices computed downward have the values of the point that the roots belong to. -/
theorem TakesApart.evaluatesTo (h : stage.TakesApart ranges false seed down)
    (hseed : ∀ id ∈ stage.roots, seed.get? id = some (stage.exprOf id))
    (hpoint : ranges.box.IsPoint stage value) (hroots : stage.RootsAt value assignment) :
    ∀ id ∈ stage.defined, down.EvaluatesTo dtype assignment id (value id) := by
  have hsplits : ∀ relation ∈ stage.relations, ranges.box.SplitsAtZero relation := by
    intro relation hrelation
    cases relation with
    | split parent => exact hzero parent (hlinked.mem_defined_of_mem_inputs hrelation (by
        simp [Relation.inputs]))
    | fuse | rebase | singleton => trivial
  have hcontains : ∀ root ∈ stage.roots, dtype.contains (value root) = true := by
    intro root hroot
    have hdefined := mem_defined_of_mem_roots hroot
    obtain ⟨hlow, hhigh⟩ := hpoint.inside root hdefined
    rw [hzero root hdefined] at hlow hhigh
    exact DType.contains_of_between (DType.contains_zero _) (hranges.loops root hdefined).extent
      hlow (by omega)
  have hagrees := h.agreesWith hlinked htype hranges hpoint hfits.covers hsplits hseed hroots
    hcontains
  exact fun id hid => (hagrees id hid).evaluatesTo ((h.known id hid).resolve_left (by simp))

variable (hproducts : ∀ relation ∈ stage.relations, ranges.box.ProductFits dtype relation)

include hlinked hranges hfits hzero hproducts in
/-- One relation upward, inside all ranges. -/
theorem evaluatesTo_inputs_iff {relation : Relation} (hrelation : relation ∈ stage.relations)
    (hfollow : IndicesFollow dtype ranges.box up.get? relation)
    (hinside : ∀ id ∈ stage.defined, ranges.box.Contains id (value id))
    (houtputs : ∀ id ∈ relation.outputs, up.EvaluatesTo dtype assignment id (value id)) :
    (∀ id ∈ relation.inputs, up.EvaluatesTo dtype assignment id (value id)) ↔
      ranges.box.Follows value relation := by
  have hinput : ∀ id ∈ relation.inputs, id ∈ stage.defined :=
    fun id hid => hlinked.mem_defined_of_mem_inputs hrelation hid
  have houtput : ∀ id ∈ relation.outputs, id ∈ stage.defined :=
    fun id hid => mem_defined_of_mem_outputs hrelation hid
  exact hfollow.evaluatesTo_iff
    (fun id hid => ⟨hranges.loops id (hinput id hid), hzero id (hinput id hid),
      hfits.positive id (hinput id hid)⟩)
    (fun id hid => ⟨hranges.loops id (houtput id hid), hzero id (houtput id hid)⟩)
    (hproducts relation hrelation) (fun id hid => hinside id (houtput id hid)) houtputs

include hlinked htype hranges hfits hzero hproducts

/-- All indices computed upward have the values of the point that the leaves belong to. -/
theorem Raises.evaluatesTo (h : stage.Raises ranges seed up)
    (hpoint : ranges.box.IsPoint stage value)
    (hseed : ∀ id ∈ stage.leaves, seed.EvaluatesTo dtype assignment id (value id)) :
    ∀ id ∈ stage.defined, up.EvaluatesTo dtype assignment id (value id) := by
  obtain ⟨-, hfollow⟩ := h.follow hlinked htype hranges fun id hid => by
    obtain ⟨index, hindex, htyped, -⟩ := hseed id hid
    exact ⟨index, hindex, htyped⟩
  refine hlinked.induction_up (fun id hid => ?_) fun relation hrelation houtputs =>
    (evaluatesTo_inputs_iff hlinked hranges hfits hzero hproducts hrelation
      (hfollow relation hrelation) hpoint.inside houtputs).mpr (hpoint.follows relation hrelation)
  rw [IterMap.EvaluatesTo, h.leaves id hid]
  exact hseed id hid

/-- Where all indices computed upward from the variables of the leaves stay inside, their
values are a point. -/
theorem AllInside.isPoint (hinside : stage.AllInside ranges up assignment)
    (h : stage.Raises ranges stage.leafVariables up) :
    ranges.box.IsPoint stage (up.valueAt assignment) ∧
      ∀ leaf ∈ stage.leaves, ∃ iv, stage.iterVar? leaf = some iv ∧
        iv.expr.eval assignment = .ok (up.valueAt assignment leaf) := by
  have hleaf : ∀ leaf ∈ stage.leaves, ∃ iv, stage.iterVar? leaf = some iv ∧
      stage.leafVariables.get? leaf = some iv.expr ∧ iv.expr.TypedAt dtype := by
    intro leaf hleaf
    obtain ⟨iv, hiv, hdtype⟩ := htype leaf (hlinked.mem_defined_of_mem_leaves hleaf)
    exact ⟨iv, hiv, get?_leafVariables hleaf hiv, ⟨trivial, trivial⟩, hdtype⟩
  obtain ⟨htyped, hfollow⟩ := h.follow hlinked htype hranges fun leaf hid => by
    obtain ⟨iv, -, hget, htyped⟩ := hleaf leaf hid
    exact ⟨_, hget, htyped⟩
  have hvalues := hinside.evaluatesTo htyped
  refine ⟨⟨fun id hid => (hvalues id hid).2, fun relation hrelation => ?_⟩, fun leaf hid => ?_⟩
  · exact (evaluatesTo_inputs_iff hlinked hranges hfits hzero hproducts hrelation
      (hfollow relation hrelation) (fun id hid => (hvalues id hid).2)
      fun id hid => (hvalues id (mem_defined_of_mem_outputs hrelation hid)).1).mp
      fun id hid => (hvalues id (hlinked.mem_defined_of_mem_inputs hrelation hid)).1
  · obtain ⟨iv, hiv, hget, -⟩ := hleaf leaf hid
    obtain ⟨index, hindex, -, hx⟩ := (hvalues leaf (hlinked.mem_defined_of_mem_leaves hid)).1
    rw [h.leaves leaf hid, hget, Option.some.injEq] at hindex
    exact ⟨iv, hiv, hindex ▸ hx⟩

section Undo

variable (htakes : stage.TakesApart ranges false seed down)
variable (hseed : ∀ id ∈ stage.roots, seed.get? id = some (stage.exprOf id))
include htakes hseed

theorem TakesApart.restoresRoots {leaves : IterMap Expr}
    (hleaves : ∀ leaf ∈ stage.leaves, leaves.get? leaf = down.get? leaf) :
    stage.RestoresRoots ranges leaves := by
  have hready : ∀ leaf ∈ stage.leaves, (leaves.get? leaf).isSome = true := by
    intro leaf hleaf
    rw [hleaves leaf hleaf]
    exact (htakes.known leaf (hlinked.mem_defined_of_mem_leaves hleaf)).resolve_left (by simp)
  obtain ⟨up, hup, hraises⟩ := hlinked.indicesUp_ok htype.hasVars hranges.hasRanges hready
  refine ⟨up, hup, fun assignment hassignment root hroot => ?_⟩
  obtain ⟨value, hpoint, hat⟩ := hassignment.exists_point hlinked hfits
  have hdown := htakes.evaluatesTo hlinked htype hranges hfits hzero hseed hpoint hat
  have hvalues : ∀ id ∈ stage.defined, up.EvaluatesTo dtype assignment id (value id) := by
    refine hraises.evaluatesTo hlinked htype hranges hfits hzero hproducts hpoint
      fun leaf hleaf => ?_
    rw [IterMap.EvaluatesTo, hleaves leaf hleaf]
    exact hdown leaf (hlinked.mem_defined_of_mem_leaves hleaf)
  obtain ⟨iv, hiv, hvalue⟩ := hat root hroot
  exact ⟨iv, value root, hiv, hvalue, (hvalues root (mem_defined_of_mem_roots hroot)).hasValue⟩

theorem TakesApart.restoresLeaves : stage.RestoresLeaves ranges down := by
  have hready : ∀ leaf ∈ stage.leaves, (stage.leafVariables.get? leaf).isSome = true := by
    intro leaf hleaf
    obtain ⟨iv, hiv, -⟩ := htype leaf (hlinked.mem_defined_of_mem_leaves hleaf)
    rw [get?_leafVariables hleaf hiv]
    rfl
  obtain ⟨up, hup, hraises⟩ := hlinked.indicesUp_ok htype.hasVars hranges.hasRanges hready
  refine ⟨up, hup, fun assignment atRoots hinside hat leaf hleaf => ?_⟩
  obtain ⟨hpoint, hleaves⟩ := hinside.isPoint hlinked htype hranges hfits hzero hproducts hraises
  have hdown := htakes.evaluatesTo hlinked htype hranges hfits hzero hseed hpoint hat
  obtain ⟨iv, hiv, hx⟩ := hleaves leaf hleaf
  exact ⟨iv, _, hiv, hx, (hdown leaf (hlinked.mem_defined_of_mem_leaves hleaf)).hasValue⟩

end Undo

/-- Where the ranges start at zero and cover the nest, the two passes undo each other. -/
theorem roundTrips_of_fits : stage.RoundTrips ranges := by
  obtain ⟨seed, hroots, hget⟩ := htype.hasVars.rootIndices_ok
  have hseed : ∀ id ∈ stage.roots, seed.get? id = some (stage.exprOf id) :=
    fun id hid => (hget id).trans (if_pos hid)
  have hstart : ∀ relation ∈ stage.relations, StartsAtZero ranges relation := by
    intro relation hrelation id hid
    have hdefined := hlinked.mem_defined_of_mem_relation hrelation (mem_of_mem_zeroBased hid)
    exact (hranges.loops id hdefined).isZero_iff.mpr (hzero id hdefined)
  obtain ⟨down, hdown, htakes⟩ := hlinked.indicesDown_ok htype.hasVars hranges.hasRanges
    (fun id hid => by rw [hseed id hid]; rfl) (hlinked.get?_of_made hget) hstart
  refine ⟨seed, down, hroots, hdown, fun assignment hassignment id hid => ?_,
    fun leaves => htakes.restoresRoots hlinked htype hranges hfits hzero hproducts hseed,
    htakes.restoresLeaves hlinked htype hranges hfits hzero hproducts hseed⟩
  obtain ⟨value, hpoint, hat⟩ := hassignment.exists_point hlinked hfits
  have hvalues := htakes.evaluatesTo hlinked htype hranges hfits hzero hseed hpoint hat
  exact ⟨value id, (hvalues id hid).hasValue, hpoint.inside id hid⟩

end Passes

namespace ZeroBased

variable {state inferred : Inference} {relation : Relation}
variable (h : stage.ZeroBased dtype state inferred) (hvars : stage.HasVars)
include h hvars

theorem hasType : stage.HasType dtype := by
  intro id hid
  obtain ⟨iv, hiv⟩ := hvars id hid
  exact ⟨iv, hiv, h.typed id hid iv hiv⟩

variable (hlinked : stage.Linked)
include hlinked

theorem infersFrom : stage.InfersFrom state inferred := by
  refine hlinked.infersFrom hvars (fun root hroot => ?_) (fun id hid => ?_) h.infers
  · obtain ⟨extent, hget, -⟩ := h.roots root hroot
    rw [hget]
    rfl
  · obtain ⟨relation, hrelation, houtput⟩ := List.mem_flatMap.mp hid
    exact h.unknown relation hrelation id houtput

theorem rangesFollow (hrelation : relation ∈ stage.relations) :
    stage.RangesFollow dtype inferred.ranges.get? relation :=
  ((h.infersFrom hvars hlinked).relations relation hrelation).follow h.consistent
    fun id hid => h.typed id (mem_defined_of_mem_outputs hrelation hid)

theorem root {root : IterId} (hroot : root ∈ stage.roots) :
    inferred.ranges.HasNumbers dtype root ∧ inferred.ranges.box.low root = 0 ∧
      1 ≤ inferred.ranges.box.extent root := by
  obtain ⟨extent, hget, hcontains, hpositive⟩ := h.roots root hroot
  rw [← (h.infersFrom hvars hlinked).roots root hroot] at hget
  obtain ⟨hlow, hextent⟩ := IterMap.box_of_get? hget
  exact ⟨IterMap.hasNumbers_of_get? hget (DType.contains_zero _) hcontains, hlow,
    by rwa [hextent]⟩

/-- One relation downward: what it makes of literal ranges is literal and starts at zero. -/
theorem made (hrelation : relation ∈ stage.relations)
    (hinputs : ∀ id ∈ relation.inputs, inferred.ranges.HasNumbers dtype id ∧
      1 ≤ inferred.ranges.box.extent id) :
    ∀ id ∈ relation.outputs, inferred.ranges.HasNumbers dtype id ∧
      inferred.ranges.box.low id = 0 :=
  (h.rangesFollow hvars hlinked hrelation).hasNumbers (h.sizes relation hrelation)
    (fun id hid => (hinputs id hid).1)
    fun id hid _ => (hinputs id hid).1.floorMod? (hinputs id hid).2

/-- One relation downward: where the rounding does not wrap, every loop that is made has an
iteration, and together they cover what is consumed. -/
theorem covers_of_rounds (hrelation : relation ∈ stage.relations)
    (hrounds : inferred.ranges.box.RoundsWithin dtype relation)
    (hinputs : ∀ id ∈ relation.inputs, inferred.ranges.HasNumbers dtype id ∧
      1 ≤ inferred.ranges.box.extent id) :
    (∀ id ∈ relation.outputs, 1 ≤ inferred.ranges.box.extent id) ∧
      inferred.ranges.box.Covers relation ∧ inferred.ranges.box.ProductFits dtype relation :=
  (h.rangesFollow hvars hlinked hrelation).covers_of_positive (h.sizes relation hrelation)
    (fun id hid => (hinputs id hid).1)
    (fun id hid _ => (hinputs id hid).1.floorMod? (hinputs id hid).2)
    hrounds (h.fuses relation hrelation) fun id hid => (hinputs id hid).2

section Rounds

variable (hrounds : ∀ relation ∈ stage.relations, inferred.ranges.box.RoundsWithin dtype relation)
include hrounds

/-- Where no rounding wraps, all ranges are literal, start at zero and have an iteration. -/
theorem numbers : ∀ id ∈ stage.defined, inferred.ranges.HasNumbers dtype id ∧
    inferred.ranges.box.low id = 0 ∧ 1 ≤ inferred.ranges.box.extent id := by
  refine hlinked.induction_down (fun _ => h.root hvars hlinked)
    fun relation hrelation hinputs id hid => ?_
  have hknown : ∀ id ∈ relation.inputs, inferred.ranges.HasNumbers dtype id ∧
      1 ≤ inferred.ranges.box.extent id := fun id hid => ⟨(hinputs id hid).1, (hinputs id hid).2.2⟩
  obtain ⟨hnumbers, hzero⟩ := h.made hvars hlinked hrelation hknown id hid
  exact ⟨hnumbers, hzero,
    (h.covers_of_rounds hvars hlinked hrelation (hrounds relation hrelation) hknown).1 id hid⟩

/-- Where no rounding wraps, the two passes undo each other. -/
theorem roundTrips : stage.RoundTrips inferred.ranges := by
  have hnumbers := h.numbers hvars hlinked hrounds
  have hcovers : ∀ relation ∈ stage.relations, inferred.ranges.box.Covers relation ∧
      inferred.ranges.box.ProductFits dtype relation := fun relation hrelation =>
    (h.covers_of_rounds hvars hlinked hrelation (hrounds relation hrelation) fun id hid =>
      have hdefined := hlinked.mem_defined_of_mem_inputs hrelation hid
      ⟨(hnumbers id hdefined).1, (hnumbers id hdefined).2.2⟩).2
  exact roundTrips_of_fits hlinked (h.hasType hvars)
    ⟨fun id hid => (hnumbers id hid).1, fun relation hrelation id hid =>
      (hnumbers id (mem_defined_of_mem_outputs hrelation hid)).2.1⟩
    ⟨fun id hid => (hnumbers id hid).2.2, fun relation hrelation => (hcovers relation hrelation).1⟩
    (fun id hid => (hnumbers id hid).2.1)
    fun relation hrelation => (hcovers relation hrelation).2

end Rounds

/-- Where the two passes undo each other, every loop has an iteration: the index that is
computed downward from zero stays inside. -/
theorem positive (htrips : stage.RoundTrips inferred.ranges) :
    ∀ id ∈ stage.defined, 1 ≤ inferred.ranges.box.extent id := by
  obtain ⟨-, down, -, -, hinside, -⟩ := htrips
  have hroots : stage.AtRoots inferred.ranges fun _ => some 0 := by
    intro root hroot
    obtain ⟨iv, hiv⟩ := hvars root (mem_defined_of_mem_roots hroot)
    obtain ⟨-, hzero, hpositive⟩ := h.root hvars hlinked hroot
    exact ⟨iv, 0, hiv, rfl, hzero.le, by omega⟩
  intro id hid
  obtain ⟨x, -, hcontains⟩ := hinside _ hroots id hid
  exact hcontains.positive

/-- Where every loop has an iteration, no rounding wraps. -/
theorem rounds_of_positive (hpositive : ∀ id ∈ stage.defined, 1 ≤ inferred.ranges.box.extent id)
    (hrelation : relation ∈ stage.relations) : inferred.ranges.box.RoundsWithin dtype relation := by
  have hnumbers : ∀ id ∈ stage.defined, inferred.ranges.HasNumbers dtype id := by
    refine hlinked.induction_down (fun _ hroot => (h.root hvars hlinked hroot).1)
      fun relation hrelation hinputs id hid =>
        (h.made hvars hlinked hrelation (fun id hid => ?_) id hid).1
    exact ⟨hinputs id hid, hpositive id (hlinked.mem_defined_of_mem_inputs hrelation hid)⟩
  cases relation with
  | split parent outer inner size =>
      intro given hgiven hremainder
      obtain ⟨given', hsize⟩ : ∃ given', size.IsConst dtype given' := h.sizes _ hrelation
      rw [hsize.eq, Expr.value?, Option.mem_def, Option.some.injEq] at hgiven
      subst hgiven
      have hparent : parent ∈ stage.defined :=
        hlinked.mem_defined_of_mem_inputs hrelation (by simp [Relation.inputs])
      obtain ⟨hget, -, hextent⟩ := hnumbers parent hparent
      have hderived := (h.rangesFollow hvars hlinked hrelation _ _ _ hget hsize hextent
        ((hnumbers parent hparent).floorMod? (hpositive parent hparent) hsize.contains hsize.pos)).2
      have hmade : (fixedAndDerived outer inner size).2 ∈ stage.defined :=
        mem_defined_of_mem_outputs hrelation ((mem_outputs_split_iff _ _ _ _ _).mpr (.inr rfl))
      have hquotient := hpositive _ hmade
      rw [(IterMap.box_of_get? hderived).2, splitExtents, if_neg hremainder] at hquotient
      have hone := hpositive parent hparent
      have hgiven := hsize.pos
      have hcontains := hsize.contains
      rw [DType.contains_iff] at hextent hcontains ⊢
      by_contra habove
      have hnegative : dtype.truncate (inferred.ranges.box.extent parent + (given' - 1)) < 0 :=
        DType.truncate_neg_of_maxValue_lt h.signed (by omega) (by omega)
      have hquotient' := Int.ediv_neg_of_neg_of_pos hnegative (by omega : 0 < given')
      omega
  | fuse | rebase | singleton => trivial

end ZeroBased

/-- The loops of an assembled stage are iteration variables. -/
theorem Assembled.hasVars {aside : List IterId} (h : stage.Assembled aside) : stage.HasVars := by
  intro id hid
  obtain ⟨iv, hiv⟩ := exists_iterVar_iff.mpr (h.mem_ids_of_mem_defined hid)
  exact ⟨iv, iterVar?_eq_some hiv⟩

/-- On a stage of one signed type whose roots start at zero, put together by any commands,
the two passes over indices undo each other if and only if no sum that rounds up the extent
of a split wraps. -/
theorem roundTrips_iff (name : String) (scope : StorageScope) (commands : List Command)
    {state inferred : Inference}
    (h : ((Stage.empty name scope).executeAll commands).ZeroBased dtype state inferred) :
    ((Stage.empty name scope).executeAll commands).RoundTrips inferred.ranges ↔
      ∀ relation ∈ ((Stage.empty name scope).executeAll commands).relations,
        inferred.ranges.box.RoundsWithin dtype relation := by
  have hassembled := (Assembled.empty name scope).executeAll commands
  constructor
  · intro htrips relation hrelation
    exact h.rounds_of_positive hassembled.hasVars hassembled.toLinked
      (h.positive hassembled.hasVars hassembled.toLinked htrips) hrelation
  · exact h.roundTrips hassembled.hasVars hassembled.toLinked

/-- A root of a hundred values of eight bits, split by sixty: rounding up asks for 159. -/
def wrappedSplit : Stage :=
  (empty "compute" .globalMemory).executeAll
    [.rootVar ⟨⟨.parameter 0, "i", .int8⟩, some (.between .int8 0 100), .parallel⟩,
      .split ⟨0⟩ (.const .int8 60)]

/-- The range of the root, and nothing else. -/
def wrappedStart : Inference :=
  .insert .empty ⟨0⟩ ⟨.parameter 0, "i", .int8⟩ (.between .int8 0 100)

theorem not_roundTrips_of_wrappedSplit : ∃ inferred,
    wrappedSplit.ZeroBased .int8 wrappedStart inferred ∧
      ¬wrappedSplit.RoundTrips inferred.ranges := by
  have hsplit : wrappedSplit.relations =
      [.split ⟨0⟩ ⟨1⟩ ⟨2⟩ (.factor (.const .int8 60))] := rfl
  obtain ⟨inferred, hbased, hextent⟩ : ∃ inferred,
      wrappedSplit.ZeroBased .int8 wrappedStart inferred ∧
        inferred.ranges.box.extent ⟨0⟩ = 100 := by
    refine ⟨_, ⟨rfl, by decide, ?_, Facts.consistent_of_unconstrained rfl, ?_, by decide, rfl, ?_⟩,
      rfl⟩
    · rw [hsplit, List.forall_mem_singleton]
      exact ⟨60, rfl, by decide, by decide⟩
    · rw [show wrappedSplit.roots = [⟨0⟩] from rfl, List.forall_mem_singleton]
      exact ⟨100, rfl, by decide, by decide⟩
    · rw [hsplit, List.forall_mem_singleton]
      trivial
  refine ⟨inferred, hbased, fun htrips => ?_⟩
  have hrounds := (roundTrips_iff _ _ _ hbased).mp htrips
  have hwraps := hrounds (.split ⟨0⟩ ⟨1⟩ ⟨2⟩ (.factor (.const .int8 60))) (by decide) 60 rfl
  rw [hextent] at hwraps
  exact absurd (hwraps (by decide)) (by decide)

end Stage

end LoopNest
