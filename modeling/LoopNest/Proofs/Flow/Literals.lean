/-
# Literal ranges

Where the roots have literal ranges and splits have positive literal sizes, all inferred ranges
are literal, and those of derived loops start at zero. The literals may have different types,
because an extent that is computed from two others has the type in which they meet, and it
does not matter here whether an extent wraps.
-/

import LoopNest.Proofs.Flow.Extents
import LoopNest.Proofs.Flow.Indices
import LoopNest.Proofs.Flow.Projection
import LoopNest.Proofs.Stage.Derived

namespace LoopNest

namespace IterMap

variable {ranges : IterMap Range} {id : IterId} {range : Range} {low extent : Int}

/-- The range of a loop is literal, whatever types the literals have. -/
def IsLiteral (ranges : IterMap Range) (id : IterId) : Prop :=
  ∃ range, ranges.get? id = some range ∧ range.Spans (ranges.box.low id) (ranges.box.extent id)

theorem box_of_spans (h : ranges.get? id = some range) (hspans : range.Spans low extent) :
    ranges.box.low id = low ∧ ranges.box.extent id = extent := by
  simp [box, h, hspans.min.2, hspans.extent.2]

theorem isLiteral_of_get? (h : ranges.get? id = some range) (hspans : range.Spans low extent) :
    ranges.IsLiteral id := by
  obtain ⟨hlow, hextent⟩ := box_of_spans h hspans
  exact ⟨range, h, hlow.symm ▸ hextent.symm ▸ hspans⟩

end IterMap

section Numbers

variable {e divisor : Expr} {x n : Int} {facts : Facts}

/-- What numbers compute to is a number, whether it wraps or not. -/
theorem Expr.exists_isNumber_combine (op : BinaryOp) (hop : op.isPredicate = false)
    (hx : e.IsNumber x) (hn : divisor.IsNumber n) {result : Int}
    (hresult : op.compute? x n = some result) : ∃ v, (combine op e divisor).IsNumber v := by
  obtain ⟨dtype, rfl, hleft⟩ := hx.exists_const
  obtain ⟨dtype', rfl, hright⟩ := hn.exists_const
  refine ⟨(dtype.join dtype').truncate result, ?_⟩
  rw [combine_join op hleft hright, combine_const hresult, resultType, hop]
  exact isNumber_const (DType.contains_truncate _ _)

theorem Expr.exists_isNumber_castTo (hx : e.IsNumber x) (dtype : DType) :
    ∃ v, (e.castTo dtype).IsNumber v := by
  unfold castTo
  split
  · exact ⟨x, hx⟩
  · rw [hx.2]
    exact ⟨_, isNumber_const (DType.contains_truncate _ _)⟩

theorem Facts.exists_isNumber_smallerOrSecond (hx : e.IsNumber x) (hn : divisor.IsNumber n) :
    ∃ v, (facts.smallerOrSecond e divisor).IsNumber v := by
  unfold smallerOrSecond
  split
  · exact ⟨x, hx.simplify facts⟩
  · exact ⟨n, hn.simplify facts⟩

theorem Facts.exists_isNumber_ceilDiv (hx : e.IsNumber x) (hn : divisor.IsNumber n)
    (hpos : 1 ≤ n) : ∃ v, (facts.ceilDiv e divisor).IsNumber v := by
  unfold ceilDiv
  split
  · exact ⟨_, (Expr.isNumber_floorDiv hx hn hpos).simplify facts⟩
  · obtain ⟨_, hless⟩ := Expr.exists_isNumber_combine .sub rfl hn
      (Expr.isNumber_one divisor.dtype) rfl
    obtain ⟨_, hsum⟩ := Expr.exists_isNumber_combine .add rfl hx hless rfl
    exact ⟨_, (Expr.isNumber_floorDiv hsum hn hpos).simplify facts⟩

theorem Range.spans_ofExtent (hx : e.IsNumber x) : (ofExtent e).Spans 0 x :=
  ⟨Expr.isNumber_zero _, hx⟩

end Numbers

namespace Stage

variable {stage : Stage} {ranges : IterMap Range} {relation : Relation} {facts : Facts}
  {constraints : List Expr}

/-- One relation downward: what it makes of literal ranges is literal and starts at zero. -/
theorem RangesInferred.isLiteral (h : stage.RangesInferred constraints ranges.get? relation)
    (hsize : ∃ dtype, relation.HasConstSize dtype)
    (hinputs : ∀ id ∈ relation.inputs, ranges.IsLiteral id) :
    ∀ id ∈ relation.outputs, ranges.IsLiteral id ∧ ranges.box.low id = 0 := by
  have hmade : ∀ {id : IterId} {e : Expr}, ranges.get? id = some (.ofExtent e) →
      (∃ x, e.IsNumber x) → ranges.IsLiteral id ∧ ranges.box.low id = 0 := by
    intro id e hget ⟨x, hx⟩
    have hspans := Range.spans_ofExtent hx
    exact ⟨IterMap.isLiteral_of_get? hget hspans, (IterMap.box_of_spans hget hspans).1⟩
  cases relation with
  | split parent outer inner size =>
      obtain ⟨dtype, given, hgiven⟩ := hsize
      rw [Relation.inputs, List.forall_mem_singleton] at hinputs
      obtain ⟨range, hrange, hspans⟩ := hinputs
      obtain ⟨facts, -, hfixed, hderived⟩ := h range hrange
      have hnumber : size.extent.IsNumber given :=
        hgiven.eq ▸ Expr.isNumber_const hgiven.contains
      have hmadeFixed := hmade hfixed (by
        split
        · exact Expr.exists_isNumber_castTo hnumber _
        · obtain ⟨_, hcut⟩ := Facts.exists_isNumber_smallerOrSecond hspans.extent hnumber
          exact Expr.exists_isNumber_castTo hcut _)
      have hmadeDerived := hmade hderived
        (Facts.exists_isNumber_ceilDiv hspans.extent hnumber hgiven.pos)
      simp only [Relation.outputs, List.forall_mem_cons]
      cases size with
      | factor factor => exact ⟨hmadeDerived, hmadeFixed, by simp⟩
      | parts parts => exact ⟨hmadeFixed, hmadeDerived, by simp⟩
  | fuse outer inner fused =>
      simp only [Relation.inputs, List.forall_mem_cons] at hinputs
      obtain ⟨⟨outerRange, houter, houterSpans⟩, ⟨innerRange, hinner, hinnerSpans⟩, -⟩ := hinputs
      obtain ⟨facts, -, hfused⟩ := h outerRange innerRange houter hinner
      obtain ⟨_, hproduct⟩ := Expr.exists_isNumber_combine .mul rfl houterSpans.extent
        hinnerSpans.extent rfl
      rw [Relation.outputs, List.forall_mem_singleton]
      exact hmade hfused ⟨_, hproduct.simplify facts⟩
  | rebase parent rebased =>
      rw [Relation.inputs, List.forall_mem_singleton] at hinputs
      obtain ⟨range, hrange, hspans⟩ := hinputs
      rw [Relation.outputs, List.forall_mem_singleton]
      exact hmade (h range hrange) ⟨_, hspans.extent⟩
  | singleton iter =>
      obtain ⟨iv, -, hrange⟩ := h
      rw [Relation.outputs, List.forall_mem_singleton]
      exact hmade hrange ⟨_, Expr.isNumber_const (DType.contains_truncate _ _)⟩

/-- Loops derived from loops of 32 bits have 32 bits. -/
theorem Linked.hasType_int32 (h : stage.Linked)
    (hintroduces : ∀ relation ∈ stage.relations, stage.Introduces relation)
    (hroots : ∀ root ∈ stage.roots, ∃ iv, stage.iterVar? root = some iv ∧ iv.dtype = .int32) :
    stage.HasType .int32 := by
  have hderived : ∀ {id dtype}, stage.IsDerived dtype id → dtype = .int32 →
      ∃ iv, stage.iterVar? id = some iv ∧ iv.dtype = .int32 := by
    rintro id dtype ⟨iv, hiv, -, -, hdtype⟩ hint
    exact ⟨iv, hiv, hdtype.trans hint⟩
  refine h.induction_down hroots fun relation hrelation hinputs => ?_
  have hmade := hintroduces relation hrelation
  have hsame : ∀ {id : IterId} {iv : IterVar}, id ∈ relation.inputs →
      stage.iterVar? id = some iv → iv.dtype = .int32 := by
    intro id iv hid hiv
    obtain ⟨found, hfound, hdtype⟩ := hinputs id hid
    exact Option.some.inj (hfound.symm.trans hiv) ▸ hdtype
  cases relation with
  | split parent outer inner size =>
      obtain ⟨iv, hiv, houter, hinner⟩ := hmade
      have hint := hsame (by simp [Relation.inputs]) hiv
      simp only [Relation.outputs, List.forall_mem_cons]
      exact ⟨hderived houter hint, hderived hinner hint, by simp⟩
  | fuse outer inner fused =>
      obtain ⟨outerVar, innerVar, houter, hinner, hfused⟩ := hmade
      rw [Relation.outputs, List.forall_mem_singleton]
      refine hderived hfused ?_
      rw [hsame (by simp [Relation.inputs]) houter, hsame (by simp [Relation.inputs]) hinner,
        DType.join_self]
  | rebase parent rebased =>
      obtain ⟨iv, hiv, hrebased⟩ := hmade
      rw [Relation.outputs, List.forall_mem_singleton]
      exact hderived hrebased (hsame (by simp [Relation.inputs]) hiv)
  | singleton iter =>
      rw [Relation.outputs, List.forall_mem_singleton]
      exact hderived hmade rfl

/-- Loops of 32 bits whose ranges are literal. Those that relations make start at zero, and
those of the roots start at a number of 32 bits. -/
structure RangesLiterally (stage : Stage) (ranges : IterMap Range) : Prop where
  hasType : stage.HasType .int32
  loops : ∀ id ∈ stage.defined, ranges.IsLiteral id
  made : ∀ relation ∈ stage.relations, ∀ id ∈ relation.outputs, ranges.box.low id = 0
  roots : ∀ root ∈ stage.roots, ∀ range ∈ ranges.get? root, range.min.dtype = .int32

theorem RangesLiterally.hasRanges (h : stage.RangesLiterally ranges) : stage.HasRanges ranges :=
  fun id hid => (h.loops id hid).imp fun _ hrange => hrange.1

/-- Ranges to start from: roots of 32 bits with literal ranges, and none for derived loops.
Splits have positive literal sizes, and falsehood was not assumed. -/
structure StartsLiterally (stage : Stage) (state : Inference) : Prop where
  consistent : state.facts.Consistent
  sizes : ∀ relation ∈ stage.relations, ∃ dtype, relation.HasConstSize dtype
  roots : ∀ root ∈ stage.roots, (∃ iv, stage.iterVar? root = some iv ∧ iv.dtype = .int32) ∧
    ∃ low extent, state.ranges.get? root = some (.between .int32 low extent) ∧
      DType.int32.contains low = true ∧ DType.int32.contains extent = true
  fresh : ∀ relation ∈ stage.relations, ∀ id ∈ relation.outputs, state.ranges.get? id = none

/-- All relations downward. The induction is on the relations, from the roots on. -/
theorem Linked.rangesLiterally {state inferred : Inference} (h : stage.Linked)
    (hvars : stage.HasVars)
    (hintroduces : ∀ relation ∈ stage.relations, stage.Introduces relation)
    (hseeds : stage.StartsLiterally state) (hdown : stage.rangesDown false state = .ok inferred) :
    stage.RangesLiterally inferred.ranges ∧ inferred.facts.Consistent := by
  have hknown : ∀ root ∈ stage.roots, (state.ranges.get? root).isSome := by
    intro root hroot
    obtain ⟨-, _, _, hrange, -⟩ := hseeds.roots root hroot
    rw [hrange]
    rfl
  have hfresh : ∀ id ∈ stage.relations.flatMap Relation.outputs, state.ranges.get? id = none := by
    intro id hid
    obtain ⟨relation, hrelation, hmade⟩ := List.mem_flatMap.mp hid
    exact hseeds.fresh relation hrelation id hmade
  have hinferred := h.infersFrom hvars hknown hfresh hdown
  have hroot : ∀ root ∈ stage.roots, ∃ low extent,
      inferred.ranges.get? root = some (.between .int32 low extent) ∧
        DType.int32.contains low = true ∧ DType.int32.contains extent = true := by
    intro root hroot
    obtain ⟨-, low, extent, hrange, hlow, hextent⟩ := hseeds.roots root hroot
    exact ⟨low, extent, (hinferred.roots root hroot).trans hrange, hlow, hextent⟩
  have hstep : ∀ relation ∈ stage.relations,
      (∀ id ∈ relation.inputs, inferred.ranges.IsLiteral id) →
        ∀ id ∈ relation.outputs, inferred.ranges.IsLiteral id ∧ inferred.ranges.box.low id = 0 :=
    fun relation hrelation => (hinferred.relations relation hrelation).isLiteral
      (hseeds.sizes relation hrelation)
  have hloops : ∀ id ∈ stage.defined, inferred.ranges.IsLiteral id := by
    refine h.induction_down (fun root hid => ?_) fun relation hrelation hinputs id hid =>
      (hstep relation hrelation hinputs id hid).1
    obtain ⟨low, extent, hrange, hlow, hextent⟩ := hroot root hid
    exact IterMap.isLiteral_of_get? hrange
      ⟨Expr.isNumber_const hlow, Expr.isNumber_const hextent⟩
  refine ⟨⟨h.hasType_int32 hintroduces fun root hroot => (hseeds.roots root hroot).1, hloops,
    fun relation hrelation id hid => ?_, fun root hid range hrange => ?_⟩, ?_⟩
  · exact (hstep relation hrelation (fun id hid =>
      hloops id (h.mem_defined_of_mem_inputs hrelation hid)) id hid).2
  · obtain ⟨low, extent, hget, -⟩ := hroot root hid
    obtain rfl := Option.some.inj (hget.symm.trans hrange)
    rfl
  · rw [Facts.Consistent, hinferred.constraints]
    exact hseeds.consistent

end Stage

end LoopNest
