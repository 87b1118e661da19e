/-
# Reconstructed indices

Reconstruction finds an index for every loop once the leaves have theirs, and the
indices are put together the way the relations take the loops apart. Where no node of
an index leaves its type, the values of all indices form a point that follows the
relations.
-/

import LoopNest.Flow.Indices
import LoopNest.Proofs.Expr.Index
import LoopNest.Proofs.Flow.Ranges
import LoopNest.Proofs.Flow.Reconstruct

namespace LoopNest

namespace Expr

variable {e : Expr} {low extent x : Int} {assignment : Assignment}

/-- A division by the literal zero is left as it is. -/
theorem combine_zero_divisor {op : BinaryOp} (htyped : e.TypedAt .int32)
    (hop : op = .floorDiv ∨ op = .floorMod) :
    combine op e (const .int32 0) = binary op e (const .int32 0) := by
  rw [combine_of_dtype_eq op htyped.dtype_eq, foldNode]
  rcases hop with rfl | rfl <;> cases e.value? <;>
    simp [foldLiterals?, value?, BinaryOp.compute?, Word.floorMod?, Word.floorDiv?,
      foldNeutral?, isOne, keepOffsetPositive]

theorem IsOpenOr.floorDiv_const (h : e.IsOpenOr 0) (htyped : e.TypedAt .int32) :
    (e.floorDiv (const .int32 extent)).IsOpenOr 0 := by
  by_cases hextent : extent = 0
  · rw [hextent, floorDiv, combine_zero_divisor htyped (.inl rfl)]
    exact fun _ hvalue => nomatch hvalue
  · exact h.combine (isOpenOr_const _ _) htyped.dtype_eq rfl
      (by simp [BinaryOp.compute?, Word.floorDiv?, hextent, Word.check, Word.fits, Word.least,
        Word.greatest]) (DType.contains_zero _)

theorem IsOpenOr.floorMod_const (h : e.IsOpenOr 0) (htyped : e.TypedAt .int32) :
    (e.floorMod (const .int32 extent)).IsOpenOr 0 := by
  by_cases hextent : extent = 0
  · rw [hextent, floorMod, combine_zero_divisor htyped (.inr rfl)]
    exact fun _ hvalue => nomatch hvalue
  · exact h.combine (isOpenOr_const _ _) htyped.dtype_eq rfl
      (by simp [BinaryOp.compute?, Word.floorMod?, Word.floorDiv?, Word.mul?, hextent, Word.check,
        Word.fits, Word.least, Word.greatest]) (DType.contains_zero _)

end Expr

namespace Stage

variable {stage : Stage} {dtype : DType} {ranges : IterMap Range} {relation : Relation}
  {seed indices : IterMap Expr}

/-- Every loop is an iteration variable of one type. -/
def HasType (stage : Stage) (dtype : DType) : Prop :=
  ∀ id ∈ stage.defined, ∃ iv, stage.iterVar? id = some iv ∧ iv.dtype = dtype

theorem HasType.hasVars (h : stage.HasType dtype) : stage.HasVars := by
  intro id hid
  obtain ⟨iv, hiv, -⟩ := h id hid
  exact ⟨iv, hiv⟩

/-- All loops have literal ranges, and those that relations make start at zero. -/
structure HasLiteralRanges (stage : Stage) (dtype : DType) (ranges : IterMap Range) : Prop where
  loops : ∀ id ∈ stage.defined, ranges.HasNumbers dtype id
  made : ∀ relation ∈ stage.relations, ∀ id ∈ relation.outputs, ranges.box.low id = 0

theorem HasLiteralRanges.hasRanges (h : stage.HasLiteralRanges dtype ranges) :
    stage.HasRanges ranges :=
  fun id hid => ⟨_, (h.loops id hid).get?⟩

/-- The indices around a relation are put together as it takes loops apart. -/
def IndicesFollow (dtype : DType) (box : Box) (indices : IterId → Option Expr) : Relation → Prop
  | .split parent outer inner _ => ∀ outerIndex innerIndex,
    indices outer = some outerIndex → indices inner = some innerIndex →
      indices parent = some (((outerIndex.mul (.const dtype (box.extent inner))).add
        innerIndex).offsetBy (.const dtype (box.low parent)))
  | .fuse outer inner fused => ∀ index, indices fused = some index →
    indices outer = some ((index.floorDiv (.const dtype (box.extent inner))).offsetBy
        (.const dtype (box.low outer))) ∧
      indices inner = some ((index.floorMod (.const dtype (box.extent inner))).offsetBy
        (.const dtype (box.low inner)))
  | .rebase parent rebased => ∀ index, indices rebased = some index →
    indices parent = some (index.offsetBy (.const dtype (box.low parent)))
  | .singleton _ => True

/-- One relation upward: between literal ranges of one type nothing is cast. -/
theorem IndicesRaised.follow {indices : IterId → Option Expr}
    (h : stage.IndicesRaised ranges indices relation) (hlinked : stage.Linked)
    (htype : stage.HasType dtype) (hranges : stage.HasLiteralRanges dtype ranges)
    (hrelation : relation ∈ stage.relations)
    (hready : ∀ id ∈ relation.outputs, ∃ e, indices id = some e ∧ e.TypedAt dtype) :
    IndicesFollow dtype ranges.box indices relation ∧
      ∀ id ∈ relation.inputs, ∃ e, indices id = some e ∧ e.TypedAt dtype := by
  have hvar : ∀ id ∈ relation.inputs, _ :=
    fun id hid => htype id (hlinked.mem_defined_of_mem_inputs hrelation hid)
  have hinput : ∀ id ∈ relation.inputs, _ :=
    fun id hid => hranges.loops id (hlinked.mem_defined_of_mem_inputs hrelation hid)
  have houtput : ∀ id ∈ relation.outputs, _ :=
    fun id hid => hranges.loops id (mem_defined_of_mem_outputs hrelation hid)
  have hconst : ∀ {id}, ranges.HasNumbers dtype id →
      (Expr.const dtype (ranges.box.extent id)).TypedAt dtype :=
    fun hid => Expr.typedAt_const hid.extent
  cases relation with
  | split parent outer inner size =>
      simp only [Relation.inputs, Relation.outputs, List.mem_cons, List.not_mem_nil, or_false,
        forall_eq, forall_eq_or_imp] at hvar hinput houtput hready ⊢
      obtain ⟨⟨first, hfirst, houter⟩, second, hsecond, hinner⟩ := hready
      obtain ⟨iv, hiv, hdtype⟩ := hvar
      have hsum : ((first.mul (.const dtype (ranges.box.extent inner))).add second).TypedAt dtype :=
        (houter.combine rfl (hconst houtput.2) : (first.mul _).TypedAt dtype).combine rfl hinner
      have htyped := hsum.offsetBy hinput.low
      have hget := h first second _ _ iv hfirst hsecond houtput.2.get? hinput.get? hiv
      rw [hdtype, Range.between, Range.between, Expr.castTo_of_dtype_eq htyped.dtype_eq] at hget
      refine ⟨fun first' second' hfirst' hsecond' => ?_, _, hget, htyped⟩
      rw [hget, ← Option.some.inj (hfirst.symm.trans hfirst'),
        ← Option.some.inj (hsecond.symm.trans hsecond')]
  | fuse outer inner fused =>
      simp only [Relation.inputs, Relation.outputs, List.mem_cons, List.not_mem_nil, or_false,
        forall_eq, forall_eq_or_imp] at hvar hinput houtput hready ⊢
      obtain ⟨index, hindex, hfused⟩ := hready
      obtain ⟨⟨outerVar, houterVar, houterType⟩, innerVar, hinnerVar, hinnerType⟩ := hvar
      have hquotient : (index.floorDiv (.const dtype (ranges.box.extent inner))).TypedAt dtype :=
        hfused.combine rfl (hconst hinput.2)
      have hremainder : (index.floorMod (.const dtype (ranges.box.extent inner))).TypedAt dtype :=
        hfused.combine rfl (hconst hinput.2)
      replace hquotient := hquotient.offsetBy hinput.1.low
      replace hremainder := hremainder.offsetBy hinput.2.low
      obtain ⟨houter, hinner⟩ := h index _ _ outerVar innerVar hindex hinput.1.get? hinput.2.get?
        houterVar hinnerVar
      simp only [Range.between, houterType, hinnerType, Expr.castTo_of_dtype_eq hquotient.dtype_eq,
        Expr.castTo_of_dtype_eq hremainder.dtype_eq] at houter hinner
      refine ⟨fun index' hindex' => ?_, ⟨_, houter, hquotient⟩, _, hinner, hremainder⟩
      rw [← Option.some.inj (hindex.symm.trans hindex')]
      exact ⟨houter, hinner⟩
  | rebase parent rebased =>
      simp only [Relation.inputs, Relation.outputs, List.mem_cons, List.not_mem_nil, or_false,
        forall_eq] at hinput hready ⊢
      obtain ⟨index, hindex, htyped⟩ := hready
      have hget := h index _ hindex hinput.get?
      refine ⟨fun index' hindex' => ?_, _, hget, htyped.offsetBy hinput.low⟩
      rw [hget, ← Option.some.inj (hindex.symm.trans hindex'), Range.between]
  | singleton iter => exact ⟨trivial, by simp [Relation.inputs]⟩

/-- All relations upward: the indices are of one type when those of the leaves are. -/
theorem Raises.follow (h : stage.Raises ranges seed indices) (hlinked : stage.Linked)
    (htype : stage.HasType dtype) (hranges : stage.HasLiteralRanges dtype ranges)
    (hseed : ∀ id ∈ stage.leaves, ∃ e, seed.get? id = some e ∧ e.TypedAt dtype) :
    (∀ id ∈ stage.defined, ∃ e, indices.get? id = some e ∧ e.TypedAt dtype) ∧
      ∀ relation ∈ stage.relations, IndicesFollow dtype ranges.box indices.get? relation := by
  have htyped : ∀ id ∈ stage.defined, ∃ e, indices.get? id = some e ∧ e.TypedAt dtype := by
    refine hlinked.induction_up (fun id hid => ?_) fun relation hrelation houtputs =>
      ((h.relations relation hrelation).follow hlinked htype hranges hrelation houtputs).2
    rw [h.leaves id hid]
    exact hseed id hid
  refine ⟨htyped, fun relation hrelation => ?_⟩
  exact ((h.relations relation hrelation).follow hlinked htype hranges hrelation fun id hid =>
    htyped id (mem_defined_of_mem_outputs hrelation hid)).1

/-- The index of every loop is a number, and a literal only if it is the start of its range. -/
def HasNumberIndices (stage : Stage) (box : Box) (indices : IterMap Expr) : Prop :=
  ∀ id ∈ stage.loops, ∀ e ∈ indices.get? id, e.TypedAt .int32 ∧ e.IsOpenOr (box.low id)

/-- What is known once the indices of all loops were computed from those of the leaves. -/
structure Indexes (stage : Stage) (ranges : IterMap Range) (leaves indices : IterMap Expr) :
    Prop where
  number : stage.HasNumberIndices ranges.box indices
  loops : ∀ id ∈ stage.loops, (indices.get? id).isSome
  leaves : ∀ id ∈ stage.leaves, indices.get? id = leaves.get? id
  relations : ∀ relation ∈ stage.relations, IndicesFollow .int32 ranges.box indices.get? relation

/-- One relation upward: what is put together can only be the literal that its range
starts at. -/
theorem IndicesFollow.isOpenOr {indices : IterId → Option Expr}
    (h : IndicesFollow .int32 ranges.box indices relation)
    (hinputs : ∀ id ∈ relation.inputs, ranges.HasNumbers .int32 id)
    (houtputs : ∀ id ∈ relation.outputs, ranges.HasNumbers .int32 id)
    (hready : ∀ id ∈ relation.outputs, ∃ e, indices id = some e ∧ e.TypedAt .int32 ∧
      e.IsOpenOr 0) :
    ∀ id ∈ relation.inputs, ∃ e, indices id = some e ∧ e.IsOpenOr (ranges.box.low id) := by
  cases relation with
  | split parent outer inner size =>
      simp only [Relation.inputs, Relation.outputs, List.mem_cons, List.not_mem_nil, or_false,
        forall_eq, forall_eq_or_imp] at hinputs houtputs hready ⊢
      obtain ⟨⟨first, hfirst, houter, hopen⟩, second, hsecond, hinner, hopen'⟩ := hready
      have hconst := Expr.typedAt_const houtputs.2.extent
      have hsum : ((first.mul (.const .int32 (ranges.box.extent inner))).add second).TypedAt
          .int32 :=
        (houter.combine rfl hconst : (first.mul _).TypedAt .int32).combine rfl hinner
      exact ⟨_, h first second hfirst hsecond,
        (hopen.mul_const_add hopen' houter hinner houtputs.2.extent).offsetBy hsum hinputs.low⟩
  | fuse outer inner fused =>
      simp only [Relation.inputs, Relation.outputs, List.mem_cons, List.not_mem_nil, or_false,
        forall_eq, forall_eq_or_imp] at hinputs hready ⊢
      obtain ⟨index, hindex, hfused, hopen⟩ := hready
      have hconst := Expr.typedAt_const hinputs.2.extent
      have hquotient : (index.floorDiv (.const .int32 (ranges.box.extent inner))).TypedAt .int32 :=
        hfused.combine rfl hconst
      have hremainder : (index.floorMod (.const .int32 (ranges.box.extent inner))).TypedAt .int32 :=
        hfused.combine rfl hconst
      obtain ⟨houter, hinner⟩ := h index hindex
      exact ⟨⟨_, houter, (hopen.floorDiv_const hfused).offsetBy hquotient hinputs.1.low⟩,
        _, hinner, (hopen.floorMod_const hfused).offsetBy hremainder hinputs.2.low⟩
  | rebase parent rebased =>
      simp only [Relation.inputs, Relation.outputs, List.mem_cons, List.not_mem_nil, or_false,
        forall_eq] at hinputs hready ⊢
      obtain ⟨index, hindex, htyped, hopen⟩ := hready
      exact ⟨_, h index hindex, hopen.offsetBy htyped hinputs.low⟩
  | singleton iter => simp [Relation.inputs]

theorem Regular.hasType (h : stage.Regular) : stage.HasType .int32 := by
  intro id hid
  obtain ⟨iv, hiv⟩ := h.hasVars id hid
  exact ⟨iv, hiv, h.dtype_eq hiv⟩

/-- The indices of all loops are found when the leaves have theirs. -/
theorem Regular.indicesUp_ok (h : stage.Regular) (hranges : stage.HasLiteralRanges .int32 ranges)
    {leaves : IterMap Expr} (hnumber : stage.HasNumberIndices ranges.box leaves)
    (hleaves : ∀ id ∈ stage.leaves, (leaves.get? id).isSome) :
    ∃ indices, stage.indicesUp ranges false leaves = .ok indices ∧
      stage.Indexes ranges leaves indices := by
  obtain ⟨indices, hflow, hraises⟩ := h.linked.indicesUp_ok h.hasVars hranges.hasRanges hleaves
  have hleaf : ∀ id ∈ stage.leaves, ∃ e, leaves.get? id = some e ∧ e.TypedAt .int32 ∧
      e.IsOpenOr (ranges.box.low id) := by
    intro id hid
    obtain ⟨e, he⟩ := Option.isSome_iff_exists.mp (hleaves id hid)
    exact ⟨e, he, hnumber id (h.mem_loops_of_mem_leaves hid) e he⟩
  obtain ⟨htyped, hfollow⟩ := hraises.follow h.linked h.hasType hranges fun id hid => by
    obtain ⟨e, he, htyped, -⟩ := hleaf id hid
    exact ⟨e, he, htyped⟩
  have hopen : ∀ id ∈ stage.defined, ∃ e, indices.get? id = some e ∧
      e.IsOpenOr (ranges.box.low id) := by
    refine h.linked.induction_up (fun id hid => ?_) fun relation hrelation houtputs =>
      (hfollow relation hrelation).isOpenOr
        (fun id hid => hranges.loops id (h.linked.mem_defined_of_mem_inputs hrelation hid))
        (fun id hid => hranges.loops id (mem_defined_of_mem_outputs hrelation hid))
        fun id hid => ?_
    · obtain ⟨e, he, -, hopen⟩ := hleaf id hid
      exact ⟨e, (hraises.leaves id hid).trans he, hopen⟩
    · obtain ⟨e, he, hopen⟩ := houtputs id hid
      obtain ⟨e', he', htyped⟩ := htyped id (mem_defined_of_mem_outputs hrelation hid)
      rw [hranges.made relation hrelation id hid] at hopen
      exact ⟨e, he, Option.some.inj (he'.symm.trans he) ▸ htyped, hopen⟩
  refine ⟨indices, hflow, fun id hid e he => ?_,
    fun id hid => hraises.known id (h.mem_defined_iff.mpr hid), hraises.leaves, hfollow⟩
  obtain ⟨e', he', htyped⟩ := htyped id (h.mem_defined_iff.mpr hid)
  obtain ⟨e'', he'', hopen⟩ := hopen id (h.mem_defined_iff.mpr hid)
  exact ⟨Option.some.inj (he'.symm.trans he) ▸ htyped, Option.some.inj (he''.symm.trans he) ▸ hopen⟩

end Stage

/-- The value of the index of a loop, or zero where it has none. -/
def IterMap.valueAt (indices : IterMap Expr) (assignment : Assignment) (id : IterId) : Int :=
  ((indices.get? id).bind fun index => (index.eval assignment).toOption).getD 0

/-- An index has a value. -/
def IterMap.HasValue (indices : IterMap Expr) (assignment : Assignment) (id : IterId) (x : Int) :
    Prop :=
  ∃ index, indices.get? id = some index ∧ index.eval assignment = .ok x

/-- An index is of a type and has a value. -/
def IterMap.EvaluatesTo (indices : IterMap Expr) (dtype : DType) (assignment : Assignment)
    (id : IterId) (x : Int) : Prop :=
  ∃ index, indices.get? id = some index ∧ index.TypedAt dtype ∧ index.eval assignment = .ok x

namespace IterMap

variable {indices : IterMap Expr} {dtype : DType} {assignment : Assignment} {id : IterId}
  {index : Expr} {x : Int}

theorem valueAt_of_eval (h : indices.get? id = some index) (hx : index.eval assignment = .ok x) :
    indices.valueAt assignment id = x := by
  simp [valueAt, h, hx, Except.toOption]

theorem HasValue.valueAt_eq (h : indices.HasValue assignment id x) :
    indices.valueAt assignment id = x := by
  obtain ⟨index, hindex, hx⟩ := h
  exact valueAt_of_eval hindex hx

theorem EvaluatesTo.hasValue (h : indices.EvaluatesTo dtype assignment id x) :
    indices.HasValue assignment id x := by
  obtain ⟨index, hindex, -, hx⟩ := h
  exact ⟨index, hindex, hx⟩

theorem EvaluatesTo.valueAt_eq (h : indices.EvaluatesTo dtype assignment id x) :
    indices.valueAt assignment id = x :=
  h.hasValue.valueAt_eq

end IterMap

namespace Stage

variable {stage : Stage} {ranges : IterMap Range} {leaves indices : IterMap Expr}
  {relation : Relation} {assignment : Assignment} {id : IterId}

/-- Every leaf indexed by its own variable. -/
def leafVariables (stage : Stage) : IterMap Expr :=
  .ofList (stage.leaves.filterMap fun leaf =>
    ((stage.iterVar? leaf).map IterVar.expr).map fun index => (leaf, index))

theorem get?_leafVariables {leaf : IterId} {iv : IterVar} (hleaf : leaf ∈ stage.leaves)
    (hiv : stage.iterVar? leaf = some iv) : stage.leafVariables.get? leaf = some iv.expr := by
  rw [leafVariables, IterMap.get?_ofList_filterMap, if_pos hleaf, hiv, Option.map_some]

/-- The index of a loop has a value, and its distance from the start of the range is a
natural number that fits. -/
def Reaches (ranges : IterMap Range) (indices : IterMap Expr) (assignment : Assignment)
    (id : IterId) : Prop :=
  ∃ index x, indices.get? id = some index ∧ index.eval assignment = .ok x ∧
    ranges.box.low id ≤ x ∧ DType.int32.contains (x - ranges.box.low id) = true

/-- An index that was moved to the start of the range of its loop. -/
theorem reaches_of_offsetBy {index : Expr} {x : Int}
    (hget : indices.get? id = some (index.offsetBy (.const .int32 (ranges.box.low id))))
    (hlow : DType.int32.contains (ranges.box.low id) = true) (htyped : index.TypedAt .int32)
    (hopen : index.IsOpenOr 0)
    (hexact : (index.offsetBy (.const .int32 (ranges.box.low id))).Exact assignment)
    (hx : index.eval assignment = .ok x) (hnonneg : 0 ≤ x) :
    Reaches ranges indices assignment id ∧
      indices.valueAt assignment id - ranges.box.low id = x := by
  obtain ⟨-, hvalue⟩ := hexact.of_offsetBy htyped hlow hopen hx
  obtain ⟨-, heval⟩ := hvalue hnonneg
  refine ⟨⟨_, _, hget, heval, by omega, ?_⟩, ?_⟩
  · rw [add_sub_cancel_right]
    exact htyped.dtype_eq ▸ Expr.eval_contains hx
  · rw [IterMap.valueAt_of_eval hget heval, add_sub_cancel_right]

/-- One relation upward: the indices of what it consumes have the values that the relation
puts together, as long as they are exact. -/
theorem Indexes.reaches_inputs (h : stage.Indexes ranges leaves indices) (hregular : stage.Regular)
    (hranges : stage.HasLiteralRanges .int32 ranges) (hfits : ranges.box.Fits stage)
    (hrelation : relation ∈ stage.relations)
    (hexact : ∀ id ∈ stage.loops, ∀ index ∈ indices.get? id, index.Exact assignment)
    (houtputs : ∀ id ∈ relation.outputs, Reaches ranges indices assignment id) :
    (∀ id ∈ relation.inputs, Reaches ranges indices assignment id) ∧
      ranges.box.Follows (indices.valueAt assignment) relation := by
  have hindex : ∀ id ∈ relation.outputs, ∃ e x, indices.get? id = some e ∧
      e.eval assignment = .ok x ∧ 0 ≤ x ∧ e.TypedAt .int32 ∧ e.IsOpenOr 0 ∧
        indices.valueAt assignment id = x := by
    intro id hid
    obtain ⟨e, x, he, hx, hlow, -⟩ := houtputs id hid
    obtain ⟨htyped, hopen⟩ := h.number id (hregular.mem_loops_of_mem_outputs hrelation hid) e he
    have hstart := hranges.made relation hrelation id hid
    rw [hstart] at hlow hopen
    exact ⟨e, x, he, hx, hlow, htyped, hopen, IterMap.valueAt_of_eval he hx⟩
  have hlow : ∀ id ∈ relation.inputs, DType.int32.contains (ranges.box.low id) = true :=
    fun id hid => (hranges.loops id (hregular.linked.mem_defined_of_mem_inputs hrelation hid)).low
  have hinput : ∀ id ∈ relation.inputs, ∀ index ∈ indices.get? id, index.Exact assignment :=
    fun id hid => hexact id (hregular.mem_loops_of_mem_inputs hrelation hid)
  have hfollows := h.relations relation hrelation
  have hextent : ∀ id ∈ stage.loops, 1 ≤ ranges.box.extent id ∧
      DType.int32.contains (ranges.box.extent id) = true :=
    fun id hid => ⟨hfits.positive id (hregular.mem_defined_iff.mpr hid),
      (hranges.loops id (hregular.mem_defined_iff.mpr hid)).extent⟩
  cases relation with
  | split parent outer inner size =>
      have hinner := hextent inner (hregular.mem_loops_of_mem_outputs hrelation (by
        simp [Relation.outputs]))
      simp only [Relation.inputs, Relation.outputs, List.mem_cons, List.not_mem_nil, or_false,
        forall_eq, forall_eq_or_imp] at hindex hlow hinput ⊢
      obtain ⟨⟨first, x, hfirst, hx, hx0, htyped, hopen, hvalue⟩,
        second, y, hsecond, hy, hy0, htyped', hopen', hvalue'⟩ := hindex
      have hget := hfollows first second hfirst hsecond
      have hexact := hinput _ hget
      have hconst := Expr.typedAt_const hinner.2
      have hsum := hexact.eval_mul_const_add htyped htyped' hopen hopen' hlow hinner.1 hinner.2
        hx hy hy0
      rw [Box.Follows, hvalue, hvalue']
      refine reaches_of_offsetBy hget hlow ?_
        (hopen.mul_const_add hopen' htyped htyped' hinner.2) hexact hsum
        (add_nonneg (mul_nonneg hx0 (by omega)) hy0)
      exact (htyped.combine rfl hconst : (first.mul _).TypedAt .int32).combine rfl htyped'
  | fuse outer inner fused =>
      have hinner := hextent inner (hregular.mem_loops_of_mem_inputs hrelation (by
        simp [Relation.inputs]))
      simp only [Relation.inputs, Relation.outputs, List.mem_cons, List.not_mem_nil, or_false,
        forall_eq, forall_eq_or_imp] at hindex hlow hinput ⊢
      obtain ⟨index, x, hindex, hx, hx0, htyped, hopen, hvalue⟩ := hindex
      obtain ⟨hgetOuter, hgetInner⟩ := hfollows index hindex
      have hconst := Expr.typedAt_const hinner.2
      obtain ⟨houter, hquotient⟩ := reaches_of_offsetBy hgetOuter hlow.1
        (htyped.combine rfl hconst) (hopen.floorDiv_const htyped) (hinput.1 _ hgetOuter)
        (Expr.eval_floorDiv_const htyped hinner.1 hinner.2 hx) (Int.ediv_nonneg hx0 (by omega))
      obtain ⟨hinner', hremainder⟩ := reaches_of_offsetBy hgetInner hlow.2
        (htyped.combine rfl hconst) (hopen.floorMod_const htyped) (hinput.2 _ hgetInner)
        (Expr.eval_floorMod_const htyped hinner.1 hinner.2 hx
          (Word.floorMod?_of_int32 (htyped.dtype_eq ▸ Expr.eval_contains hx) hinner.2 hinner.1))
        (Int.emod_nonneg _ (by omega))
      rw [Box.Follows, hvalue]
      exact ⟨⟨houter, hinner'⟩, hquotient, hremainder⟩
  | rebase parent rebased =>
      simp only [Relation.inputs, Relation.outputs, List.mem_cons, List.not_mem_nil, or_false,
        forall_eq] at hindex hlow hinput ⊢
      obtain ⟨index, x, hindex, hx, hx0, htyped, hopen, hvalue⟩ := hindex
      have hget := hfollows index hindex
      rw [Box.Follows, hvalue]
      exact reaches_of_offsetBy hget hlow htyped hopen (hinput _ hget) hx hx0
  | singleton iter => simp [Relation.inputs, Box.Follows]

/-- Where the indices of all loops are exact and those of the leaves stay in their ranges,
the values of all indices form a point that follows the relations. -/
theorem Indexes.follows (h : stage.Indexes ranges leaves indices) (hregular : stage.Regular)
    (hranges : stage.HasLiteralRanges .int32 ranges) (hfits : ranges.box.Fits stage)
    (hexact : ∀ id ∈ stage.loops, ∀ index ∈ indices.get? id, index.Exact assignment)
    (hleaves : ∀ id ∈ stage.leaves, ∃ index x, leaves.get? id = some index ∧
      index.eval assignment = .ok x ∧ ranges.box.Contains id x) :
    (∀ id ∈ stage.loops, Reaches ranges indices assignment id) ∧
      ∀ relation ∈ stage.relations, ranges.box.Follows (indices.valueAt assignment) relation := by
  have hreaches : ∀ id ∈ stage.loops, Reaches ranges indices assignment id := by
    refine hregular.induction_up (fun id hid => ?_) fun relation hrelation houtputs =>
      (h.reaches_inputs hregular hranges hfits hrelation hexact houtputs).1
    obtain ⟨index, x, hget, hx, hlow, hhigh⟩ := hleaves id hid
    obtain ⟨-, -, hextent⟩ := hranges.loops id (hregular.linked.mem_defined_of_mem_leaves hid)
    refine ⟨index, x, (h.leaves id hid).trans hget, hx, hlow, ?_⟩
    exact DType.contains_of_between (DType.contains_zero _) hextent (by omega) (by omega)
  refine ⟨hreaches, fun relation hrelation => ?_⟩
  exact (h.reaches_inputs hregular hranges hfits hrelation hexact fun id hid =>
    hreaches id (hregular.mem_loops_of_mem_outputs hrelation hid)).2

/-- Inferred ranges are literal, and all but those of the roots start at zero. -/
theorem Infers.hasLiteralRanges {supplied : IterMap Range} {inferred : Inference}
    (h : stage.Infers supplied inferred) (hregular : stage.Regular) :
    stage.HasLiteralRanges .int32 inferred.ranges :=
  ⟨fun _ hid => h.hasNumbers (hregular.mem_defined_iff.mp hid),
    fun _ hrelation _ => h.low_made hregular hrelation⟩

end Stage

end LoopNest
