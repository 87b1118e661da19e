/-
# Indices at a point

Where the ranges are literal and a point stays inside all of them, no node of an index can
wrap: what is put together stays below the product of two extents, and what is taken apart
gets smaller. So upward an index has the value of its loop exactly when the point follows
the relation, and downward every index that is there has the value of its loop, provided
that the loop a split takes apart starts at zero. The minimum of that loop is not subtracted.
-/

import LoopNest.Proofs.Flow.Indices

namespace LoopNest

/-- If a loop has an index at all, then one with the value that the loop has at a point. -/
def IterMap.AgreesWith (indices : IterMap Expr) (dtype : DType) (assignment : Assignment)
    (value : IterId → Int) (id : IterId) : Prop :=
  ∀ index, indices.get? id = some index →
    index.TypedAt dtype ∧ index.eval assignment = .ok (value id)

namespace IterMap

variable {indices : IterMap Expr} {dtype : DType} {assignment : Assignment} {id : IterId}
  {x y : Int} {value : IterId → Int} {index : Expr}

theorem evaluatesTo_iff (hget : indices.get? id = some index) (htyped : index.TypedAt dtype)
    (heval : index.eval assignment = .ok y) :
    indices.EvaluatesTo dtype assignment id x ↔ x = y := by
  constructor
  · intro h
    rw [← h.valueAt_eq, valueAt_of_eval hget heval]
  · rintro rfl
    exact ⟨index, hget, htyped, heval⟩

theorem AgreesWith.evaluatesTo (h : indices.AgreesWith dtype assignment value id)
    (hknown : (indices.get? id).isSome = true) :
    indices.EvaluatesTo dtype assignment id (value id) := by
  obtain ⟨index, hindex⟩ := Option.isSome_iff_exists.mp hknown
  exact ⟨index, hindex, h index hindex⟩

theorem agreesWith_of_none (h : indices.get? id = none) :
    indices.AgreesWith dtype assignment value id := by
  intro index hindex
  rw [h] at hindex
  cases hindex

theorem agreesWith_of_eval (hget : indices.get? id = some index) (htyped : index.TypedAt dtype)
    (heval : index.eval assignment = .ok (value id)) :
    indices.AgreesWith dtype assignment value id := by
  intro other hother
  obtain rfl := Option.some.inj (hget.symm.trans hother)
  exact ⟨htyped, heval⟩

end IterMap

namespace Box

variable {box : Box} {stage : Stage} {value : IterId → Int} {relation : Relation} {id : IterId}

/-- A point that stays inside all ranges and follows all relations. -/
structure IsPoint (box : Box) (stage : Stage) (value : IterId → Int) : Prop where
  inside : ∀ id ∈ stage.defined, box.Contains id (value id)
  follows : ∀ relation ∈ stage.relations, box.Follows value relation

/-- The loop that a split takes apart starts at zero. -/
def SplitsAtZero (box : Box) : Relation → Prop
  | .split parent _ _ _ => box.low parent = 0
  | _ => True

theorem Contains.positive {x : Int} (h : box.Contains id x) : 1 ≤ box.extent id := by
  obtain ⟨hlow, hhigh⟩ := h
  omega

/-- A sum of a multiple and a remainder is taken apart again. -/
theorem ediv_emod_of_mul_add (outer : Int) {inner extent : Int} (h0 : 0 ≤ inner)
    (hlt : inner < extent) :
    (outer * extent + inner) / extent = outer ∧ (outer * extent + inner) % extent = inner := by
  rw [Int.add_comm, Int.add_mul_ediv_right _ _ (by omega), Int.add_mul_emod_self_right,
    Int.ediv_eq_zero_of_lt h0 hlt, Int.emod_eq_of_lt h0 hlt, zero_add]
  exact ⟨rfl, rfl⟩

end Box

/-- Literal ranges start at zero when their minima literally are zero. -/
theorem IterMap.HasNumbers.isZero_iff {ranges : IterMap Range} {dtype : DType} {id : IterId}
    (h : ranges.HasNumbers dtype id) :
    (∀ range ∈ ranges.get? id, range.min.isZero = true) ↔ ranges.box.low id = 0 := by
  simp [h.get?, Range.between, Expr.isZero, Expr.value?]

namespace Stage

variable {stage : Stage} {dtype : DType} {ranges : IterMap Range} {indices : IterMap Expr}
  {assignment : Assignment} {value : IterId → Int} {relation : Relation} {id : IterId}

/-- One relation upward: where the loops that are put together start at zero, their indices
have the values of a point exactly when the point follows the relation. -/
theorem IndicesFollow.evaluatesTo_iff (h : IndicesFollow dtype ranges.box indices.get? relation)
    (hinputs : ∀ id ∈ relation.inputs, ranges.HasNumbers dtype id ∧ ranges.box.low id = 0 ∧
      1 ≤ ranges.box.extent id)
    (hmade : ∀ id ∈ relation.outputs, ranges.HasNumbers dtype id ∧ ranges.box.low id = 0)
    (hproduct : ranges.box.ProductFits dtype relation)
    (hinside : ∀ id ∈ relation.outputs, ranges.box.Contains id (value id))
    (houtputs : ∀ id ∈ relation.outputs, indices.EvaluatesTo dtype assignment id (value id)) :
    (∀ id ∈ relation.inputs, indices.EvaluatesTo dtype assignment id (value id)) ↔
      ranges.box.Follows value relation := by
  have hnonneg : ∀ id ∈ relation.outputs, 0 ≤ value id := fun id hid =>
    (hmade id hid).2 ▸ (hinside id hid).1
  have hbelow : ∀ id ∈ relation.outputs, value id < ranges.box.extent id := by
    intro id hid
    have hhigh := (hinside id hid).2
    rw [(hmade id hid).2] at hhigh
    omega
  cases relation with
  | split parent outer inner size =>
      simp only [Relation.inputs, Relation.outputs, List.mem_cons, List.not_mem_nil, or_false,
        forall_eq, forall_eq_or_imp] at hinputs hmade houtputs hnonneg hbelow ⊢
      obtain ⟨-, hzero, -⟩ := hinputs
      obtain ⟨⟨first, hfirst, houter, hx⟩, second, hsecond, hinner, hy⟩ := houtputs
      obtain ⟨⟨-, -⟩, hnumbers, -⟩ := hmade
      have hconst := Expr.typedAt_const hnumbers.extent
      have htyped : (first.mul (.const dtype (ranges.box.extent inner))).TypedAt dtype :=
        houter.combine rfl hconst
      have hlower : 0 ≤ value outer * ranges.box.extent inner :=
        mul_nonneg hnonneg.1 (by omega)
      have hupper : value outer * ranges.box.extent inner ≤
          (ranges.box.extent outer - 1) * ranges.box.extent inner :=
        mul_le_mul_of_nonneg_right (by omega) (by omega)
      rw [sub_mul, one_mul] at hupper
      have hcontains : dtype.contains (value outer * ranges.box.extent inner + value inner) =
          true :=
        DType.contains_of_between (DType.contains_zero _) hproduct (by omega) (by omega)
      have hsum : ((first.mul (.const dtype (ranges.box.extent inner))).add second).eval
          assignment = .ok (value outer * ranges.box.extent inner + value inner) :=
        Expr.eval_mul_const_add houter hinner hnumbers.extent hx hy hlower hnonneg.2 hcontains
      have hget := h first second hfirst hsecond
      rw [Expr.offsetBy_const, if_pos hzero] at hget
      rw [IterMap.evaluatesTo_iff hget (htyped.combine rfl hinner) hsum, Box.Follows, hzero,
        sub_zero]
  | fuse outer inner fused =>
      simp only [Relation.inputs, Relation.outputs, List.mem_cons, List.not_mem_nil, or_false,
        forall_eq, forall_eq_or_imp] at hinputs houtputs hnonneg ⊢
      obtain ⟨⟨-, hzero, -⟩, hnumbers, hzero', hpositive⟩ := hinputs
      obtain ⟨index, hindex, htyped, hx⟩ := houtputs
      have hconst := Expr.typedAt_const hnumbers.extent
      obtain ⟨houter, hinner⟩ := h index hindex
      rw [Expr.offsetBy_const, if_pos hzero] at houter
      rw [Expr.offsetBy_const, if_pos hzero'] at hinner
      rw [IterMap.evaluatesTo_iff houter (htyped.combine rfl hconst)
          (Expr.eval_floorDiv_const htyped hpositive hnumbers.extent hx),
        IterMap.evaluatesTo_iff hinner (htyped.combine rfl hconst)
          (Expr.eval_floorMod_const_of_nonneg htyped hpositive hnumbers.extent hx hnonneg),
        Box.Follows, hzero, hzero', sub_zero, sub_zero]
  | rebase parent rebased =>
      simp only [Relation.inputs, Relation.outputs, List.mem_cons, List.not_mem_nil, or_false,
        forall_eq] at hinputs houtputs ⊢
      obtain ⟨-, hzero, -⟩ := hinputs
      obtain ⟨index, hindex, htyped, hx⟩ := houtputs
      have hget := h index hindex
      rw [Expr.offsetBy_const, if_pos hzero] at hget
      rw [IterMap.evaluatesTo_iff hget htyped hx, Box.Follows, hzero, sub_zero]
  | singleton iter => simp [Relation.inputs, Box.Follows]

/-- One relation downward: the indices that are taken apart have the values of a point, if
the loop that a split takes apart starts at zero. -/
theorem IndicesLowered.agreesWith (h : stage.IndicesLowered ranges indices.get? relation)
    (hlinked : stage.Linked) (htype : stage.HasType dtype)
    (hranges : stage.HasLiteralRanges dtype ranges) (hpoint : ranges.box.IsPoint stage value)
    (hrelation : relation ∈ stage.relations) (hcovers : ranges.box.Covers relation)
    (hsplit : ranges.box.SplitsAtZero relation)
    (hinputs : ∀ id ∈ relation.inputs, indices.AgreesWith dtype assignment value id) :
    ∀ id ∈ relation.outputs, indices.AgreesWith dtype assignment value id := by
  by_cases hstart : StartsAtZero ranges relation
  case neg => exact fun id hid => IterMap.agreesWith_of_none (h.2 hstart id hid)
  have htaken := h.1 hstart
  have hinput : ∀ id ∈ relation.inputs, ranges.HasNumbers dtype id ∧
      ranges.box.Contains id (value id) := fun id hid =>
    ⟨hranges.loops id (hlinked.mem_defined_of_mem_inputs hrelation hid),
      hpoint.inside id (hlinked.mem_defined_of_mem_inputs hrelation hid)⟩
  have houtput : ∀ id ∈ relation.outputs, ranges.HasNumbers dtype id ∧
      ranges.box.Contains id (value id) ∧ ranges.box.low id = 0 := fun id hid =>
    ⟨hranges.loops id (mem_defined_of_mem_outputs hrelation hid),
      hpoint.inside id (mem_defined_of_mem_outputs hrelation hid),
      hranges.made relation hrelation id hid⟩
  have hfollows := hpoint.follows relation hrelation
  cases relation with
  | split parent outer inner size =>
      simp only [Relation.inputs, Relation.outputs, List.mem_cons, List.not_mem_nil, or_false,
        forall_eq, forall_eq_or_imp] at hinputs hinput houtput ⊢
      obtain ⟨-, hnumbers, hinside, hzero⟩ := houtput
      have hpositive := hinside.positive
      obtain ⟨hlow, hhigh⟩ := hinside
      rw [hzero, zero_add] at hhigh
      rw [hzero] at hlow
      rw [Box.Follows, hsplit, sub_zero] at hfollows
      obtain ⟨hquotient, hremainder⟩ := Box.ediv_emod_of_mul_add (value outer) hlow hhigh
      rw [← hfollows] at hquotient hremainder
      obtain ⟨houter, hinner⟩ := htaken _ hnumbers.get?
      cases hparent : indices.get? parent with
      | none =>
          rw [hparent] at houter hinner
          exact ⟨IterMap.agreesWith_of_none houter, IterMap.agreesWith_of_none hinner⟩
      | some index =>
          obtain ⟨htyped, hx⟩ := hinputs index hparent
          have hconst := Expr.typedAt_const hnumbers.extent
          have hnonneg : 0 ≤ value parent := hsplit ▸ hinput.2.1
          rw [hparent, Option.map_some] at houter hinner
          refine ⟨IterMap.agreesWith_of_eval houter (htyped.combine rfl hconst) ?_,
            IterMap.agreesWith_of_eval hinner (htyped.combine rfl hconst) ?_⟩
          · rw [← hquotient]
            exact Expr.eval_floorDiv_const htyped hpositive hnumbers.extent hx
          · rw [← hremainder]
            exact Expr.eval_floorMod_const_of_nonneg htyped hpositive hnumbers.extent hx hnonneg
  | fuse outer inner fused =>
      have hstarts : ∀ id ∈ [outer, inner], ranges.box.low id = 0 :=
        fun id hid => (hinput id hid).1.isZero_iff.mp (hstart id hid)
      simp only [Relation.inputs, Relation.outputs, List.mem_cons, List.not_mem_nil, or_false,
        forall_eq, forall_eq_or_imp] at hinputs hinput houtput hstarts ⊢
      obtain ⟨-, hnumbers, hinside⟩ := hinput
      obtain ⟨hfused, ⟨hlow, hhigh⟩, hzero⟩ := houtput
      rw [hzero] at hlow hhigh
      rw [Box.Follows, hstarts.1, hstarts.2, sub_zero, sub_zero] at hfollows
      obtain ⟨hquotient, hremainder⟩ := hfollows
      have hsplit := Int.ediv_mul_add_emod (value fused) (ranges.box.extent inner)
      rw [← hquotient, ← hremainder] at hsplit
      have hpositive := hinside.positive
      have hinner := hinside.1
      rw [hstarts.2] at hinner
      have houter : 0 ≤ value outer := hquotient ▸ Int.ediv_nonneg hlow (by omega)
      have hproduct := mul_nonneg houter (by omega : 0 ≤ ranges.box.extent inner)
      have hcontains : dtype.contains (value fused) = true :=
        DType.contains_of_between (DType.contains_zero _) hfused.extent hlow (by omega)
      have hget := htaken _ hnumbers.get?
      cases houterIndex : indices.get? outer with
      | none => exact IterMap.agreesWith_of_none (by rw [hget, houterIndex]; rfl)
      | some first =>
      cases hinnerIndex : indices.get? inner with
      | none => exact IterMap.agreesWith_of_none (by rw [hget, houterIndex, hinnerIndex]; rfl)
      | some second =>
          obtain ⟨htyped, hx⟩ := hinputs.1 first houterIndex
          obtain ⟨htyped', hy⟩ := hinputs.2 second hinnerIndex
          have hmulTyped : (first.mul (.const dtype (ranges.box.extent inner))).TypedAt dtype :=
            htyped.combine rfl (Expr.typedAt_const hnumbers.extent)
          rw [houterIndex, hinnerIndex, Option.bind_some, Option.map_some] at hget
          refine IterMap.agreesWith_of_eval hget (hmulTyped.combine rfl htyped') ?_
          rw [← hsplit] at hcontains ⊢
          exact Expr.eval_mul_const_add htyped htyped' hnumbers.extent hx hy hproduct hinner
            hcontains
  | rebase parent rebased =>
      have hzero : ranges.box.low parent = 0 :=
        (hinput parent (by simp [Relation.inputs])).1.isZero_iff.mp
          (hstart parent (by simp [Relation.zeroBased]))
      simp only [Relation.inputs, Relation.outputs, List.mem_cons, List.not_mem_nil, or_false,
        forall_eq] at hinputs ⊢
      rw [Box.Follows, hzero, sub_zero] at hfollows
      intro index hindex
      rw [← hfollows]
      exact hinputs index (htaken.symm.trans hindex)
  | singleton iter =>
      obtain ⟨iv, hiv, hdtype⟩ := htype iter (mem_defined_of_mem_outputs hrelation (by
        simp [Relation.outputs]))
      simp only [Relation.outputs, List.mem_cons, List.not_mem_nil, or_false, forall_eq]
        at houtput ⊢
      obtain ⟨-, ⟨hlow, hhigh⟩, -⟩ := houtput
      obtain ⟨hzero, hextent⟩ := hcovers
      have hvalue : value iter = 0 := by omega
      have hget := htaken iv hiv
      rw [hdtype, Expr.zero, Expr.literal, DType.truncate_zero] at hget
      refine IterMap.agreesWith_of_eval hget (Expr.typedAt_const (DType.contains_zero _)) ?_
      rw [hvalue]
      exact Expr.eval_const_of_contains (DType.contains_zero _)

/-- The variables of the roots have the values of a point. -/
def RootsAt (stage : Stage) (value : IterId → Int) (assignment : Assignment) : Prop :=
  ∀ root ∈ stage.roots, ∃ iv, stage.iterVar? root = some iv ∧
    assignment iv.var = some (value root)

/-- All relations downward: the indices that are there have the values of the point that the
roots belong to, if no split takes apart a loop with an offset. -/
theorem TakesApart.agreesWith {lenient : Bool} {seed : IterMap Expr}
    (h : stage.TakesApart ranges lenient seed indices) (hlinked : stage.Linked)
    (htype : stage.HasType dtype) (hranges : stage.HasLiteralRanges dtype ranges)
    (hpoint : ranges.box.IsPoint stage value)
    (hcovers : ∀ relation ∈ stage.relations, ranges.box.Covers relation)
    (hsplits : ∀ relation ∈ stage.relations, ranges.box.SplitsAtZero relation)
    (hseed : ∀ id ∈ stage.roots, seed.get? id = some (stage.exprOf id))
    (hroots : stage.RootsAt value assignment)
    (hcontains : ∀ root ∈ stage.roots, dtype.contains (value root) = true) :
    ∀ id ∈ stage.defined, indices.AgreesWith dtype assignment value id := by
  refine hlinked.induction_down (fun root hroot => ?_) fun relation hrelation =>
    (h.relations relation hrelation).agreesWith hlinked htype hranges hpoint hrelation
      (hcovers relation hrelation) (hsplits relation hrelation)
  obtain ⟨iv, hiv, hvalue⟩ := hroots root hroot
  obtain ⟨other, hother, hdtype⟩ := htype root (mem_defined_of_mem_roots hroot)
  obtain rfl := Option.some.inj (hiv.symm.trans hother)
  have hcontains : iv.dtype.contains (value root) = true := by
    rw [hdtype]
    exact hcontains root hroot
  refine IterMap.agreesWith_of_eval ((h.roots root hroot).trans (hseed root hroot)) ?_ ?_
  · rw [exprOf_eq hiv]
    exact ⟨⟨trivial, trivial⟩, hdtype⟩
  · rw [exprOf_eq hiv]
    exact Expr.eval_var_of_contains hvalue hcontains

end Stage

end LoopNest
