/-
# Indices of fused loops of different types

A loop that fuses two others has the type in which theirs meet, and its index is computed
downward as the index of the outer loop times the extent of the inner one plus the index of
the inner loop. The extent is a literal, so it takes the type of the outer index, and the
product is computed in that type before the sum is widened.

Where the outer loop has the narrower type the product may therefore wrap, although the type
of the fused loop holds it. Two roots are flattened exactly if the last row starts at a number
of the type of the outer loop.
-/

import LoopNest.Proofs.Expr.Widened
import LoopNest.Proofs.Flow.RoundTrip
import LoopNest.Proofs.Stage.Derived

namespace LoopNest

namespace DType

/-- Wrapping one factor makes no difference to the wrapped product. -/
theorem truncate_mul_truncate (dtype : DType) (x y : Int) :
    dtype.truncate (x * dtype.truncate y) = dtype.truncate (x * y) := by
  by_cases hbool : dtype = bool
  · subst hbool
    by_cases hy : y = 0 <;> simp [truncate, hy]
  · exact truncate_congr ((truncate_modEq hbool y).mul_left x)

end DType

namespace Expr

variable {assignment : Assignment} {op : BinaryOp} {lhs rhs : Expr} {dtype : DType}
  {x y result : Int}

/-- Operands whose values and whose result fit the type they meet in evaluate to what the
operator computes. -/
theorem eval_combine_promoted (hop : op.isPredicate = false) (hlhs : lhs.WellTyped)
    (hrhs : rhs.WellTyped) (hx : lhs.eval assignment = .ok x) (hy : rhs.eval assignment = .ok y)
    (hdtype : (promote lhs rhs).1.dtype = dtype) (hleft : dtype.contains x = true)
    (hright : dtype.contains y = true) (h : op.compute? x y = some result)
    (hcontains : dtype.contains result = true) :
    (combine op lhs rhs).eval assignment = .ok result := by
  have hpromote := promote_eq_castTo lhs rhs
  rw [hdtype] at hpromote
  have hfirst : (lhs.castTo dtype).eval assignment = .ok x := by
    rw [eval_castTo hlhs.formed hx, DType.truncate_of_contains hleft]
  have hsecond : (rhs.castTo dtype).eval assignment = .ok y := by
    rw [eval_castTo hrhs.formed hy, DType.truncate_of_contains hright]
  rw [← combine_promote, hpromote]
  exact eval_combine_of_contains hop (.castTo hlhs dtype) (.castTo hrhs dtype) hfirst hsecond h
    hcontains

/-- Operands of which none is a literal meet in the type that both promote to. -/
theorem dtype_promote_of_open (hlhs : lhs.isConst = false) (hrhs : rhs.isConst = false) :
    (promote lhs rhs).1.dtype = lhs.dtype.join rhs.dtype := by
  unfold promote
  split
  · rename_i same
    rw [← same, DType.join_self]
  · rw [hlhs, hrhs]
    simp

/-- A literal meets another operand in the type of that. -/
theorem dtype_promote_of_isConst (hlhs : lhs.isConst = true) (hrhs : rhs.isConst = false) :
    (promote lhs rhs).1.dtype = rhs.dtype := by
  unfold promote
  split
  · assumption
  · rw [hlhs, hrhs]
    simp

section Flattened

variable {outer inner : Var} {extent o i : Int}

/-- A literal factor takes the type of the variable that it is multiplied with. -/
theorem mul_var_const (outer : Var) (dtype : DType) (extent : Int) :
    (var outer).mul (const dtype extent) =
      (var outer).mul ((const dtype extent).castTo outer.dtype) := by
  have hpromote : promote (var outer) (const dtype extent) =
      (var outer, (const dtype extent).castTo outer.dtype) := by
    unfold promote
    split
    · rename_i same
      exact congrArg _ (castTo_of_dtype_eq same.symm).symm
    · rfl
  have hdtype : (var outer).dtype = ((const dtype extent).castTo outer.dtype).dtype :=
    (dtype_castTo _ _).symm
  rw [mul, mul, combine, hpromote, combine_of_dtype_eq .mul hdtype]

/-- If a literal is left of the product of a variable with another expression, then zero. -/
theorem eq_zero_of_isConst_mul_var (hdtype : rhs.dtype = outer.dtype)
    (h : ((var outer).mul rhs).isConst = true) : (var outer).mul rhs = zero outer.dtype := by
  have hfold : (var outer).mul rhs = foldNode .mul (var outer) rhs :=
    combine_of_dtype_eq .mul hdtype.symm
  have hliterals : foldLiterals? .mul (var outer) rhs = none := rfl
  have hnotOne : (var outer).isOne = false := rfl
  have hnotZero : (var outer).isZero = false := rfl
  rw [hfold] at h ⊢
  simp only [foldNode, hliterals, foldNeutral?, hnotOne, hnotZero, Bool.false_or,
    Bool.false_eq_true, if_false] at h ⊢
  cases hone : rhs.isOne with
  | true => simp [hone, isConst, value?] at h
  | false =>
      cases hzero : rhs.isZero with
      | true => simp [Expr.dtype]
      | false => simp [hone, hzero, keepOffsetPositive, isConst, value?] at h

/-- The index of the fused loop, as it is computed: the product wraps into the type of the
outer loop, and the sum is taken in the type of the fused one. -/
theorem eval_flattened (hextent : dtype.contains extent = true)
    (houter : (var outer).eval assignment = .ok o) (hinner : (var inner).eval assignment = .ok i)
    (hsum : (outer.dtype.join inner.dtype).contains (outer.dtype.truncate (o * extent) + i) =
      true) :
    (((var outer).mul (const dtype extent)).add (var inner)).eval assignment =
      .ok (outer.dtype.truncate (o * extent) + i) := by
  have hfactor : ((const dtype extent).castTo outer.dtype).TypedAt outer.dtype :=
    .castTo (typedAt_const hextent).wellTyped _
  have hvar : (var outer).TypedAt outer.dtype := ⟨⟨trivial, trivial⟩, rfl⟩
  have hinnerVar : (var inner).WellTyped := ⟨trivial, trivial⟩
  have hinnerFits : inner.dtype.contains i = true := eval_var_contains hinner
  have htyped : ((var outer).mul ((const dtype extent).castTo outer.dtype)).TypedAt outer.dtype :=
    hvar.combine rfl hfactor
  have hproduct : ((var outer).mul ((const dtype extent).castTo outer.dtype)).eval assignment =
      .ok (outer.dtype.truncate (o * extent)) := by
    rw [← DType.truncate_mul_truncate]
    exact eval_combine_numbers rfl hvar hfactor houter
      (eval_castTo (e := const dtype extent) hextent (eval_const_of_contains hextent) _) rfl
  have hproductFits := DType.contains_truncate outer.dtype (o * extent)
  rw [mul_var_const]
  cases hconst : ((var outer).mul ((const dtype extent).castTo outer.dtype)).isConst with
  | true =>
      -- The literal zero adopts the type of the inner index, which may be the narrower one.
      have hzero : outer.dtype.truncate (o * extent) = 0 := by
        rw [eq_zero_of_isConst_mul_var hfactor.dtype_eq hconst, eval_zero, Except.ok.injEq]
          at hproduct
        exact hproduct.symm
      rw [hzero] at hproduct ⊢
      exact eval_combine_promoted rfl htyped.wellTyped hinnerVar hproduct hinner
        (dtype_promote_of_isConst hconst rfl) (DType.contains_zero _) hinnerFits rfl
        (by rwa [zero_add])
  | false =>
      have hjoin := dtype_promote_of_open hconst (show (var inner).isConst = false from rfl)
      rw [htyped.dtype_eq] at hjoin
      exact eval_combine_promoted rfl htyped.wellTyped hinnerVar hproduct hinner hjoin
        (DType.contains_join_left hproductFits _) (DType.contains_join_right hinnerFits _) rfl hsum

end Flattened

end Expr

/-- Two loops, the loop that fuses them, and the extents of the two. -/
structure Fusion where
  outer : IterId
  inner : IterId
  fused : IterId
  outerVar : IterVar
  innerVar : IterVar
  fusedVar : IterVar
  outerExtent : Int
  innerExtent : Int

namespace Fusion

variable {fusion : Fusion}

/-- The last row starts at a number of the type of the outer loop. -/
def LastRowFits (fusion : Fusion) : Prop :=
  (fusion.outerExtent - 1) * fusion.innerExtent ≤ fusion.outerVar.dtype.maxValue

/-- Wherever the two loops have values in their ranges, the index has the value that counts
the iterations row by row. -/
def FlattenedBy (fusion : Fusion) (index : Expr) : Prop :=
  ∀ (assignment : Assignment) (o i : Int), 0 ≤ o → o < fusion.outerExtent →
    0 ≤ i → i < fusion.innerExtent → assignment fusion.outerVar.var = some o →
    assignment fusion.innerVar.var = some i →
    index.eval assignment = .ok (o * fusion.innerExtent + i)

/-- The index of the fused loop over the variables of the other two. -/
def index (fusion : Fusion) : Expr :=
  (fusion.outerVar.expr.mul (.const fusion.innerVar.dtype fusion.innerExtent)).add
    fusion.innerVar.expr

/-- Both loops start at zero and have extents of their own types, and the number of all
iterations is a number of the type in which theirs meet. -/
structure IsFlat (fusion : Fusion) : Prop where
  outer_pos : 1 ≤ fusion.outerExtent
  inner_pos : 1 ≤ fusion.innerExtent
  outer_contains : fusion.outerVar.dtype.contains fusion.outerExtent = true
  inner_contains : fusion.innerVar.dtype.contains fusion.innerExtent = true
  fused_contains : (fusion.outerVar.dtype.join fusion.innerVar.dtype).contains
    (fusion.outerExtent * fusion.innerExtent) = true

namespace IsFlat

variable {assignment : Assignment} {o i : Int} (h : fusion.IsFlat)
include h

theorem eval_outer (hlow : 0 ≤ o) (hhigh : o < fusion.outerExtent)
    (ho : assignment fusion.outerVar.var = some o) :
    fusion.outerVar.expr.eval assignment = .ok o := by
  have hcontains : fusion.outerVar.dtype.contains o = true :=
    DType.contains_of_between (DType.contains_zero _) h.outer_contains hlow hhigh.le
  exact Expr.eval_var_of_contains ho hcontains

theorem eval_inner (hlow : 0 ≤ i) (hhigh : i < fusion.innerExtent)
    (hi : assignment fusion.innerVar.var = some i) :
    fusion.innerVar.expr.eval assignment = .ok i := by
  have hcontains : fusion.innerVar.dtype.contains i = true :=
    DType.contains_of_between (DType.contains_zero _) h.inner_contains hlow hhigh.le
  exact Expr.eval_var_of_contains hi hcontains

theorem eval_index (hlow : 0 ≤ o) (hhigh : o < fusion.outerExtent) (hlow' : 0 ≤ i)
    (hhigh' : i < fusion.innerExtent) (ho : assignment fusion.outerVar.var = some o)
    (hi : assignment fusion.innerVar.var = some i)
    (hsum : (fusion.outerVar.dtype.join fusion.innerVar.dtype).contains
      (fusion.outerVar.dtype.truncate (o * fusion.innerExtent) + i) = true) :
    fusion.index.eval assignment =
      .ok (fusion.outerVar.dtype.truncate (o * fusion.innerExtent) + i) :=
  Expr.eval_flattened h.inner_contains (h.eval_outer hlow hhigh ho) (h.eval_inner hlow' hhigh' hi)
    hsum

/-- All iterations are counted in the type in which the two types meet. -/
theorem contains_flat (hlow : 0 ≤ o) (hhigh : o < fusion.outerExtent) (hlow' : 0 ≤ i)
    (hhigh' : i < fusion.innerExtent) :
    (fusion.outerVar.dtype.join fusion.innerVar.dtype).contains (o * fusion.innerExtent + i) =
      true := by
  have hinner := h.inner_pos
  have hrows : (o + 1) * fusion.innerExtent ≤ fusion.outerExtent * fusion.innerExtent :=
    Int.mul_le_mul_of_nonneg_right (by omega) (by omega)
  have hstart : 0 ≤ o * fusion.innerExtent := Int.mul_nonneg hlow (by omega)
  rw [Int.add_mul, one_mul] at hrows
  exact DType.contains_of_between (DType.contains_zero _) h.fused_contains (by omega) (by omega)

/-- Where the last row starts at a number of the type of the outer loop, so does every row. -/
theorem flattenedBy (hfits : fusion.LastRowFits) : fusion.FlattenedBy fusion.index := by
  intro assignment o i hlow hhigh hlow' hhigh' ho hi
  have hinner := h.inner_pos
  have hrows : o * fusion.innerExtent ≤ (fusion.outerExtent - 1) * fusion.innerExtent :=
    Int.mul_le_mul_of_nonneg_right (by omega) (by omega)
  have hstart : 0 ≤ o * fusion.innerExtent := Int.mul_nonneg hlow (by omega)
  have hrow : fusion.outerVar.dtype.contains (o * fusion.innerExtent) = true :=
    DType.contains_of_le_maxValue hstart (hrows.trans hfits)
  have hvalue := h.eval_index hlow hhigh hlow' hhigh' ho hi
  rw [DType.truncate_of_contains hrow] at hvalue
  exact hvalue (h.contains_flat hlow hhigh hlow' hhigh')

/-- Where the last row starts beyond the type of the outer loop, it is not counted rightly:
there the types differ, so the two loops have values of their own. -/
theorem lastRowFits (hflattened : fusion.FlattenedBy fusion.index) : fusion.LastRowFits := by
  by_contra hbeyond
  have hbeyond' : fusion.outerVar.dtype.maxValue <
      (fusion.outerExtent - 1) * fusion.innerExtent := Int.lt_of_not_ge hbeyond
  have hpos := h.outer_pos
  have hinner := h.inner_pos
  have hcount : (fusion.outerExtent - 1) * fusion.innerExtent ≤
      fusion.outerExtent * fusion.innerExtent :=
    Int.mul_le_mul_of_nonneg_right (by omega) (by omega)
  have hapart : fusion.innerVar.var ≠ fusion.outerVar.var := by
    intro hsame
    have hfused := h.fused_contains
    rw [show fusion.innerVar.dtype = fusion.outerVar.dtype from congrArg Var.dtype hsame,
      DType.join_self, DType.contains_iff] at hfused
    omega
  let assignment : Assignment := fun v =>
    if v = fusion.outerVar.var then some (fusion.outerExtent - 1) else some 0
  have ho : assignment fusion.outerVar.var = some (fusion.outerExtent - 1) := if_pos rfl
  have hi : assignment fusion.innerVar.var = some 0 := if_neg hapart
  have hright := hflattened assignment _ 0 (by omega) (by omega) le_rfl (by omega) ho hi
  have hcontains := DType.contains_truncate fusion.outerVar.dtype
    ((fusion.outerExtent - 1) * fusion.innerExtent)
  have hvalue := h.eval_index (by omega) (by omega) le_rfl (by omega) ho hi
    (by rw [add_zero]; exact DType.contains_join_left hcontains _)
  rw [add_zero] at hright hvalue
  rw [← Except.ok.inj (hright.symm.trans hvalue), DType.contains_iff] at hcontains
  omega

theorem flattenedBy_iff : fusion.FlattenedBy fusion.index ↔ fusion.LastRowFits :=
  ⟨h.lastRowFits, h.flattenedBy⟩

end IsFlat

end Fusion

namespace Stage

variable {stage : Stage} {ranges : IterMap Range} {fusion : Fusion}

/-- The loops of a fusion are two roots that start at zero and have literal extents of their
own types, and the number of all iterations is a number of the type of the fused loop. -/
structure FusesRoots (stage : Stage) (ranges : IterMap Range) (fusion : Fusion) : Prop where
  relation : .fuse fusion.outer fusion.inner fusion.fused ∈ stage.relations
  outer_root : fusion.outer ∈ stage.roots
  inner_root : fusion.inner ∈ stage.roots
  outer_var : stage.iterVar? fusion.outer = some fusion.outerVar
  inner_var : stage.iterVar? fusion.inner = some fusion.innerVar
  fused_var : stage.iterVar? fusion.fused = some fusion.fusedVar
  outer_range : ranges.get? fusion.outer =
    some (.between fusion.outerVar.dtype 0 fusion.outerExtent)
  inner_range : ranges.get? fusion.inner =
    some (.between fusion.innerVar.dtype 0 fusion.innerExtent)
  outer_pos : 1 ≤ fusion.outerExtent
  inner_pos : 1 ≤ fusion.innerExtent
  outer_contains : fusion.outerVar.dtype.contains fusion.outerExtent = true
  inner_contains : fusion.innerVar.dtype.contains fusion.innerExtent = true
  fused_contains :
    fusion.fusedVar.dtype.contains (fusion.outerExtent * fusion.innerExtent) = true

/-- A fused loop has the type in which the types of the two meet. -/
theorem FusesRoots.isFlat (h : stage.FusesRoots ranges fusion)
    (hintroduces : ∀ relation ∈ stage.relations, stage.Introduces relation) : fusion.IsFlat where
  outer_pos := h.outer_pos
  inner_pos := h.inner_pos
  outer_contains := h.outer_contains
  inner_contains := h.inner_contains
  fused_contains := by
    obtain ⟨outerVar, innerVar, houter, hinner, fusedVar, hfused, -, -, hdtype⟩ :=
      hintroduces _ h.relation
    obtain rfl := Option.some.inj (houter.symm.trans h.outer_var)
    obtain rfl := Option.some.inj (hinner.symm.trans h.inner_var)
    obtain rfl := Option.some.inj (hfused.symm.trans h.fused_var)
    rw [← hdtype]
    exact h.fused_contains

/-- On a stage that is put together by any commands, the index of a loop that fuses two roots
is computed from the variables of the roots, and it counts the iterations row by row if and
only if the last row starts at a number of the type of the outer root. -/
theorem flattens_iff (name : String) (scope : StorageScope) (commands : List Command)
    (hranges : ((empty name scope).executeAll commands).HasRanges ranges)
    (hzero : ∀ relation ∈ ((empty name scope).executeAll commands).relations,
      StartsAtZero ranges relation)
    (h : ((empty name scope).executeAll commands).FusesRoots ranges fusion) :
    ∃ roots indices index, ((empty name scope).executeAll commands).rootIndices = .ok roots ∧
      ((empty name scope).executeAll commands).indicesDown ranges false roots = .ok indices ∧
      indices.get? fusion.fused = some index ∧
      (fusion.FlattenedBy index ↔
        (fusion.outerExtent - 1) * fusion.innerExtent ≤ fusion.outerVar.dtype.maxValue) := by
  have hintroduces : ∀ relation ∈ ((empty name scope).executeAll commands).relations,
      ((empty name scope).executeAll commands).Introduces relation :=
    introduces_executeAll (by simp [empty]) commands
  have hassembled := (Assembled.empty name scope).executeAll commands
  generalize (empty name scope).executeAll commands = stage at *
  obtain ⟨roots, hroots, hget⟩ := hassembled.hasVars.rootIndices_ok
  have hseed : ∀ id ∈ stage.roots, roots.get? id = some (stage.exprOf id) :=
    fun id hid => (hget id).trans (if_pos hid)
  obtain ⟨indices, hdown, htakes⟩ := hassembled.toLinked.indicesDown_ok hassembled.hasVars hranges
    (fun id hid => by rw [hseed id hid]; rfl) (hassembled.toLinked.get?_of_made hget) hzero
  have hroot : ∀ {id iv}, id ∈ stage.roots → stage.iterVar? id = some iv →
      indices.get? id = some iv.expr := fun hid hiv => by
    rw [htakes.roots _ hid, hseed _ hid, exprOf_eq hiv]
  have hfused : indices.get? fusion.fused = some fusion.index := by
    have htaken := (htakes.relations _ h.relation).1 (hzero _ h.relation) _ h.inner_range
    rw [htaken, hroot h.outer_root h.outer_var, hroot h.inner_root h.inner_var]
    rfl
  exact ⟨roots, indices, fusion.index, hroots, hdown, hfused,
    (h.isFlat hintroduces).flattenedBy_iff⟩

/-- Three rows of a hundred iterations: the row index has 8 bits, the fused loop 16. -/
def narrowRows : Stage :=
  (empty "compute" .globalMemory).executeAll
    [.root "i" (.const .int8 3), .root "j" (.const .int16 100), .fuse ⟨0⟩ ⟨1⟩]

/-- The ranges that are inferred for `narrowRows`. -/
def narrowRanges : IterMap Range :=
  .ofList [(⟨0⟩, .between .int8 0 3), (⟨1⟩, .between .int16 0 100), (⟨2⟩, .between .int16 0 300)]

/-- The fusion in `narrowRows`. -/
def narrowFusion : Fusion :=
  ⟨⟨0⟩, ⟨1⟩, ⟨2⟩, ⟨⟨.iteration 0, "i", .int8⟩, some (.between .int8 0 3), .parallel⟩,
    ⟨⟨.iteration 1, "j", .int16⟩, some (.between .int16 0 100), .parallel⟩,
    ⟨⟨.iteration 2, "i.j.fused", .int16⟩, none, .parallel⟩, 3, 100⟩

/-- The third row starts at 200, which is -56 in 8 bits. -/
theorem not_flattens_of_narrowRows : ∃ roots indices index,
    narrowRows.rootIndices = .ok roots ∧
      narrowRows.indicesDown narrowRanges false roots = .ok indices ∧
      indices.get? narrowFusion.fused = some index ∧ ¬narrowFusion.FlattenedBy index := by
  have hranges : narrowRows.HasRanges narrowRanges := by
    intro id hid
    rw [show narrowRows.defined = [⟨0⟩, ⟨1⟩, ⟨2⟩] from rfl] at hid
    simp only [List.mem_cons, List.not_mem_nil, or_false] at hid
    rcases hid with rfl | rfl | rfl <;> exact ⟨_, rfl⟩
  have hzero : ∀ relation ∈ narrowRows.relations, StartsAtZero narrowRanges relation := by
    rw [show narrowRows.relations = [.fuse ⟨0⟩ ⟨1⟩ ⟨2⟩] from rfl, List.forall_mem_singleton]
    intro id hid range hrange
    have hids : id = ⟨0⟩ ∨ id = ⟨1⟩ := List.mem_pair.mp hid
    rcases hids with rfl | rfl <;> cases hrange <;> rfl
  have hfuses : narrowRows.FusesRoots narrowRanges narrowFusion :=
    ⟨by decide, by decide, by decide, rfl, rfl, rfl, rfl, rfl, by decide, by decide, by decide,
      by decide, by decide⟩
  obtain ⟨roots, indices, index, hroots, hdown, hfused, hiff⟩ :=
    flattens_iff _ _ _ hranges hzero hfuses
  exact ⟨roots, indices, index, hroots, hdown, hfused, fun h => absurd (hiff.mp h) (by decide)⟩

end Stage

end LoopNest
