/-
# Loops that count from zero

A variable of a signed type that counts from zero up to a literal never leaves its range, and
the analysis of facts finds this out: that the variable stays inside its range is simplified
to the true predicate, so assuming it adds nothing to the facts.

Two such variables, one inside the other, number the iterations of both. As long as the number
of all iterations belongs to the type, no end of an interval wraps or becomes infinite, and the
index is simplified to the one variable that counts, if only one does, and is kept otherwise.
Interval arithmetic then gives it the last iteration as its greatest value. All of this holds up
to the greatest value of the type, where the ends of intervals stand for infinity.
-/

import LoopNest.Proofs.Expr.Cancellation
import LoopNest.Proofs.Facts.Connectives
import LoopNest.Proofs.Flow.Extents
import LoopNest.Proofs.Lowering.Leaves

namespace LoopNest

/-- A signed type holds the opposite of each of its natural numbers. -/
theorem DType.contains_neg {dtype : DType} {value : Int} (signed : dtype.isSigned = true)
    (hnonneg : 0 ≤ value) (h : dtype.contains value = true) : dtype.contains (-value) = true := by
  rw [contains_iff] at h ⊢
  cases dtype <;> simp only [isSigned, Bool.false_eq_true] at signed <;>
    simp only [minValue, maxValue, Word.least, Word.greatest] at h ⊢ <;> omega

/-- The sum of finite ends is exact where it is finite. -/
theorem Endpoint.add_of_isFinite {left right : Int} (hleft : IsFinite left)
    (hright : IsFinite right) (h : IsFinite (left + right)) : add left right = left + right :=
  le_antisymm (add_le le_rfl le_rfl hleft.2 hright.2 h) (le_add le_rfl le_rfl hleft.1 hright.1 h)

/-- One less than a number stays below it, also where the number counts as infinite. -/
theorem Endpoint.pred_add_neg_lt_zero {count : Int} (hcount : 1 ≤ count)
    (hword : Word.fits count = true) : add (count - 1) (neg count) < 0 := by
  by_cases hinfinite : count = posInf
  · rw [hinfinite]
    decide
  · have hfinite : count ≠ negInf ∧ count - 1 < posInf ∧ IsFinite (-count) := by
      simp only [IsFinite, Word.fits_iff, posInf, negInf, Word.least, Word.greatest] at *
      omega
    rw [neg, if_neg hfinite.1, if_neg hinfinite]
    have hsum : IsFinite (count - 1 + -count) := by
      rw [show count - 1 + -count = -1 by omega]
      decide
    exact (add_le le_rfl le_rfl hfinite.2.1 hfinite.2.2.2 hsum).trans_lt (by omega)

namespace Expr

variable {dtype : DType} {e lhs rhs : Expr} {v : Var} {count : Int}

theorem value?_const (dtype : DType) (value : Int) : (const dtype value).value? = some value :=
  rfl

section Symbolic

variable (h : e.value? = none) (hdtype : e.dtype = dtype)
include h hdtype

theorem add_zero_const : e.add (.const dtype 0) = e := by
  have same : e.dtype = (const dtype 0).dtype := hdtype
  rw [add, combine_of_dtype_eq _ same]
  simp [foldNode, foldLiterals?, foldNeutral?, isZero, h, value?_const]

theorem zero_const_add : (const dtype 0).add e = e := by
  have same : (const dtype 0).dtype = e.dtype := hdtype.symm
  rw [add, combine_of_dtype_eq _ same]
  simp [foldNode, foldLiterals?, foldNeutral?, isZero, h, value?_const]

theorem sub_zero_const : e.sub (.const dtype 0) = e := by
  have same : e.dtype = (const dtype 0).dtype := hdtype
  rw [sub, combine_of_dtype_eq _ same]
  simp [foldNode, foldLiterals?, foldNeutral?, isZero, h, value?_const]

theorem mul_one_const : e.mul (.const dtype 1) = e := by
  have same : e.dtype = (const dtype 1).dtype := hdtype
  rw [mul, combine_of_dtype_eq _ same]
  simp [foldNode, foldLiterals?, foldNeutral?, isOne, h, value?_const]

/-- A multiple by a literal that is at least two stays as it is written. -/
theorem mul_const_of_two_le (hcount : 2 ≤ count) :
    e.mul (.const dtype count) = .binary .mul e (.const dtype count) := by
  have same : e.dtype = (const dtype count).dtype := hdtype
  rw [mul, combine_of_dtype_eq _ same]
  have hzero : count ≠ 0 := by omega
  have hone : count ≠ 1 := by omega
  simp [foldNode, foldLiterals?, foldNeutral?, isOne, isZero, h, value?_const, keepOffsetPositive,
    hzero, hone]

end Symbolic

theorem zero_mul_const (dtype : DType) (count : Int) :
    (const dtype 0).mul (.const dtype count) = .const dtype 0 := by
  rw [mul, combine_const rfl, resultType, zero_mul, literal, DType.truncate_zero]
  rfl

theorem add_of_value?_eq_none (hlhs : lhs.value? = none) (hrhs : rhs.value? = none)
    (same : lhs.dtype = rhs.dtype) : lhs.add rhs = .binary .add lhs rhs := by
  rw [add, combine_of_dtype_eq _ same]
  simp [foldNode, foldLiterals?, foldNeutral?, isZero, hlhs, hrhs, keepOffsetPositive,
    oppositeOffset?]

theorem normalize_const_zero (dtype : DType) : (const dtype 0).normalize = const dtype 0 := by
  have hzero : zero dtype = const dtype 0 := by rw [zero, literal, DType.truncate_zero]
  rw [← hzero, normalize_zero]

theorem normalize_var (v : Var) : (var v).normalize = var v := by
  have hform : (var v).normalize = (var v).add (.literal v.dtype 0) := rfl
  rw [hform, literal, DType.truncate_zero]
  exact add_zero_const rfl rfl

/-- A multiple of a variable. -/
def multiple (v : Var) (count : Int) : Expr :=
  .binary .mul (.var v) (.const v.dtype count)

/-- The number of an iteration of an inner loop of `count` iterations inside an outer loop. -/
def strided (outer : Var) (count : Int) (inner : Var) : Expr :=
  .binary .add (multiple outer count) (.var inner)

theorem var_mul_const (hcount : 2 ≤ count) :
    (var v).mul (.const v.dtype count) = multiple v count :=
  mul_const_of_two_le rfl rfl hcount

theorem multiple_add_var {w : Var} (same : w.dtype = v.dtype) :
    (multiple v count).add (.var w) = strided v count w :=
  add_of_value?_eq_none rfl rfl same.symm

section Multiple

variable (hcount : 2 ≤ count) (hcontains : v.dtype.contains count = true)
include hcount hcontains

theorem toExpr_multiple :
    LinearForm.toExpr ⟨[(var v, count)], 0, v.dtype⟩ = multiple v count := by
  have hpositive : decide (0 < count) = true := by simp; omega
  have hnegative : decide (count < 0) = false := by simp; omega
  simp only [LinearForm.toExpr, List.filter, hpositive, hnegative, List.foldl,
    LinearForm.plusTerm, LinearForm.scaled, if_neg (by omega : count ≠ 1), literal,
    DType.truncate_of_contains hcontains, DType.truncate_zero, var_mul_const hcount]
  exact add_zero_const rfl rfl

theorem normalize_multiple : (multiple v count).normalize = multiple v count := by
  have hword := DType.fits_of_contains hcontains
  have hform : LinearForm.ofExpr (multiple v count) = ⟨[(var v, count)], 0, v.dtype⟩ := by
    simp [multiple, LinearForm.ofExpr, LinearForm.accumulate, LinearForm.addTerm,
      LinearForm.addToTerms, value?_const, Word.wrap_of_fits hword, Expr.dtype,
      BinaryOp.isPredicate, BinaryOp.isComparison, BinaryOp.isLogical]
  rw [normalize, hform, toExpr_multiple hcount hcontains]

theorem normalize_strided {w : Var} (hne : v ≠ w) (same : w.dtype = v.dtype) :
    (strided v count w).normalize = strided v count w := by
  have hword := DType.fits_of_contains hcontains
  have hform : LinearForm.ofExpr (strided v count w) =
      ⟨[(var v, count), (var w, 1)], 0, v.dtype⟩ := by
    simp [strided, multiple, LinearForm.ofExpr, LinearForm.accumulate, LinearForm.addTerm,
      LinearForm.addToTerms, value?_const, Word.wrap_of_fits hword, Expr.dtype,
      BinaryOp.isPredicate, BinaryOp.isComparison, BinaryOp.isLogical, hne]
  have hpositive : decide (0 < count) = true := by simp; omega
  have hnegative : decide (count < 0) = false := by simp; omega
  have hone : (decide ((0 : Int) < 1)) = true := rfl
  have hone' : (decide ((1 : Int) < 0)) = false := rfl
  rw [normalize, hform]
  simp only [LinearForm.toExpr, List.filter, hpositive, hnegative, hone, hone', List.foldl,
    LinearForm.plusTerm, LinearForm.scaled, if_neg (by omega : count ≠ 1), if_true, literal,
    DType.truncate_of_contains hcontains, DType.truncate_zero, var_mul_const hcount,
    multiple_add_var same]
  exact add_zero_const rfl rfl

end Multiple

/-- What is left of zero without a variable. -/
theorem normalize_zero_sub_var (v : Var) :
    ((const v.dtype 0).sub (var v)).normalize = neg (var v) := by
  have hsub : (const v.dtype 0).sub (var v) = binary .sub (const v.dtype 0) (var v) := by
    have same : (const v.dtype 0).dtype = (var v).dtype := rfl
    rw [sub, combine_of_dtype_eq _ same]
    rfl
  have hform : LinearForm.ofExpr (binary .sub (const v.dtype 0) (var v)) =
      ⟨[(var v, -1)], 0, v.dtype⟩ := by
    simp [LinearForm.ofExpr, LinearForm.accumulate, LinearForm.addTerm, LinearForm.addToTerms,
      LinearForm.addConstant, Expr.dtype, BinaryOp.isPredicate, BinaryOp.isComparison, Word.wrap,
      BinaryOp.isLogical]
  have htoExpr : LinearForm.toExpr ⟨[(var v, -1)], 0, v.dtype⟩ =
      (neg (var v)).add (.literal v.dtype 0) := rfl
  rw [hsub, normalize, hform, htoExpr, literal, DType.truncate_zero]
  exact add_zero_const rfl rfl

/-- A variable without a positive literal. -/
theorem normalize_var_sub_const (hcount : 1 ≤ count) (hcontains : v.dtype.contains count = true)
    (signed : v.dtype.isSigned = true) :
    ((var v).sub (const v.dtype count)).normalize = binary .sub (var v) (const v.dtype count) := by
  have hword := DType.fits_of_contains hcontains
  have hzero : count ≠ 0 := by omega
  have hpositive : ¬count < 0 := by omega
  have hsame : (var v).dtype = (const v.dtype count).dtype := rfl
  have hsub : (var v).sub (const v.dtype count) = binary .sub (var v) (const v.dtype count) := by
    rw [sub, combine_of_dtype_eq _ hsame]
    simp [foldNode, foldLiterals?, foldNeutral?, isZero, value?, keepOffsetPositive,
      oppositeOffset?, hzero, hpositive]
  have hopposite : Word.fits (-count) = true := by
    rw [Word.fits_iff] at hword ⊢
    simp only [Word.least, Word.greatest] at *
    omega
  have hform : LinearForm.ofExpr (binary .sub (var v) (const v.dtype count)) =
      ⟨[(var v, 1)], -count, v.dtype⟩ := by
    simp [LinearForm.ofExpr, LinearForm.accumulate, LinearForm.addTerm, LinearForm.addToTerms,
      LinearForm.addConstant, Expr.dtype, BinaryOp.isPredicate, BinaryOp.isComparison,
      BinaryOp.isLogical, show Word.wrap (-1) = -1 from rfl, Word.wrap_of_fits hopposite]
  have htoExpr : LinearForm.toExpr ⟨[(var v, 1)], -count, v.dtype⟩ =
      (var v).add (.literal v.dtype (-count)) := rfl
  have hcontains' := DType.contains_neg signed (by omega) hcontains
  rw [hsub, normalize, hform, htoExpr, literal, DType.truncate_of_contains hcontains']
  have hsame' : (var v).dtype = (const v.dtype (-count)).dtype := rfl
  rw [add, combine_of_dtype_eq _ hsame']
  simp [foldNode, foldLiterals?, foldNeutral?, isZero, value?, keepOffsetPositive, literal,
    oppositeOffset?, hzero, Word.negate?, Word.check, hword,
    DType.truncate_of_contains hcontains, (by omega : 0 < count), Expr.dtype]

end Expr

/-- The last member of a range that starts at zero. -/
theorem Range.last_between {dtype : DType} {count : Int} (hcount : 1 ≤ count)
    (hcontains : dtype.contains count = true) :
    (between dtype 0 count).stop = .const dtype count ∧
      (between dtype 0 count).last = .const dtype (count - 1) := by
  have hstop : (between dtype 0 count).stop = .const dtype count := by
    have hsum : BinaryOp.compute? .add 0 count = some count := by simp [BinaryOp.compute?]
    exact Expr.combine_const_of_contains rfl hsum hcontains
  refine ⟨hstop, ?_⟩
  rw [last, hstop, Expr.one, Expr.literal, between, Expr.dtype, DType.truncate_one]
  exact Expr.combine_const_of_contains rfl rfl
    (DType.contains_of_between (DType.contains_zero _) hcontains (by omega) (by omega))

/-- Nothing is assumed, and a variable of a signed type counts from zero up to a literal. -/
structure Facts.Counts (facts : Facts) (v : Var) (count : Int) : Prop where
  free : facts.constraints = []
  range : facts.ranges v = some (.between v.dtype 0 count)
  positive : 1 ≤ count
  contained : v.dtype.contains count = true
  signed : v.dtype.isSigned = true

namespace Facts.Counts

variable {facts : Facts} {v : Var} {count : Int}

theorem bound_eq (h : facts.Counts v count) : facts.bound (.var v) = ⟨0, count - 1⟩ := by
  have hpositive := h.positive
  have hlast := (Range.last_between h.positive h.contained).2
  have hmin : (Range.between v.dtype 0 count).min = .const v.dtype 0 := rfl
  have hlow := DType.contains_iff.mp (DType.contains_zero v.dtype)
  have hhigh := DType.contains_iff.mp h.contained
  have hbound : facts.varBound followDepth v =
      ⟨max v.dtype.minValue 0, min v.dtype.maxValue (count - 1)⟩ := by
    simp only [followDepth, varBound, h.range, h.free, List.foldl_nil, Option.map_some,
      Bound.tighten, Bound.ofRange, hlast, hmin, Bound.ofExpr, Bound.point, Bound.intersect,
      Bound.ofDType]
  rw [Facts.bound, Bound.ofExpr, hbound]
  simp only [Bound.intersect, Bound.ofDType, Bound.mk.injEq]
  omega

/-- A loop of one iteration is its only value, and any other loop variable is kept. -/
theorem simplify_eq (h : facts.Counts v count) :
    facts.simplify (.var v) = if count = 1 then .const v.dtype 0 else .var v := by
  rw [simplify, collapse, if_neg (by simp [Expr.isConst, Expr.value?])]
  simp only [h.bound_eq, Bound.isPoint, Expr.dtype, Expr.literal, DType.truncate_zero]
  by_cases hone : count = 1
  · simp [hone]
  · rw [if_neg hone, if_neg (by simp; omega)]

/-- A comparison with a literal is true where the bound of the difference says so. -/
theorem simplify_comparison (h : facts.Counts v count) {op : BinaryOp} {lhs rhs : Expr}
    (hop : op.isComparison = true) (hlhs : (facts.simplify lhs).dtype = v.dtype)
    (hrhs : (facts.simplify rhs).dtype = v.dtype)
    (hdecided : decideComparison op
      (facts.differenceBound (facts.simplify lhs) (facts.simplify rhs)) = some true) :
    facts.simplify (.binary op lhs rhs) = .ofBool true := by
  have hnumbers :
      ¬((facts.simplify lhs).dtype.isBool || (facts.simplify rhs).dtype.isBool) = true := by
    have signed := h.signed
    rw [hlhs, hrhs]
    cases hdtype : v.dtype <;> simp_all [DType.isBool, DType.isSigned]
  have hnode : facts.simplify (.binary op lhs rhs) = facts.collapse
      (facts.simplifyComparison op (facts.simplify lhs) (facts.simplify rhs)) := by
    cases op <;> first | rfl | cases hop
  rw [hnode, simplifyComparison, if_neg hnumbers, hdecided]
  rfl

theorem dtype_simplify (h : facts.Counts v count) : (facts.simplify (.var v)).dtype = v.dtype := by
  rw [h.simplify_eq]
  split <;> rfl

/-- The variable is not negative. -/
theorem simplify_nonneg (h : facts.Counts v count) :
    facts.simplify (.binary .le (.const v.dtype 0) (.var v)) = .ofBool true := by
  refine h.simplify_comparison rfl rfl h.dtype_simplify ?_
  have hdifference :
      (facts.differenceBound (.const v.dtype 0) (facts.simplify (.var v))).max ≤ 0 := by
    rw [h.simplify_eq, differenceBound]
    split
    · rw [Expr.normalize_sub_self, Expr.zero, Expr.literal, Expr.dtype, DType.truncate_zero]
      exact le_rfl
    · have hbound : facts.bound (.neg (.var v)) =
        (facts.bound (.var v)).negate.intersect (.ofDType v.dtype) := rfl
      rw [Expr.normalize_zero_sub_var, hbound, h.bound_eq]
      exact min_le_left _ _
  simp only [simplify_const, decideComparison, settle, hdifference, decide_true, if_true]

/-- The variable stays below the number of its iterations. -/
theorem simplify_lt (h : facts.Counts v count) :
    facts.simplify (.binary .lt (.var v) (.const v.dtype count)) = .ofBool true := by
  refine h.simplify_comparison rfl h.dtype_simplify rfl ?_
  have hpositive := h.positive
  have hdifference :
      (facts.differenceBound (facts.simplify (.var v)) (.const v.dtype count)).max < 0 := by
    rw [h.simplify_eq, differenceBound]
    split
    · rename_i hone
      have hopposite := DType.contains_neg h.signed (by decide) (DType.contains_one v.dtype)
      have hsub : (Expr.const v.dtype 0).sub (.const v.dtype count) = .const v.dtype (-1) := by
        rw [hone]
        exact Expr.combine_const_of_contains rfl rfl hopposite
      have hnormal : (Expr.const v.dtype (-1)).normalize = .literal v.dtype (-1) := rfl
      rw [hsub, hnormal, Expr.literal, DType.truncate_of_contains hopposite]
      exact neg_one_lt_zero
    · have hbound : facts.bound (.binary .sub (.var v) (.const v.dtype count)) =
        (Bound.ofOperator .sub (facts.bound (.var v)) (.point count)).intersect
          (.ofDType v.dtype) := rfl
      rw [Expr.normalize_var_sub_const h.positive h.contained h.signed, hbound, h.bound_eq]
      exact (min_le_left _ _).trans_lt
        (Endpoint.pred_add_neg_lt_zero h.positive (DType.fits_of_contains h.contained))
  simp only [simplify_const, decideComparison, settle, hdifference, decide_true, if_true]

/-- The variable never leaves its range, so the constraint that it stays inside is true. -/
theorem simplify_constraint (h : facts.Counts v count) (leaf : IterId) :
    facts.simplify (LeafIndex.constraint ⟨leaf, .var v, .between v.dtype 0 count⟩) =
      .ofBool true := by
  have hstop := (Range.last_between h.positive h.contained).1
  have hmin : (Range.between v.dtype 0 count).min = .const v.dtype 0 := rfl
  have hlow : (Expr.var v).ge (.const v.dtype 0) = .binary .le (.const v.dtype 0) (.var v) :=
    Expr.combine_eq_binary (.inl rfl) rfl (by simp [Expr.isConst, Expr.value?])
  have hhigh : (Expr.var v).lt (.const v.dtype count) =
      .binary .lt (.var v) (.const v.dtype count) :=
    Expr.combine_eq_binary (.inl rfl) rfl (by simp [Expr.isConst, Expr.value?])
  have hboth : (Expr.binary .le (.const v.dtype 0) (.var v)).and
      (.binary .lt (.var v) (.const v.dtype count)) = .binary .and
        (.binary .le (.const v.dtype 0) (.var v)) (.binary .lt (.var v) (.const v.dtype count)) :=
    rfl
  rw [LeafIndex.constraint]
  simp only [hstop, hmin]
  rw [hlow, hhigh, hboth, simplify, h.simplify_nonneg, h.simplify_lt]
  rfl

/-- Assuming that the variable stays inside its range adds nothing. -/
theorem assume_eq (h : facts.Counts v count) (leaf : IterId) :
    facts.assume (LeafIndex.constraint ⟨leaf, .var v, .between v.dtype 0 count⟩) = facts := by
  have hnone : (Expr.ofBool true).conjuncts = [] := rfl
  rw [Facts.assume, h.simplify_constraint, hnone, List.append_nil]

end Facts.Counts

/-- Two variables of one type count from zero up to literals whose product belongs to the type. -/
structure Facts.Nests (facts : Facts) (outer inner : Var) (rows columns : Int) : Prop where
  countsOuter : facts.Counts outer rows
  countsInner : facts.Counts inner columns
  ne : outer ≠ inner
  same : inner.dtype = outer.dtype
  contained : outer.dtype.contains (rows * columns) = true

namespace Facts.Nests

variable {facts : Facts} {outer inner : Var} {rows columns : Int}

/-- No number of iterations that is less than all of them is infinite. -/
theorem isFinite (h : facts.Nests outer inner rows columns) {x : Int} (hnonneg : 0 ≤ x)
    (hlt : x < rows * columns) : Endpoint.IsFinite x := by
  have hword := Word.fits_iff.mp (DType.fits_of_contains h.contained)
  simp only [Endpoint.IsFinite, Endpoint.posInf]
  simp only [Word.least, Word.greatest] at *
  omega

variable (h : facts.Nests outer inner rows columns) (hrows : 2 ≤ rows) (hcolumns : 2 ≤ columns)
include h hrows hcolumns

theorem bound_multiple :
    facts.bound (.multiple outer columns) = ⟨0, (rows - 1) * columns⟩ := by
  have hnonneg : 0 ≤ (rows - 1) * columns := mul_nonneg (by omega) (by omega)
  have hsplit : (rows - 1) * columns = rows * columns - columns := by ring
  have hfinite := h.isFinite hnonneg (by omega)
  have hbound : facts.bound (.multiple outer columns) =
      ((facts.bound (.var outer)).corners (.point columns) Endpoint.mul).intersect
        (.ofDType outer.dtype) := rfl
  have hcontains := DType.contains_iff.mp (DType.contains_of_between (DType.contains_zero _)
    h.contained hnonneg (by omega))
  have hlow := DType.contains_iff.mp (DType.contains_zero outer.dtype)
  rw [hbound, h.countsOuter.bound_eq]
  simp only [Bound.corners, Bound.point, Endpoint.mul_eq_clamp, zero_mul,
    Endpoint.clamp_of_isFinite hfinite,
    Endpoint.clamp_of_isFinite (by decide : Endpoint.IsFinite 0), Bound.intersect, Bound.ofDType,
    Bound.mk.injEq]
  omega

theorem bound_strided :
    facts.bound (.strided outer columns inner) = ⟨0, rows * columns - 1⟩ := by
  have hnonneg : 0 ≤ (rows - 1) * columns := mul_nonneg (by omega) (by omega)
  have hsplit : (rows - 1) * columns = rows * columns - columns := by ring
  have hlast : (rows - 1) * columns + (columns - 1) = rows * columns - 1 := by omega
  have hfinite := h.isFinite (by omega : 0 ≤ rows * columns - 1) (by omega)
  have hupper : Endpoint.add ((rows - 1) * columns) (columns - 1) = rows * columns - 1 := by
    rw [Endpoint.add_of_isFinite (h.isFinite hnonneg (by omega))
      (h.isFinite (by omega) (by omega)) (hlast ▸ hfinite), hlast]
  have hbound : facts.bound (.strided outer columns inner) =
      (Bound.ofOperator .add (facts.bound (.multiple outer columns))
        (facts.bound (.var inner))).intersect (.ofDType outer.dtype) := rfl
  have hcontains := DType.contains_iff.mp (DType.contains_of_between (DType.contains_zero _)
    h.contained (by omega : 0 ≤ rows * columns - 1) (by omega))
  have hlow := DType.contains_iff.mp (DType.contains_zero outer.dtype)
  rw [hbound, h.bound_multiple hrows hcolumns, h.countsInner.bound_eq]
  simp only [Bound.ofOperator, hupper, show Endpoint.add 0 0 = 0 from rfl, Bound.intersect,
    Bound.ofDType, Bound.mk.injEq]
  omega

theorem collapse_multiple :
    facts.collapse (.multiple outer columns) = .multiple outer columns := by
  have hpositive : (0 : Int) < (rows - 1) * columns := mul_pos (by omega) (by omega)
  rw [collapse, if_neg (by simp [Expr.multiple, Expr.isConst, Expr.value?])]
  simp only [h.bound_multiple hrows hcolumns, Bound.isPoint]
  rw [if_neg (by simp only [decide_eq_true_eq]; omega)]

theorem collapse_strided :
    facts.collapse (.strided outer columns inner) = .strided outer columns inner := by
  have hpositive : (0 : Int) < (rows - 1) * columns := mul_pos (by omega) (by omega)
  have hsplit : (rows - 1) * columns = rows * columns - columns := by ring
  rw [collapse, if_neg (by simp [Expr.strided, Expr.isConst, Expr.value?])]
  simp only [h.bound_strided hrows hcolumns, Bound.isPoint]
  rw [if_neg (by simp only [decide_eq_true_eq]; omega)]

omit hrows hcolumns in
/-- Around a loop of one iteration only the outer loop counts, if it does. -/
theorem simplify_add_of_unit (hunit : columns = 1) :
    facts.simplify (.binary .add (.var outer) (.var inner)) =
      if rows = 1 then .const outer.dtype 0 else .var outer := by
  have houter := h.countsOuter.simplify_eq
  have hinner : facts.simplify (.var inner) = .const outer.dtype 0 := by
    rw [h.countsInner.simplify_eq, if_pos hunit, h.same]
  have hnode : facts.simplify (.binary .add (.var outer) (.var inner)) = facts.collapse
    ((facts.simplify (.var outer)).add (facts.simplify (.var inner))).normalize := rfl
  rw [hnode, hinner]
  by_cases hrows : rows = 1
  · have hzero : (Expr.const outer.dtype 0).add (.const outer.dtype 0) = .const outer.dtype 0 :=
      Expr.combine_const_of_contains rfl rfl (DType.contains_zero _)
    rw [houter, if_pos hrows, hzero, Expr.normalize_const_zero]
    rfl
  · have hzero : (Expr.var outer).add (.const outer.dtype 0) = .var outer :=
      Expr.add_zero_const rfl rfl
    have hself : facts.collapse (.var outer) = facts.simplify (.var outer) := rfl
    rw [houter, if_neg hrows, hzero, Expr.normalize_var, hself, houter, if_neg hrows]

omit hrows in
/-- Inside a loop of one iteration only the inner loop counts. -/
theorem simplify_strided : facts.simplify (.strided outer columns inner) =
    if rows = 1 then .var inner else .strided outer columns inner := by
  have houter := h.countsOuter.simplify_eq
  have hinner : facts.simplify (.var inner) = .var inner := by
    rw [h.countsInner.simplify_eq, if_neg (by omega)]
  have hpositive := h.countsOuter.positive
  have hcontains : outer.dtype.contains columns = true := h.same ▸ h.countsInner.contained
  have hnode : facts.simplify (.strided outer columns inner) = facts.collapse
    ((facts.collapse
      ((facts.simplify (.var outer)).mul (.const outer.dtype columns)).normalize).add
        (facts.simplify (.var inner))).normalize := rfl
  rw [hnode, hinner]
  by_cases hrows : rows = 1
  · have hzero : (Expr.const outer.dtype 0).add (.var inner) = .var inner :=
      Expr.zero_const_add rfl h.same
    have hkept : facts.collapse (.const outer.dtype 0) = .const outer.dtype 0 := rfl
    have hself : facts.collapse (.var inner) = facts.simplify (.var inner) := rfl
    rw [houter, if_pos hrows, if_pos hrows, Expr.zero_mul_const, Expr.normalize_const_zero, hkept,
      hzero, Expr.normalize_var, hself, hinner]
  · have hrows' : 2 ≤ rows := by omega
    rw [houter, if_neg hrows, if_neg hrows, Expr.var_mul_const hcolumns,
      Expr.normalize_multiple hcolumns hcontains, h.collapse_multiple hrows' hcolumns,
      Expr.multiple_add_var h.same, Expr.normalize_strided hcolumns hcontains h.ne h.same,
      h.collapse_strided hrows' hcolumns]

omit hrows hcolumns in
/-- The index of a nest is simplified to the variable that counts, if only one does, and
else it is kept. -/
theorem simplify_index :
    facts.simplify (((Expr.var outer).mul (.const outer.dtype columns)).add (.var inner)) =
      if rows = 1 then facts.simplify (.var inner)
      else if columns = 1 then .var outer
      else .strided outer columns inner := by
  have hpositive := h.countsInner.positive
  have hinner := h.countsInner.simplify_eq
  by_cases hunit : columns = 1
  · have hmul : (Expr.var outer).mul (.const outer.dtype 1) = .var outer :=
      Expr.mul_one_const rfl rfl
    have hadd : (Expr.var outer).add (.var inner) = .binary .add (.var outer) (.var inner) :=
      Expr.add_of_value?_eq_none rfl rfl h.same.symm
    rw [hinner, if_pos hunit, if_pos hunit, hunit, hmul, hadd, h.simplify_add_of_unit hunit, h.same]
  · have hcolumns : 2 ≤ columns := by omega
    rw [hinner, if_neg hunit, if_neg hunit, Expr.var_mul_const hcolumns,
      Expr.multiple_add_var h.same, h.simplify_strided hcolumns]

end Facts.Nests

/-- The values of a variable that counts from zero. -/
theorem ValueSet.ofRange_between {dtype : DType} {count : Int} (hcount : 1 ≤ count)
    (hcontains : dtype.contains count = true) :
    ofRange (.between dtype 0 count) = .between (.const dtype 0) (.const dtype (count - 1)) := by
  rw [ofRange, (Range.last_between hcount hcontains).2]
  rfl

theorem ValueSet.point?_point (e : Expr) : (point e).point? = some e := by
  rw [point, point?, if_pos rfl]

/-- An interval with several values is no point, so its ends are moved one by one. -/
theorem ValueSet.point?_between {dtype : DType} {last : Int} (hlast : 0 < last) :
    (between (.const dtype 0) (.const dtype last)).point? = none := by
  rw [between, point?, if_neg]
  simp only [Expr.const.injEq]
  omega

/-- A positive literal is seen to be positive. -/
theorem Facts.isPositive?_const {facts : Facts} {dtype : DType} {count : Int}
    (hfree : facts.Consistent) (hcount : 1 ≤ count) :
    facts.isPositive? (.const dtype count) = some true := by
  have hgt : facts.proves ((Expr.const dtype count).gt (.zero dtype)) = true := by
    rw [Expr.gt, Expr.zero, Expr.literal, DType.truncate_zero, proves_lt hfree]
    simp only [decide_eq_true_eq]
    omega
  rw [isPositive?]
  simp only [Expr.dtype, hgt, if_true]

namespace RangedFacts

variable {known : RangedFacts} {outer inner : Var} {rows columns : Int}
variable (hfree : known.facts.Consistent)
variable (houter : known.domains outer = some (.ofRange (.between outer.dtype 0 rows)))
variable (hrows : 2 ≤ rows) (hcolumns : 2 ≤ columns)
variable (hcontained : outer.dtype.contains (rows * columns) = true)
include hfree houter hrows hcolumns hcontained

theorem rawValues_multiple : known.facts.rawValues known.domains (.multiple outer columns) =
    .between (.const outer.dtype 0) (.const outer.dtype ((rows - 1) * columns)) := by
  have hnonneg : 0 ≤ (rows - 1) * columns := mul_nonneg (by omega) (by omega)
  have hsplit : (rows - 1) * columns = rows * columns - columns := by ring
  have hproduct : rows ≤ rows * columns := le_mul_of_one_le_right (by omega) (by omega)
  have hcontains : outer.dtype.contains rows = true :=
    DType.contains_of_between (DType.contains_zero _) hcontained (by omega) hproduct
  have hlast : (Expr.const outer.dtype (rows - 1)).mul (.const outer.dtype columns) =
      .const outer.dtype ((rows - 1) * columns) :=
    Expr.combine_const_of_contains rfl rfl
      (DType.contains_of_between (DType.contains_zero _) hcontained hnonneg (by omega))
  rw [Expr.multiple]
  simp only [Facts.rawValues, houter, Option.getD_some,
    ValueSet.ofRange_between (by omega : 1 ≤ rows) hcontains]
  rw [if_neg (by simp [ValueSet.between, ValueSet.point, ValueSet.isEmpty]),
    ValueSet.point?_between (by omega), ValueSet.point?_point]
  simp only [Facts.binaryValues, Facts.productValues, Facts.signedPoint?, ValueSet.point?_point,
    Facts.isPositive?_const hfree (by omega : 1 ≤ columns), Option.bind_eq_bind, Option.bind_some,
    Option.pure_def, ValueSet.moveEnds, ValueSet.between, ValueSet.min?, ValueSet.max?,
    Option.map_some, if_true, Expr.zero_mul_const, hlast]

/-- The greatest index of a nest is that of its last iteration. -/
theorem upperEnd?_strided
    (hinner : known.domains inner = some (.ofRange (.between outer.dtype 0 columns))) :
    known.upperEnd? (.strided outer columns inner) =
      some (.const outer.dtype (rows * columns - 1)) := by
  have hnonneg : 0 < (rows - 1) * columns := mul_pos (by omega) (by omega)
  have hsplit : (rows - 1) * columns = rows * columns - columns := by ring
  have hproduct : columns ≤ rows * columns := le_mul_of_one_le_left (by omega) (by omega)
  have hcontains : ∀ {x : Int}, 0 ≤ x → x ≤ rows * columns → outer.dtype.contains x = true :=
    fun hlow hhigh => DType.contains_of_between (DType.contains_zero _) hcontained hlow hhigh
  have hright : known.facts.rawValues known.domains (.var inner) =
      .between (.const outer.dtype 0) (.const outer.dtype (columns - 1)) := by
    simp only [Facts.rawValues, hinner, Option.getD_some,
      ValueSet.ofRange_between (by omega : 1 ≤ columns) (hcontains (by omega) hproduct)]
  have hlow : (Expr.const outer.dtype 0).add (.const outer.dtype 0) = .const outer.dtype 0 :=
    Expr.combine_const_of_contains rfl rfl (DType.contains_zero _)
  have hlast : (Expr.const outer.dtype ((rows - 1) * columns)).add
      (.const outer.dtype (columns - 1)) = .const outer.dtype (rows * columns - 1) := by
    have hsum : BinaryOp.compute? .add ((rows - 1) * columns) (columns - 1) =
        some (rows * columns - 1) := by
      rw [BinaryOp.compute?, hsplit]
      simp
    exact Expr.combine_const_of_contains rfl hsum (hcontains (by omega) (by omega))
  rw [upperEnd?, Facts.values, Expr.strided, Facts.rawValues,
    rawValues_multiple hfree houter hrows hcolumns hcontained, hright,
    if_neg (by simp [ValueSet.between, ValueSet.isEmpty]),
    ValueSet.point?_between (by omega : 0 < columns - 1), ValueSet.point?_between hnonneg]
  simp only [Facts.binaryValues, ValueSet.between, ValueSet.min?, ValueSet.max?, ValueSet.bothEnds,
    Option.bind_eq_bind, Option.bind_some, Option.pure_def, hlow, hlast, ValueSet.mapEnds,
    Option.map_some, Facts.simplify_const]

end RangedFacts

end LoopNest
