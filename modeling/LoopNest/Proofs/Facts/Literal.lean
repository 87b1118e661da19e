/-
# Analysis of literals

Where every range is literal, the analysis has nothing to find out: the folding
constructors compute, and what is left of a predicate is a truth value. So facts
that do not assume falsehood prove exactly the comparisons of literals that hold, and
the extents that range inference computes are integers.
-/

import LoopNest.Flow.Ranges
import LoopNest.Proofs.Facts.Division

namespace LoopNest

/-- A remainder of a natural number is always defined. -/
theorem Word.floorMod?_of_nonneg {dividend divisor : Int} (hnonneg : 0 ≤ dividend)
    (hdividend : fits dividend = true) (hdivisor : fits divisor = true) (hpos : 1 ≤ divisor) :
    floorMod? dividend divisor = some (dividend % divisor) := by
  have hproduct : fits (dividend / divisor * divisor) = true := by
    have hle := Int.ediv_mul_le dividend (by omega : divisor ≠ 0)
    have hquotient := Int.ediv_nonneg hnonneg (by omega : 0 ≤ divisor)
    have hzero := mul_nonneg hquotient (by omega : 0 ≤ divisor)
    rw [fits_iff, least, greatest] at hdividend ⊢
    omega
  exact floorMod?_of_pos hdividend (by omega) hproduct hdivisor

/-- A remainder of numbers of 32 bits is always defined. -/
theorem Word.floorMod?_of_int32 {dividend divisor : Int}
    (hdividend : DType.int32.contains dividend = true)
    (hdivisor : DType.int32.contains divisor = true) (hpos : 1 ≤ divisor) :
    floorMod? dividend divisor = some (dividend % divisor) := by
  have hproduct : fits (dividend / divisor * divisor) = true := by
    have hsplit := Int.ediv_mul_add_emod dividend divisor
    have hlow := Int.emod_nonneg dividend (by omega : divisor ≠ 0)
    have hhigh := Int.emod_lt_of_pos dividend (by omega : 0 < divisor)
    rw [DType.contains_iff, DType.minValue, DType.maxValue] at hdividend hdivisor
    rw [fits_iff, least, greatest]
    omega
  exact floorMod?_of_pos (DType.fits_of_contains hdividend) (by omega) hproduct
    (DType.fits_of_contains hdivisor)

namespace Expr

variable {op : BinaryOp} {dtype : DType} {left right result : Int}

/-- Literals are computed at once. -/
theorem combine_const (h : op.compute? left right = some result) :
    combine op (const dtype left) (const dtype right) = literal (resultType op dtype) result := by
  have same : (const dtype left).dtype = (const dtype right).dtype := rfl
  rw [combine_of_dtype_eq op same]
  simp [foldNode, foldLiterals?, value?, h, Expr.dtype]

/-- What literals compute to is kept where it fits. -/
theorem combine_const_of_contains (hop : op.isPredicate = false)
    (h : op.compute? left right = some result) (hcontains : dtype.contains result = true) :
    combine op (const dtype left) (const dtype right) = const dtype result := by
  rw [combine_const h, resultType, hop, literal, if_neg (by simp),
    DType.truncate_of_contains hcontains]

/-- A comparison of literals is a truth value. -/
theorem combine_const_of_predicate (hop : op.isPredicate = true) {holds : Bool}
    (h : op.compute? left right = some (BinaryOp.truth holds)) :
    combine op (const dtype left) (const dtype right) = ofBool holds := by
  rw [combine_const h, resultType, hop]
  rfl

end Expr

namespace Facts

variable {facts : Facts} {dtype : DType} {left right : Int}

@[simp] theorem simplify_const (facts : Facts) (dtype : DType) (value : Int) :
    facts.simplify (.const dtype value) = .const dtype value := rfl

/-- Falsehood was not assumed. -/
def Consistent (facts : Facts) : Prop :=
  .ofBool false ∉ facts.constraints

theorem consistent_of_unconstrained (h : facts.constraints = []) : facts.Consistent := by
  simp [Consistent, h]

/-- A truth value is proved when it is true. -/
theorem proves_ofBool (hfree : facts.Consistent) (holds : Bool) :
    facts.proves (.ofBool holds) = holds := by
  cases holds with
  | true =>
      rw [proves, provesWithin]
      split <;> rfl
  | false =>
      rw [proves, provesWithin, if_neg (by simpa [isAssumed, Consistent] using hfree)]
      rfl

/-- A comparison of literals is proved when it holds. -/
theorem proves_combine {op : BinaryOp} (hfree : facts.Consistent)
    (hop : op.isPredicate = true) {holds : Bool}
    (h : op.compute? left right = some (BinaryOp.truth holds)) :
    facts.proves (.combine op (.const dtype left) (.const dtype right)) = holds := by
  rw [Expr.combine_const_of_predicate hop h, proves_ofBool hfree]

theorem proves_lt (hfree : facts.Consistent) :
    facts.proves (.lt (.const dtype left) (.const dtype right)) = decide (left < right) :=
  proves_combine hfree rfl rfl

theorem proves_le (hfree : facts.Consistent) :
    facts.proves (.le (.const dtype left) (.const dtype right)) = decide (left ≤ right) :=
  proves_combine hfree rfl rfl

theorem proves_eq (hfree : facts.Consistent) :
    facts.proves (.eq (.const dtype left) (.const dtype right)) = decide (left = right) :=
  proves_combine hfree rfl rfl

theorem smallerOrSecond_const (hfree : facts.Consistent) :
    facts.smallerOrSecond (.const dtype left) (.const dtype right) =
      .const dtype (if left < right then left else right) := by
  rw [smallerOrSecond, proves_lt hfree]
  by_cases hlt : left < right <;> simp [hlt]

/-- The quotient of literals rounded up. Only the sum that rounds up can wrap. -/
theorem ceilDiv_const (hfree : facts.Consistent) {dividend divisor : Int}
    (hdividend : dtype.contains dividend = true) (hdivisor : dtype.contains divisor = true)
    (hpos : 1 ≤ divisor) (hdefined : Word.floorMod? dividend divisor = some (dividend % divisor)) :
    facts.ceilDiv (.const dtype dividend) (.const dtype divisor) =
      .const dtype (if dividend % divisor = 0 then dividend / divisor
        else dtype.truncate (dividend + (divisor - 1)) / divisor) := by
  have hquotient : ∀ {x}, dtype.contains x = true →
      (Expr.const dtype x).floorDiv (.const dtype divisor) = .const dtype (x / divisor) :=
    fun {x} hx => Expr.combine_const_of_contains rfl
      (Word.floorDiv?_of_pos (DType.fits_of_contains hx) (by omega))
      (DType.contains_ediv hx (by omega))
  have hremainder : (Expr.const dtype dividend).floorMod (.const dtype divisor) =
      .const dtype (dividend % divisor) :=
    Expr.combine_const_of_contains rfl hdefined
      (DType.contains_emod hdivisor (by omega) dividend)
  have hless : (Expr.const dtype divisor).sub (.one dtype) = .const dtype (divisor - 1) := by
    rw [Expr.one, Expr.literal, DType.truncate_one]
    exact Expr.combine_const_of_contains rfl rfl
      (DType.contains_of_between (DType.contains_zero _) hdivisor (by omega) (by omega))
  have hsum : (Expr.const dtype dividend).add (.const dtype (divisor - 1)) =
      .const dtype (dtype.truncate (dividend + (divisor - 1))) :=
    Expr.combine_const rfl
  have hzero : Expr.zero dtype = .const dtype 0 := by
    rw [Expr.zero, Expr.literal, DType.truncate_zero]
  simp only [ceilDiv, Expr.dtype, hremainder, hzero, proves_eq hfree, hless, hsum,
    hquotient hdividend, hquotient (DType.contains_truncate _ _), decide_eq_true_eq,
    simplify_const]
  split <;> rfl

end Facts

/-- A rounded quotient by a positive divisor has at least one for a positive dividend,
and its multiple covers the dividend. -/
theorem one_le_and_covers_of_ceil {dividend divisor quotient : Int} (hdividend : 1 ≤ dividend)
    (hdivisor : 1 ≤ divisor)
    (h : quotient = if dividend % divisor = 0 then dividend / divisor
      else (dividend + (divisor - 1)) / divisor) :
    1 ≤ quotient ∧ dividend ≤ quotient * divisor := by
  have hcover : dividend ≤ quotient * divisor := by
    rw [h]
    split
    · have hsplit := Int.ediv_mul_add_emod dividend divisor
      omega
    · have hsplit := Int.ediv_mul_add_emod (dividend + (divisor - 1)) divisor
      have hlt := Int.emod_lt_of_pos (dividend + (divisor - 1)) (by omega : 0 < divisor)
      omega
  refine ⟨?_, hcover⟩
  by_contra hlt
  have hle : quotient * divisor ≤ 0 :=
    mul_nonpos_of_nonpos_of_nonneg (by omega) (by omega)
  omega

end LoopNest
