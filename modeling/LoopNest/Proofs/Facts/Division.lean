/-
# Quotients and remainders by a literal

Dividing by a positive literal splits the linear form of the dividend. Residues are
not enough here, since a quotient has to know the integer itself: the form has to
have the value of the expression and the rest has to stay within the type. The
quotient of the divided part may still wrap, because adding the quotient of the rest
brings it back.

Splitting the constant of the form multiplies a quotient back, and that product has to
be a word. A remainder of the rest multiplies its quotient back as well. This is asked
of the rest in addition to everything else: the dividend may have a remainder where its
rest has none.
-/

import LoopNest.Proofs.Facts.Bounds
import LoopNest.Proofs.Facts.Typed

namespace LoopNest

namespace DType

/-- Dividing by a positive number stays within a type. -/
theorem contains_ediv {dtype : DType} {value divisor : Int} (h : dtype.contains value = true)
    (hdivisor : 0 < divisor) : dtype.contains (value / divisor) = true := by
  rcases le_or_gt 0 value with hsign | hsign
  · exact contains_of_between (contains_zero dtype) h (Int.ediv_nonneg hsign hdivisor.le)
      (Int.ediv_le_self _ hsign)
  · refine contains_of_between h (contains_zero dtype) ?_
      (Int.ediv_neg_of_neg_of_pos hsign hdivisor).le
    exact (Int.le_ediv_iff_mul_le hdivisor).mpr (mul_le_of_one_le_right hsign.le hdivisor)

/-- A remainder by a value of a type belongs to the type. -/
theorem contains_emod {dtype : DType} {divisor : Int} (h : dtype.contains divisor = true)
    (hdivisor : 0 < divisor) (value : Int) : dtype.contains (value % divisor) = true :=
  contains_of_between (contains_zero dtype) h (Int.emod_nonneg _ hdivisor.ne')
    (Int.emod_lt_of_pos _ hdivisor).le

end DType

namespace Word

/-- Dividing a word by a positive number is defined. -/
theorem floorDiv?_of_pos {dividend divisor : Int} (h : fits dividend = true)
    (hdivisor : 0 < divisor) : floorDiv? dividend divisor = some (dividend / divisor) := by
  have hcontains : DType.int64.contains dividend = true := h
  have hfits := DType.fits_of_contains (DType.contains_ediv hcontains hdivisor)
  rw [floorDiv?, if_neg hdivisor.ne', Int.fdiv_eq_ediv_of_nonneg _ hdivisor.le, check, if_pos hfits]

/-- A remainder by a positive number is defined when the quotient can be multiplied back. -/
theorem floorMod?_of_pos {dividend divisor : Int} (h : fits dividend = true)
    (hdivisor : 0 < divisor) (hproduct : fits (dividend / divisor * divisor) = true)
    (hword : fits divisor = true) : floorMod? dividend divisor = some (dividend % divisor) := by
  have hcontains : DType.int64.contains divisor = true := hword
  have hremainder := DType.fits_of_contains (DType.contains_emod hcontains hdivisor dividend)
  have hdifference : dividend - dividend / divisor * divisor = dividend % divisor := by
    rw [mul_comm, Int.emod_def]
  simp [floorMod?, floorDiv?_of_pos h hdivisor, mul?, check, hproduct, hdifference, hremainder]

end Word

namespace LinearForm

/-- The divided part of the linear form of an expression. -/
def quotientForm (e : Expr) (divisor : Int) : LinearForm :=
  ((ofExpr e).divisiblePart divisor).divideBy divisor

/-- The rest of the linear form of an expression. -/
def restForm (e : Expr) (divisor : Int) : LinearForm :=
  (ofExpr e).remainingPart divisor

end LinearForm

open LinearForm (quotientForm restForm)

/-- Splitting a dividend by a literal is exact: the divisor, the form of the dividend
and its rest belong to the type, nothing overflows where the constant is split, and the
rebuilt rest is exact. -/
structure SplitsExactly (assignment : Assignment) (e : Expr) (divisor : Int) : Prop where
  fits : e.dtype.contains divisor = true
  words : (LinearForm.ofExpr e).SplitsInWords divisor
  truth : e.dtype = .bool → LinearForm.TruthExact assignment e
  value : e.dtype.contains ((LinearForm.ofExpr e).valueAt assignment) = true
  restTruth : e.dtype = .bool → (restForm e divisor).TruthWithin assignment
  restValue : e.dtype.contains ((restForm e divisor).valueAt assignment) = true
  restExact : (restForm e divisor).toExpr.Exact assignment

instance (assignment : Assignment) (e : Expr) (divisor : Int) :
    Decidable (SplitsExactly assignment e divisor) :=
  decidable_of_iff
    (e.dtype.contains divisor = true ∧ (LinearForm.ofExpr e).SplitsInWords divisor ∧
      (e.dtype = .bool → LinearForm.TruthExact assignment e) ∧
      e.dtype.contains ((LinearForm.ofExpr e).valueAt assignment) = true ∧
      (e.dtype = .bool → (restForm e divisor).TruthWithin assignment) ∧
      e.dtype.contains ((restForm e divisor).valueAt assignment) = true ∧
      (restForm e divisor).toExpr.Exact assignment)
    ⟨fun h => ⟨h.1, h.2.1, h.2.2.1, h.2.2.2.1, h.2.2.2.2.1, h.2.2.2.2.2.1, h.2.2.2.2.2.2⟩,
      fun h => ⟨h.fits, h.words, h.truth, h.value, h.restTruth, h.restValue, h.restExact⟩⟩

/-- A split that also divides truth values within their type. -/
structure DividesLinearly (assignment : Assignment) (e : Expr) (divisor : Int) : Prop
    extends SplitsExactly assignment e divisor where
  quotientTruth : e.dtype = .bool → (quotientForm e divisor).TruthWithin assignment

instance (assignment : Assignment) (e : Expr) (divisor : Int) :
    Decidable (DividesLinearly assignment e divisor) :=
  decidable_of_iff
    (SplitsExactly assignment e divisor ∧
      (e.dtype = .bool → (quotientForm e divisor).TruthWithin assignment))
    ⟨fun h => ⟨h.1, h.2⟩, fun h => ⟨h.toSplitsExactly, h.quotientTruth⟩⟩

/-- A split whose rest has a remainder: the product of its quotient and the divisor is
a word. -/
structure LeavesExactly (assignment : Assignment) (e : Expr) (divisor : Int) : Prop
    extends SplitsExactly assignment e divisor where
  product : Word.fits ((restForm e divisor).valueAt assignment / divisor * divisor) = true

instance (assignment : Assignment) (e : Expr) (divisor : Int) :
    Decidable (LeavesExactly assignment e divisor) :=
  decidable_of_iff
    (SplitsExactly assignment e divisor ∧
      Word.fits ((restForm e divisor).valueAt assignment / divisor * divisor) = true)
    ⟨fun h => ⟨h.1, h.2⟩, fun h => ⟨h.toSplitsExactly, h.product⟩⟩

section Splitting

variable {assignment : Assignment} {facts : Facts} {e : Expr} {divisor value : Int}

/-- The form of the dividend has the value of the dividend, not only its residue. -/
theorem SplitsExactly.valueAt_ofExpr (h : SplitsExactly assignment e divisor)
    (hwell : e.WellTyped) (hvalue : e.eval assignment = .ok value) :
    (LinearForm.ofExpr e).valueAt assignment = value :=
  DType.eq_of_modEq h.value (Expr.eval_contains hvalue)
    (LinearForm.valueAt_ofExpr hwell.formed.uniform hvalue h.truth)

/-- The rest of a dividend that has a value denotes the value of its form, unless truth values
add up to more than one. -/
theorem denotes_rest (hwell : e.WellTyped) (hvalue : e.eval assignment = .ok value)
    (htruth : e.dtype = .bool → (restForm e divisor).TruthWithin assignment) :
    (restForm e divisor).toExpr.Denotes assignment e.dtype
      ((restForm e divisor).valueAt assignment) := by
  have hdtype : (restForm e divisor).dtype = e.dtype := LinearForm.dtype_ofExpr e
  have hterms := LinearForm.forall_terms_ofExpr (LinearForm.inherited_hasValue assignment)
    ⟨value, hvalue⟩
  have hdenotes := LinearForm.denotes_toExpr
    (LinearForm.forall_terms_remainingPart
      (LinearForm.forall_terms_typedAt ⟨hwell, hdtype.symm⟩) divisor)
    (LinearForm.forall_terms_remainingPart hterms divisor)
    (fun heq => htruth (hdtype ▸ heq))
  exact hdtype ▸ hdenotes

/-- So does the divided part. -/
theorem denotes_quotient (hwell : e.WellTyped) (hvalue : e.eval assignment = .ok value)
    (htruth : e.dtype = .bool → (quotientForm e divisor).TruthWithin assignment) :
    (quotientForm e divisor).toExpr.Denotes assignment e.dtype
      ((quotientForm e divisor).valueAt assignment) := by
  have hdtype : (quotientForm e divisor).dtype = e.dtype := LinearForm.dtype_ofExpr e
  have hterms := LinearForm.forall_terms_ofExpr (LinearForm.inherited_hasValue assignment)
    ⟨value, hvalue⟩
  have hdenotes := LinearForm.denotes_toExpr
    (LinearForm.forall_terms_divideBy
      (LinearForm.forall_terms_typedAt ⟨hwell, hdtype.symm⟩) divisor)
    (LinearForm.forall_terms_divideBy hterms divisor)
    (fun heq => htruth (hdtype ▸ heq))
  exact hdtype ▸ hdenotes

theorem SplitsExactly.eval_rest (h : SplitsExactly assignment e divisor) (hwell : e.WellTyped)
    (hvalue : e.eval assignment = .ok value) :
    (restForm e divisor).toExpr.eval assignment =
      .ok ((restForm e divisor).valueAt assignment) :=
  (denotes_rest hwell hvalue h.restTruth).eval_eq h.restValue

/-- An expression that provably lies between zero and a divisor does so. -/
theorem Facts.Respects.withinDivisor (hrespects : facts.Respects assignment) (hformed : e.Formed)
    (hexact : e.Exact assignment) (hvalue : e.eval assignment = .ok value)
    (h : facts.withinDivisor e divisor = true) : 0 ≤ value ∧ value < divisor := by
  have hadmits := hrespects.bound_admits hformed hexact hvalue
  simp only [Facts.withinDivisor, Bool.and_eq_true, decide_eq_true_eq] at h
  exact ⟨h.1.trans hadmits.lower, hadmits.upper.trans_lt h.2⟩

/-- A quotient by a positive literal of the type is the floored quotient. -/
theorem eval_floorDiv_literal (hwell : e.WellTyped) (hvalue : e.eval assignment = .ok value)
    (hdivisor : 0 < divisor) (hcontains : e.dtype.contains divisor = true) :
    (e.floorDiv (.literal e.dtype divisor)).eval assignment = .ok (value / divisor) := by
  have hfits := DType.fits_of_contains (Expr.eval_contains hvalue)
  apply Expr.eval_combine hwell.formed (Expr.formed_literal _ _) rfl
    (by simp [BinaryOp.isLogical])
  have hresult : BinaryOp.compute? .floorDiv value divisor = some (value / divisor) :=
    Word.floorDiv?_of_pos hfits hdivisor
  rw [Expr.eval_binary_of_eval hvalue (Expr.eval_literal hcontains) hresult]
  have hquotient := DType.contains_ediv (Expr.eval_contains hvalue) hdivisor
  exact congrArg Except.ok (DType.truncate_of_contains hquotient)

/-- A remainder by a positive literal of the type is the floored remainder, as long as
the quotient can be multiplied back. -/
theorem eval_floorMod_literal (hwell : e.WellTyped) (hvalue : e.eval assignment = .ok value)
    (hdivisor : 0 < divisor) (hcontains : e.dtype.contains divisor = true)
    (hproduct : Word.fits (value / divisor * divisor) = true) :
    (e.floorMod (.literal e.dtype divisor)).eval assignment = .ok (value % divisor) := by
  have hfits := DType.fits_of_contains (Expr.eval_contains hvalue)
  apply Expr.eval_combine hwell.formed (Expr.formed_literal _ _) rfl
    (by simp [BinaryOp.isLogical])
  have hresult : BinaryOp.compute? .floorMod value divisor = some (value % divisor) :=
    Word.floorMod?_of_pos hfits hdivisor hproduct (DType.fits_of_contains hcontains)
  rw [Expr.eval_binary_of_eval hvalue (Expr.eval_literal hcontains) hresult]
  exact congrArg Except.ok (DType.truncate_of_contains
    (DType.contains_emod hcontains hdivisor value))

/-- Dividing the linear form gives the floored quotient. -/
theorem Facts.Respects.eval_divideLinear (hrespects : facts.Respects assignment)
    (hwell : e.WellTyped) (hdivisor : 0 < divisor) (h : DividesLinearly assignment e divisor)
    (hvalue : e.eval assignment = .ok value) :
    (facts.divideLinear e divisor).eval assignment = .ok (value / divisor) := by
  have hrest := h.eval_rest hwell hvalue
  have hquotient := denotes_quotient hwell hvalue h.quotientTruth
  have htyped := LinearForm.typedAt_rest ⟨hwell, rfl⟩ divisor
  have hsplit : value / divisor = (quotientForm e divisor).valueAt assignment +
      (restForm e divisor).valueAt assignment / divisor := by
    rw [← h.valueAt_ofExpr hwell hvalue]
    exact LinearForm.valueAt_ediv hdivisor (DType.fits_of_contains h.fits) h.words
  have hcontains := DType.contains_ediv (Expr.eval_contains hvalue) hdivisor
  have hofRest : ((restForm e divisor).toExpr.floorDiv
      (.literal (restForm e divisor).toExpr.dtype divisor)).Denotes assignment e.dtype
        ((restForm e divisor).valueAt assignment / divisor) :=
    .of_eval (htyped.combine rfl (htyped.dtype_eq.symm ▸ .literal divisor))
      (eval_floorDiv_literal htyped.wellTyped hrest hdivisor (htyped.dtype_eq.symm ▸ h.fits))
  have hnoRest : facts.quotientOfRest? (restForm e divisor).toExpr divisor = none →
      (restForm e divisor).valueAt assignment / divisor = 0 := by
    intro hnone
    simp only [Facts.quotientOfRest?, ite_eq_left_iff, reduceCtorEq, imp_false, not_not,
      Bool.or_eq_true] at hnone
    rcases hnone with hzero | hwithin
    · rw [Except.ok.inj (hrest.symm.trans (Expr.eval_of_isZero hzero)), Int.zero_ediv]
    · obtain ⟨hlow, hhigh⟩ := hrespects.withinDivisor htyped.wellTyped.formed h.restExact hrest
        hwithin
      exact Int.ediv_eq_zero_of_lt hlow hhigh
  have hcast : ∀ {result : Expr}, result.Denotes assignment e.dtype (value / divisor) →
      (result.castTo e.dtype).eval assignment = .ok (value / divisor) := fun hresult => by
    rw [Expr.castTo_of_dtype_eq hresult.dtype_eq]
    exact hresult.eval_eq hcontains
  unfold Facts.divideLinear
  apply hcast
  split
  · rename_i ofRest hsome
    simp only [Facts.quotientOfRest?, Option.ite_none_left_eq_some, Option.some.injEq] at hsome
    rw [← hsome.2]
    split
    · rename_i hzero
      obtain ⟨quotient, heval, hresidue⟩ := hquotient.eval
      rw [Except.ok.inj (heval.symm.trans (Expr.eval_of_isZero hzero))] at hresidue
      have hsum := hresidue.add_right ((restForm e divisor).valueAt assignment / divisor)
      rw [zero_add] at hsum
      rw [hsplit]
      exact hofRest.congr hsum
    · rw [hsplit] at hcontains ⊢
      exact hquotient.combine rfl (fun _ _ => rfl) Int.ModEq.add hofRest fun _ => hcontains
  · rename_i hnone
    rw [hsplit, hnoRest hnone, add_zero]
    exact hquotient

/-- The dividend and the divisor that are left when divisions by literals are merged. -/
def mergedDivision : Expr → Int → Expr × Int
  | .binary .floorDiv dividend inner, divisor =>
    match Facts.mergedDivisor? inner divisor with
    | some product => mergedDivision dividend product
    | none => (.binary .floorDiv dividend inner, divisor)
  | e, divisor => (e, divisor)

theorem Facts.simplifyDiv_eq (facts : Facts) (e : Expr) (divisor : Int) :
    facts.simplifyDiv e divisor =
      facts.divideLinear (mergedDivision e divisor).1 (mergedDivision e divisor).2 := by
  fun_induction mergedDivision e divisor with
  | case1 dividend inner divisor product hproduct ih =>
      simp only [Facts.simplifyDiv, hproduct]
      exact ih
  | case2 dividend inner divisor hnone => simp only [Facts.simplifyDiv, hnone]
  | case3 e divisor hother =>
      unfold Facts.simplifyDiv
      split
      · exact (hother _ _ rfl).elim
      · rfl

/-- Merging divisions leaves the quotient as it is. -/
theorem eval_mergedDivision (hwell : e.WellTyped) (hdivisor : 0 < divisor)
    (hvalue : e.eval assignment = .ok value) :
    (mergedDivision e divisor).1.WellTyped ∧ 0 < (mergedDivision e divisor).2 ∧
      ∃ dividend, (mergedDivision e divisor).1.eval assignment = .ok dividend ∧
        dividend / (mergedDivision e divisor).2 = value / divisor := by
  fun_induction mergedDivision e divisor generalizing value with
  | case1 dividend inner divisor product hproduct ih =>
      simp only [Facts.mergedDivisor?, Option.bind_eq_bind, Option.bind_eq_some_iff,
        Option.ite_none_right_eq_some, Word.mul?, Word.check_eq_some_iff] at hproduct
      obtain ⟨literal, hliteral, hpositive, -, rfl⟩ := hproduct
      obtain ⟨left, right, result, hleft, hright, hresult, rfl⟩ :=
        Expr.eval_binary_inv_of_not_isLogical rfl hvalue
      obtain rfl : literal = right := Except.ok.inj
        ((Expr.eval_of_value? hwell.formed.2.1 hliteral).symm.trans hright)
      have hcontains := Expr.eval_contains hleft
      have hquotient : BinaryOp.compute? .floorDiv left literal = some (left / literal) :=
        Word.floorDiv?_of_pos (DType.fits_of_contains hcontains) hpositive
      obtain rfl : left / literal = result := Option.some.inj (hquotient.symm.trans hresult)
      rw [show (Expr.binary .floorDiv dividend inner).dtype = dividend.dtype from rfl,
        DType.truncate_of_contains (DType.contains_ediv hcontains hpositive),
        Int.ediv_ediv_of_nonneg hpositive.le]
      exact ih ⟨hwell.formed.1, hwell.complements.1⟩ (mul_pos hpositive hdivisor) hleft
  | case2 dividend inner divisor hnone => exact ⟨hwell, hdivisor, value, hvalue, rfl⟩
  | case3 e divisor hother => exact ⟨hwell, hdivisor, value, hvalue, rfl⟩

/-- Nothing overflows where the constant of the dividend is split once divisions are merged. -/
def MergesInWords (e : Expr) (divisor : Int) : Prop :=
  (LinearForm.ofExpr (mergedDivision e divisor).1).SplitsInWords (mergedDivision e divisor).2

instance (e : Expr) (divisor : Int) : Decidable (MergesInWords e divisor) :=
  inferInstanceAs (Decidable (LinearForm.SplitsInWords _ _))

/-- Dividing is exact when it is once the divisions are merged. -/
def DividesExactly (assignment : Assignment) (e : Expr) (divisor : Int) : Prop :=
  DividesLinearly assignment (mergedDivision e divisor).1 (mergedDivision e divisor).2

instance (e : Expr) (divisor : Int) : Decidable (DividesExactly assignment e divisor) :=
  inferInstanceAs (Decidable (DividesLinearly assignment _ _))

/-- The quotient by a positive literal is the floored quotient, nested divisions
included. -/
theorem Facts.Respects.eval_simplifyDiv (hrespects : facts.Respects assignment)
    (hwell : e.WellTyped) (hdivisor : 0 < divisor) (h : DividesExactly assignment e divisor)
    (hvalue : e.eval assignment = .ok value) :
    (facts.simplifyDiv e divisor).eval assignment = .ok (value / divisor) := by
  obtain ⟨hwell', hpositive, dividend, hdividend, heq⟩ := eval_mergedDivision hwell hdivisor hvalue
  rw [Facts.simplifyDiv_eq, ← heq]
  exact hrespects.eval_divideLinear hwell' hpositive h hdividend

/-- The remainder by a positive literal is the floored remainder. -/
theorem Facts.Respects.eval_simplifyMod (hrespects : facts.Respects assignment)
    (hwell : e.WellTyped) (hdivisor : 0 < divisor) (h : LeavesExactly assignment e divisor)
    (hvalue : e.eval assignment = .ok value) :
    (facts.simplifyMod e divisor).eval assignment = .ok (value % divisor) := by
  have hrest := h.eval_rest hwell hvalue
  have htyped := LinearForm.typedAt_rest ⟨hwell, rfl⟩ divisor
  have hsplit : value % divisor = (restForm e divisor).valueAt assignment % divisor := by
    rw [← h.valueAt_ofExpr hwell hvalue]
    exact LinearForm.valueAt_emod hdivisor (DType.fits_of_contains h.fits) h.words
  unfold Facts.simplifyMod
  rw [hsplit]
  simp only
  split
  · rename_i hwithin
    obtain ⟨hlow, hhigh⟩ := hrespects.withinDivisor htyped.wellTyped.formed h.restExact hrest
      hwithin
    rw [Expr.castTo_of_dtype_eq htyped.dtype_eq, Int.emod_eq_of_lt hlow hhigh]
    exact hrest
  · have hremainder : ((restForm e divisor).toExpr.floorMod
        (.literal (restForm e divisor).toExpr.dtype divisor)).TypedAt e.dtype :=
      htyped.combine rfl (htyped.dtype_eq.symm ▸ .literal divisor)
    rw [restForm] at hremainder
    rw [Expr.castTo_of_dtype_eq hremainder.dtype_eq]
    exact eval_floorMod_literal htyped.wellTyped hrest hdivisor (htyped.dtype_eq.symm ▸ h.fits)
      h.product

end Splitting

end LoopNest
