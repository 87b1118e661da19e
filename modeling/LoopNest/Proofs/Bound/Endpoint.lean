/-
# Endpoints enclose values

Endpoint arithmetic saturates, so it can only be trusted on values that lie
strictly between the infinities. Such a value is finite. For each operation on
endpoints this file says on which side of the exact result it stays: below it when
the operands are lower ends, above it when they are upper ends.

A product needs no case analysis about infinities at all. An infinite factor is so
large that the exact product with any nonzero word saturates on the side that the
signs call for, so the product of endpoints is the saturated exact product.
-/

import LoopNest.Bound
import Mathlib.Algebra.Order.Ring.Int
import Mathlib.Tactic.SplitIfs

namespace LoopNest.Endpoint

/-- Strictly between the infinities, with a margin on the negative side that keeps
the finite values symmetric. -/
def IsFinite (value : Int) : Prop :=
  -posInf < value ∧ value < posInf

instance (value : Int) : Decidable (IsFinite value) :=
  inferInstanceAs (Decidable (_ ∧ _))

theorem posInf_eq : posInf = 9223372036854775807 := rfl

theorem negInf_eq : negInf = -9223372036854775808 := rfl

theorem isInfinite_iff {endpoint : Int} :
    isInfinite endpoint = true ↔ endpoint = negInf ∨ endpoint = posInf := by
  simp [isInfinite]

/-- Saturation keeps the order. -/
theorem clamp_le_clamp {first second : Int} (h : first ≤ second) :
    clamp first ≤ clamp second := by
  simp only [clamp, posInf_eq, negInf_eq]
  split_ifs <;> omega

/-- A finite value survives saturation. -/
theorem clamp_of_isFinite {value : Int} (h : IsFinite value) : clamp value = value := by
  obtain ⟨hlow, hhigh⟩ := h
  rw [clamp, if_neg (by omega), if_neg (by omega)]

/-- The sum of lower ends stays below a finite sum. Neither of them may be positive
infinity, which would dominate. -/
theorem add_le {left right x y : Int} (hleft : left ≤ x) (hright : right ≤ y)
    (hleft' : left < posInf) (hright' : right < posInf) (h : IsFinite (x + y)) :
    add left right ≤ x + y := by
  obtain ⟨hlow, hhigh⟩ := h
  simp only [add, clamp, isInfinite_iff, posInf_eq, negInf_eq] at *
  split_ifs <;> omega

/-- The sum of upper ends stays above a finite sum. -/
theorem le_add {left right x y : Int} (hleft : x ≤ left) (hright : y ≤ right)
    (hleft' : -posInf < left) (hright' : -posInf < right) (h : IsFinite (x + y)) :
    x + y ≤ add left right := by
  obtain ⟨hlow, hhigh⟩ := h
  simp only [add, clamp, isInfinite_iff, posInf_eq, negInf_eq] at *
  split_ifs <;> omega

/-- The difference of a lower and an upper end stays below a finite difference. -/
theorem sub_le {left right x y : Int} (hleft : left ≤ x) (hright : y ≤ right)
    (hleft' : left < posInf) (hright' : -posInf < right) (h : IsFinite (x - y)) :
    add left (neg right) ≤ x - y := by
  obtain ⟨hlow, hhigh⟩ := h
  simp only [add, neg, clamp, isInfinite_iff, posInf_eq, negInf_eq] at *
  split_ifs <;> omega

/-- The difference of an upper and a lower end stays above a finite difference. -/
theorem le_sub {left right x y : Int} (hleft : x ≤ left) (hright : right ≤ y)
    (hleft' : -posInf < left) (hright' : right < posInf) (h : IsFinite (x - y)) :
    x - y ≤ add left (neg right) := by
  obtain ⟨hlow, hhigh⟩ := h
  simp only [add, neg, clamp, isInfinite_iff, posInf_eq, negInf_eq] at *
  split_ifs <;> omega

/-- The opposite of an upper end is a lower end of the opposite value. -/
theorem neg_le {endpoint x : Int} (h : x ≤ endpoint) (hx : IsFinite (-x)) :
    neg endpoint ≤ -x := by
  obtain ⟨hlow, hhigh⟩ := hx
  simp only [neg, posInf_eq, negInf_eq] at *
  split_ifs <;> omega

/-- The opposite of a lower end is an upper end of the opposite value. -/
theorem le_neg {endpoint x : Int} (h : endpoint ≤ x) (hx : IsFinite (-x)) :
    -x ≤ neg endpoint := by
  obtain ⟨hlow, hhigh⟩ := hx
  simp only [neg, posInf_eq, negInf_eq] at *
  split_ifs <;> omega

/-- A product of nonzero words one of which is infinite saturates on the side that
the signs call for. -/
theorem clamp_mul_of_isInfinite {left right : Int} (hleft : left ≠ 0) (hright : right ≠ 0)
    (h : left = negInf ∨ left = posInf) :
    clamp (left * right) = infinityOfSigns left right := by
  simp only [infinityOfSigns, clamp, decide_eq_decide]
  rw [posInf_eq, negInf_eq] at *
  rcases h with rfl | rfl <;> rcases lt_or_gt_of_ne hright with hsign | hsign <;>
    split_ifs <;> omega

/-- A product of endpoints is the saturated exact product. -/
theorem mul_eq_clamp (left right : Int) : mul left right = clamp (left * right) := by
  unfold mul
  split_ifs with hzero hinf
  · simp only [Bool.or_eq_true, decide_eq_true_eq] at hzero
    rcases hzero with rfl | rfl <;> simp [clamp, posInf_eq]
  · simp only [Bool.or_eq_true, decide_eq_true_eq, not_or] at hzero
    rw [Bool.or_eq_true, isInfinite_iff, isInfinite_iff] at hinf
    rcases hinf with hleft | hright
    · exact (clamp_mul_of_isInfinite hzero.1 hzero.2 hleft).symm
    · rw [mul_comm, clamp_mul_of_isInfinite hzero.2 hzero.1 hright, infinityOfSigns,
        infinityOfSigns]
      simp only [eq_comm]
  · rfl

/-- A value between two others has its product between theirs. -/
theorem min_mul_le {low high x : Int} (hlow : low ≤ x) (hhigh : x ≤ high) (y : Int) :
    Min.min (low * y) (high * y) ≤ x * y := by
  rcases le_total 0 y with hy | hy
  · exact (min_le_left _ _).trans (mul_le_mul_of_nonneg_right hlow hy)
  · exact (min_le_right _ _).trans (mul_le_mul_of_nonpos_right hhigh hy)

theorem le_max_mul {low high x : Int} (hlow : low ≤ x) (hhigh : x ≤ high) (y : Int) :
    x * y ≤ Max.max (low * y) (high * y) := by
  rcases le_total 0 y with hy | hy
  · exact (mul_le_mul_of_nonneg_right hhigh hy).trans (le_max_right _ _)
  · exact (mul_le_mul_of_nonpos_right hlow hy).trans (le_max_left _ _)

/-- Dividing by an infinity counts as zero. -/
theorem div_of_isInfinite {dividend divisor : Int} (h : isInfinite divisor = true) :
    div dividend divisor = 0 := by
  simp [div, h]

/-- Dividing an infinity by a finite divisor gives the infinity of the right sign. -/
theorem div_of_isInfinite_dividend {dividend divisor : Int} (h : isInfinite divisor = false)
    (hdividend : isInfinite dividend = true) :
    div dividend divisor = infinityOfSigns dividend divisor := by
  simp [div, h, hdividend]

/-- Finite endpoints divide exactly. -/
theorem div_of_not_isInfinite {dividend divisor : Int} (h : isInfinite divisor = false)
    (hdividend : isInfinite dividend = false) (hzero : divisor ≠ 0)
    (hlow : negInf ≤ dividend) (hhigh : dividend ≤ posInf) :
    div dividend divisor = dividend.fdiv divisor := by
  have hne : dividend ≠ negInf ∧ dividend ≠ posInf := by
    rw [← not_or, ← isInfinite_iff, hdividend]
    exact Bool.false_ne_true
  have habs := Int.natAbs_fdiv_le_natAbs dividend divisor
  have hfits : Word.fits (dividend.fdiv divisor) = true := by
    rw [Word.fits_iff, Word.least, Word.greatest]
    rw [posInf_eq, negInf_eq] at *
    omega
  simp [div, h, hdividend, Word.floorDiv?, hzero, Word.check, hfits]

/-- The quotient of a nonnegative dividend by a positive divisor shrinks as the
divisor grows; for a negative dividend it is the other way round. -/
theorem ediv_le_ediv_of_divisor_le {x y z : Int} (hx : 0 ≤ x) (hy : 0 < y) (h : y ≤ z) :
    x / z ≤ x / y := by
  have hz : 0 < z := hy.trans_le h
  apply (Int.le_ediv_iff_mul_le hy).mpr
  calc x / z * y ≤ x / z * z := Int.mul_le_mul_of_nonneg_left h (Int.ediv_nonneg hx hz.le)
    _ ≤ x := Int.ediv_mul_le x hz.ne'

theorem ediv_le_ediv_of_divisor_le_of_neg {x y z : Int} (hx : x < 0) (hy : 0 < y) (h : y ≤ z) :
    x / y ≤ x / z := by
  have hz : 0 < z := hy.trans_le h
  apply (Int.le_ediv_iff_mul_le hz).mpr
  have hneg : x / y ≤ 0 := (Int.ediv_neg_of_neg_of_pos hx hy).le
  calc x / y * z ≤ x / y * y := Int.mul_le_mul_of_nonpos_left hneg h
    _ ≤ x := Int.ediv_mul_le x hy.ne'

/-- A quotient of endpoints stays below a finite value when it does so in each of the
three ways in which it is found. -/
theorem div_le {dividend divisor value : Int} (hzero : divisor ≠ 0)
    (hlow : negInf ≤ dividend) (hhigh : dividend ≤ posInf) (hfinite : IsFinite value)
    (hdivisor : isInfinite divisor = true → 0 ≤ value)
    (hsigns : isInfinite dividend = true → ¬(dividend < 0 ↔ divisor < 0))
    (hquotient : dividend.fdiv divisor ≤ value) : div dividend divisor ≤ value := by
  cases hinf : isInfinite divisor with
  | true => exact (div_of_isInfinite hinf).trans_le (hdivisor hinf)
  | false =>
      cases hinf' : isInfinite dividend with
      | true =>
          rw [div_of_isInfinite_dividend hinf hinf', infinityOfSigns,
            if_neg (by simpa using hsigns hinf')]
          exact (show negInf ≤ -posInf by decide).trans hfinite.1.le
      | false => rwa [div_of_not_isInfinite hinf hinf' hzero hlow hhigh]

theorem le_div {dividend divisor value : Int} (hzero : divisor ≠ 0)
    (hlow : negInf ≤ dividend) (hhigh : dividend ≤ posInf) (hfinite : IsFinite value)
    (hdivisor : isInfinite divisor = true → value ≤ 0)
    (hsigns : isInfinite dividend = true → (dividend < 0 ↔ divisor < 0))
    (hquotient : value ≤ dividend.fdiv divisor) : value ≤ div dividend divisor := by
  cases hinf : isInfinite divisor with
  | true => exact (hdivisor hinf).trans_eq (div_of_isInfinite hinf).symm
  | false =>
      cases hinf' : isInfinite dividend with
      | true =>
          rw [div_of_isInfinite_dividend hinf hinf', infinityOfSigns,
            if_pos (by simpa using hsigns hinf')]
          exact hfinite.2.le
      | false => rwa [div_of_not_isInfinite hinf hinf' hzero hlow hhigh]

end LoopNest.Endpoint
