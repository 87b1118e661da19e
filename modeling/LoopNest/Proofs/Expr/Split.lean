/-
# Splitting a linear form by a divisor

The terms that a divisor divides and the rest add up to the form, and dividing the former is
exact. So the quotient of the form is the value of the divided part plus the quotient of the
rest, and the remainder of the form is the remainder of the rest.

Three kinds of division meet here. The terms are told apart by the remainder of a division that
truncates, the constant is split by one that rounds down, and the divisible part is divided by
one that truncates again. They agree because each of them is asked about multiples only: a
truncated remainder is zero exactly for these, and on these nothing is rounded. What the terms
stand for does not matter, so the value of a form is taken for any integers in their place.
-/

import LoopNest.Proofs.Expr.Rebuild
import Mathlib.Algebra.BigOperators.Ring.List
import Mathlib.Tactic.Linarith

namespace LoopNest

/-- A word is left when a product that is a word loses a positive factor. -/
theorem Word.fits_of_fits_mul {value factor : Int} (hfactor : 0 < factor)
    (h : fits (value * factor) = true) : fits value = true := by
  rw [fits_iff, least, greatest] at h ⊢
  rcases lt_or_ge value 0 with hsign | hsign
  · have hle : value * factor ≤ value := by nlinarith
    omega
  · have hle : value ≤ value * factor := by nlinarith
    omega

namespace LinearForm

variable {assignment : Assignment} {form : LinearForm} {divisor : Int} {value : Expr → Int}

/-- The value of a linear form whose terms stand for given integers. -/
def valueWith (value : Expr → Int) (form : LinearForm) : Int :=
  form.constant + (form.terms.map fun entry => entry.2 * value entry.1).sum

/-- What a form counts a term for, all of its entries together. -/
def coefficientOf (term : Expr) (form : LinearForm) : Int :=
  (form.terms.map fun entry => if entry.1 = term then entry.2 else 0).sum

/-- The constant and the coefficients are words. -/
structure InWords (form : LinearForm) : Prop where
  constant : Word.fits form.constant = true
  coefficients : ∀ entry ∈ form.terms, Word.fits entry.2 = true

/-- Each term goes to one of the two parts. -/
theorem terms_split (form : LinearForm) (divisor : Int) :
    form.terms.partition (fun entry => decide (divisor ∣ entry.2)) =
      ((form.divisiblePart divisor).terms, (form.remainingPart divisor).terms) := by
  rw [List.partition_eq_filter_filter]
  simp [divisiblePart, remainingPart, Int.dvd_iff_tmod_eq_zero, Function.comp_def]

theorem terms_split_perm (form : LinearForm) (divisor : Int) :
    ((form.divisiblePart divisor).terms ++ (form.remainingPart divisor).terms).Perm form.terms := by
  simpa [divisiblePart, remainingPart] using
    List.filter_append_perm (fun entry : Expr × Int => decide (entry.2.tmod divisor = 0)) form.terms

/-- What is summed up over the terms of a form is summed up over those of its two parts. -/
theorem sum_terms_split (form : LinearForm) (divisor : Int) (amount : Expr × Int → Int) :
    ((form.divisiblePart divisor).terms.map amount).sum +
        ((form.remainingPart divisor).terms.map amount).sum = (form.terms.map amount).sum := by
  rw [← List.sum_append, ← List.map_append]
  exact ((terms_split_perm form divisor).map amount).sum_eq

theorem dvd_of_mem_divisiblePart : ∀ entry ∈ (form.divisiblePart divisor).terms,
    divisor ∣ entry.2 :=
  fun _ hentry => Int.dvd_of_tmod_eq_zero (of_decide_eq_true (List.mem_filter.mp hentry).2)

/-- The multiple of the divisor that is split off the constant does not wrap. -/
def SplitsInWords (form : LinearForm) (divisor : Int) : Prop :=
  Word.fits (form.constant.fdiv divisor * divisor) = true

instance (form : LinearForm) (divisor : Int) : Decidable (form.SplitsInWords divisor) :=
  inferInstanceAs (Decidable (_ = true))

/-- Only a constant next to the least word has no multiple of the divisor below it. -/
theorem splitsInWords_iff (hconstant : Word.fits form.constant = true) (hpositive : 0 < divisor) :
    form.SplitsInWords divisor ↔
      Word.least + form.constant.fmod divisor ≤ form.constant := by
  have hmultiple : form.constant.fdiv divisor * divisor =
      form.constant - form.constant.fmod divisor := by
    rw [Int.fmod_def, sub_sub_cancel, mul_comm]
  have hlow := Int.fmod_nonneg_of_pos form.constant hpositive
  rw [Word.fits_iff] at hconstant
  rw [SplitsInWords, Word.fits_iff, hmultiple]
  omega

section Parts

variable (hpositive : 0 < divisor) (hdivisor : Word.fits divisor = true)
  (hsplits : form.SplitsInWords divisor)
include hpositive hsplits

/-- The constant is split by a division that rounds down. -/
theorem constant_divisiblePart :
    (form.divisiblePart divisor).constant = form.constant.fdiv divisor * divisor := by
  rw [divisiblePart, Word.floorDiv?, if_neg hpositive.ne', Word.check,
    if_pos (Word.fits_of_fits_mul hpositive hsplits), Option.getD_some, Word.wrap_of_fits hsplits]

theorem dvd_constant_divisiblePart : divisor ∣ (form.divisiblePart divisor).constant :=
  constant_divisiblePart hpositive hsplits ▸ Int.dvd_mul_left _ _

/-- Dividing the divisible part is exact. -/
theorem valueWith_divideBy (value : Expr → Int) :
    ((form.divisiblePart divisor).divideBy divisor).valueWith value * divisor =
      (form.divisiblePart divisor).valueWith value := by
  have hconstant := Int.tdiv_mul_cancel (dvd_constant_divisiblePart hpositive hsplits)
  have hterms : ∀ entry ∈ (form.divisiblePart divisor).terms,
      entry.2.tdiv divisor * value entry.1 * divisor = entry.2 * value entry.1 := by
    intro entry hentry
    rw [mul_right_comm, Int.tdiv_mul_cancel (dvd_of_mem_divisiblePart entry hentry)]
  rw [valueWith, valueWith, divideBy, List.map_map, add_mul, hconstant, ← List.sum_map_mul_right]
  exact congrArg _ (congrArg _ (List.map_congr_left hterms))

include hdivisor

/-- What is left of the constant is its remainder, which never wraps. -/
theorem constant_remainingPart :
    (form.remainingPart divisor).constant = form.constant.fmod divisor := by
  have hlow := Int.fmod_nonneg_of_pos form.constant hpositive
  have hhigh := Int.fmod_lt_of_pos form.constant hpositive
  have hfits : Word.fits (form.constant.fmod divisor) = true := by
    rw [Word.fits_iff, Word.least, Word.greatest] at hdivisor ⊢
    omega
  rw [remainingPart, constant_divisiblePart hpositive hsplits, mul_comm, ← Int.fmod_def,
    Word.wrap_of_fits hfits]

theorem constant_add_constant :
    (form.divisiblePart divisor).constant + (form.remainingPart divisor).constant =
      form.constant := by
  rw [constant_divisiblePart hpositive hsplits,
    constant_remainingPart hpositive hdivisor hsplits, mul_comm, Int.mul_fdiv_add_fmod]

/-- The two parts add up to the form. -/
theorem valueWith_split (value : Expr → Int) :
    (form.divisiblePart divisor).valueWith value + (form.remainingPart divisor).valueWith value =
      form.valueWith value := by
  have hterms := sum_terms_split form divisor fun entry => entry.2 * value entry.1
  rw [valueWith, valueWith, valueWith, ← hterms,
    ← constant_add_constant hpositive hdivisor hsplits]
  ring

/-- The quotient of a form, from the divided part and the rest. -/
theorem valueWith_ediv (value : Expr → Int) :
    form.valueWith value / divisor =
      ((form.divisiblePart divisor).divideBy divisor).valueWith value +
        (form.remainingPart divisor).valueWith value / divisor := by
  rw [← valueWith_split hpositive hdivisor hsplits, ← valueWith_divideBy hpositive hsplits,
    add_comm, Int.add_mul_ediv_right _ _ hpositive.ne', add_comm]

/-- The divided part is what the form and its rest differ by, divided. -/
theorem valueWith_divideBy_eq (value : Expr → Int) :
    ((form.divisiblePart divisor).divideBy divisor).valueWith value =
      (form.valueWith value - (form.remainingPart divisor).valueWith value) / divisor := by
  rw [← valueWith_split hpositive hdivisor hsplits, add_sub_cancel_right,
    ← valueWith_divideBy hpositive hsplits, Int.mul_ediv_cancel _ hpositive.ne']

/-- The remainder of a form is the remainder of its rest. -/
theorem valueWith_emod (value : Expr → Int) :
    form.valueWith value % divisor = (form.remainingPart divisor).valueWith value % divisor := by
  rw [← valueWith_split hpositive hdivisor hsplits, ← valueWith_divideBy hpositive hsplits,
    add_comm, Int.add_mul_emod_self_right]

theorem valueAt_ediv :
    form.valueAt assignment / divisor =
      ((form.divisiblePart divisor).divideBy divisor).valueAt assignment +
        (form.remainingPart divisor).valueAt assignment / divisor :=
  valueWith_ediv hpositive hdivisor hsplits _

theorem valueAt_divideBy_eq :
    ((form.divisiblePart divisor).divideBy divisor).valueAt assignment =
      (form.valueAt assignment - (form.remainingPart divisor).valueAt assignment) / divisor :=
  valueWith_divideBy_eq hpositive hdivisor hsplits _

theorem valueAt_emod :
    form.valueAt assignment % divisor =
      (form.remainingPart divisor).valueAt assignment % divisor :=
  valueWith_emod hpositive hdivisor hsplits _

end Parts

section Terms

variable {property : Expr → Prop}

/-- Both parts and the divided part have terms of the form only. -/
theorem forall_terms_divideBy (h : ∀ entry ∈ form.terms, property entry.1) (divisor : Int) :
    ∀ entry ∈ ((form.divisiblePart divisor).divideBy divisor).terms, property entry.1 := by
  intro entry hentry
  obtain ⟨original, hmem, rfl⟩ := List.mem_map.mp hentry
  exact h original (List.mem_filter.mp hmem).1

theorem forall_terms_remainingPart (h : ∀ entry ∈ form.terms, property entry.1) (divisor : Int) :
    ∀ entry ∈ (form.remainingPart divisor).terms, property entry.1 :=
  fun entry hentry => h entry (List.mem_filter.mp hentry).1

end Terms

/-- Two forms are the parts into which a divisor splits a form: they share out its terms and add
up to it, one has multiples of the divisor only, and the other a constant below the divisor. -/
structure SplitsInto (form divisible rest : LinearForm) (divisor : Int) : Prop where
  terms : form.terms.partition (fun entry => decide (divisor ∣ entry.2)) =
    (divisible.terms, rest.terms)
  coefficient : ∀ term,
    divisible.coefficientOf term + rest.coefficientOf term = form.coefficientOf term
  constant : divisible.constant + rest.constant = form.constant
  dvd_coefficients : ∀ entry ∈ divisible.terms, divisor ∣ entry.2
  dvd_constant : divisor ∣ divisible.constant
  between : 0 ≤ rest.constant ∧ rest.constant < divisor

theorem splitsInto_parts (hpositive : 0 < divisor) (hdivisor : Word.fits divisor = true)
    (hsplits : form.SplitsInWords divisor) :
    form.SplitsInto (form.divisiblePart divisor) (form.remainingPart divisor) divisor where
  terms := terms_split form divisor
  coefficient term := sum_terms_split form divisor _
  constant := constant_add_constant hpositive hdivisor hsplits
  dvd_coefficients := dvd_of_mem_divisiblePart
  dvd_constant := dvd_constant_divisiblePart hpositive hsplits
  between := by
    rw [constant_remainingPart hpositive hdivisor hsplits]
    exact ⟨Int.fmod_nonneg_of_pos _ hpositive, Int.fmod_lt_of_pos _ hpositive⟩

/-- Splitting stays within the words, dividing the divisible part included. What is divided is a
multiple, so multiplying back gives the word it came from. -/
theorem InWords.parts (h : form.InWords) (hpositive : 0 < divisor)
    (hsplits : form.SplitsInWords divisor) :
    (form.divisiblePart divisor).InWords ∧ (form.remainingPart divisor).InWords ∧
      ((form.divisiblePart divisor).divideBy divisor).InWords := by
  have hdivisible : (form.divisiblePart divisor).InWords :=
    ⟨Word.fits_wrap _, fun entry hentry => h.coefficients entry (List.mem_filter.mp hentry).1⟩
  have hquotient : ∀ {multiple : Int}, divisor ∣ multiple → Word.fits multiple = true →
      Word.fits (multiple.tdiv divisor) = true := fun hdvd hfits =>
    Word.fits_of_fits_mul hpositive ((Int.tdiv_mul_cancel hdvd).symm ▸ hfits)
  refine ⟨hdivisible,
    ⟨Word.fits_wrap _, fun entry hentry => h.coefficients entry (List.mem_filter.mp hentry).1⟩,
    hquotient (dvd_constant_divisiblePart hpositive hsplits) hdivisible.constant,
    fun entry hentry => ?_⟩
  obtain ⟨original, hmem, rfl⟩ := List.mem_map.mp hentry
  exact hquotient (dvd_of_mem_divisiblePart original hmem) (hdivisible.coefficients original hmem)

/-- Splitting a form by a positive divisor is a floored division with a remainder, for every sign
of the coefficients and of the constant. It shares out the terms, leaves a constant between zero
and the divisor and stays within the words; and whatever integers the terms stand for, the
quotient of the form is the divided part plus the quotient of the rest, and the remainder of the
form is that of the rest. -/
theorem split_exact (hwords : form.InWords) (hpositive : 0 < divisor)
    (hdivisor : Word.fits divisor = true)
    (hfloor : Word.fits (form.constant.fdiv divisor * divisor) = true) :
    form.SplitsInto (form.divisiblePart divisor) (form.remainingPart divisor) divisor ∧
      ((form.divisiblePart divisor).InWords ∧ (form.remainingPart divisor).InWords ∧
        ((form.divisiblePart divisor).divideBy divisor).InWords) ∧
      ∀ value : Expr → Int,
        (form.valueWith value).fdiv divisor =
            ((form.divisiblePart divisor).divideBy divisor).valueWith value +
              ((form.remainingPart divisor).valueWith value).fdiv divisor ∧
          (form.valueWith value).fmod divisor =
            ((form.remainingPart divisor).valueWith value).fmod divisor := by
  refine ⟨splitsInto_parts hpositive hdivisor hfloor, hwords.parts hpositive hfloor,
    fun value => ⟨?_, ?_⟩⟩
  · simp only [Int.fdiv_eq_ediv_of_nonneg _ hpositive.le]
    exact valueWith_ediv hpositive hdivisor hfloor value
  · simp only [Int.fmod_eq_emod_of_nonneg _ hpositive.le]
    exact valueWith_emod hpositive hdivisor hfloor value

/-- A form with a negative constant and coefficients of both signs, one of them the least word. -/
def signedForm : LinearForm where
  terms := [(.var ⟨.parameter 0, "x", .int64⟩, -9223372036854775808),
    (.var ⟨.parameter 1, "y", .int64⟩, 7), (.var ⟨.parameter 2, "z", .int64⟩, -6)]
  constant := -5
  dtype := .int64

/-- Split by four, the form keeps the least word in its divisible part and has three left of its
constant. With a one for each term, the rest has the quotient one and no remainder. -/
theorem split_exact_of_signedForm :
    (signedForm.InWords ∧ (0 : Int) < 4 ∧ Word.fits 4 = true ∧
      Word.fits (signedForm.constant.fdiv 4 * 4) = true) ∧
    (signedForm.SplitsInto (signedForm.divisiblePart 4) (signedForm.remainingPart 4) 4 ∧
      (signedForm.remainingPart 4).constant = 3) ∧
    (signedForm.valueWith fun _ => 1).fdiv 4 =
      ((signedForm.divisiblePart 4).divideBy 4).valueWith (fun _ => 1) + 1 ∧
    (signedForm.valueWith fun _ => 1).fmod 4 = 0 := by
  have hwords : signedForm.InWords := ⟨by decide, by decide⟩
  obtain ⟨hsplits, -, hvalue⟩ :=
    split_exact hwords (by decide : (0 : Int) < 4) (by decide) (by decide)
  exact ⟨⟨hwords, by decide, by decide, by decide⟩, ⟨hsplits, by decide⟩,
    (hvalue fun _ => 1).1.trans (by decide), (hvalue fun _ => 1).2.trans (by decide)⟩

end LinearForm

end LoopNest
