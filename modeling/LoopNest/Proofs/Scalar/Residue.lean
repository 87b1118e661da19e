/-
# Residues of scalar types

Wrapping a value into an integer type keeps its residue modulo the number of
values of the type, and two values of the type with the same residue are equal.
These two facts carry every argument about wrapped arithmetic. Truth values have
no residues: wrapping sends every nonzero value to one. For them the modulus is
zero, modulo which only equal values agree, so the same statements hold wherever
wrapping changes nothing.
-/

import LoopNest.Scalar.Promotion
import Mathlib.Data.Int.ModEq

namespace LoopNest.DType

/-- The number of values of an integer type, and zero for truth values, which
wrapping does not treat as residues. -/
def modulus : DType → Int
  | bool => 0
  | int8 | uint8 => 256
  | int16 | uint16 => 65536
  | int32 | uint32 => 4294967296
  | uint64 => 9223372036854775808
  | int64 | index => 18446744073709551616

/-- The moduli of the integer types divide the number of words, so a wrapped word
keeps the residue too. -/
theorem modulus_dvd_words {dtype : DType} (integer : dtype ≠ bool) :
    dtype.modulus ∣ 18446744073709551616 := by
  cases dtype <;> first | exact absurd rfl integer | decide

/-- Wrapping into an integer type keeps the residue modulo the number of its values. -/
theorem truncate_modEq {dtype : DType} (integer : dtype ≠ bool) (value : Int) :
    dtype.truncate value ≡ value [ZMOD dtype.modulus] := by
  cases dtype <;>
    simp only [truncate, modulus, Word.wrap, Int.mod_modEq]
  case bool => exact absurd rfl integer
  all_goals exact Int.bmod_emod

/-- Wrapping keeps the residue wherever a truth value is not wrapped. -/
theorem truncate_modEq_of_bool {dtype : DType} {value : Int}
    (h : dtype = bool → dtype.contains value = true) :
    dtype.truncate value ≡ value [ZMOD dtype.modulus] := by
  by_cases hbool : dtype = bool
  · rw [truncate_of_contains (h hbool)]
  · exact truncate_modEq hbool value

/-- A type has only one value with a given residue. -/
theorem eq_of_modEq {dtype : DType} {first second : Int}
    (hfirst : dtype.contains first = true) (hsecond : dtype.contains second = true)
    (h : first ≡ second [ZMOD dtype.modulus]) : first = second := by
  rw [contains_iff] at hfirst hsecond
  obtain ⟨k, hk⟩ := h.dvd
  cases dtype <;>
    simp only [minValue, maxValue, modulus, Word.least, Word.greatest] at * <;> omega

/-- Values with the same residue wrap to the same value. -/
theorem truncate_congr {dtype : DType} {first second : Int}
    (h : first ≡ second [ZMOD dtype.modulus]) :
    dtype.truncate first = dtype.truncate second := by
  by_cases hbool : dtype = bool
  · subst hbool
    rw [Int.modEq_zero_iff.mp h]
  · exact eq_of_modEq (contains_truncate _ _) (contains_truncate _ _)
      (((truncate_modEq hbool _).trans h).trans (truncate_modEq hbool _).symm)

/-- Every type holds zero. -/
@[simp] theorem contains_zero (dtype : DType) : dtype.contains 0 = true := by
  cases dtype <;> decide

/-- Every type holds one. -/
@[simp] theorem contains_one (dtype : DType) : dtype.contains 1 = true := by
  cases dtype <;> decide

theorem contains_of_le_maxValue {dtype : DType} {value : Int} (hnonneg : 0 ≤ value)
    (h : value ≤ dtype.maxValue) : dtype.contains value = true :=
  contains_iff.mpr ⟨(contains_iff.mp (contains_zero dtype)).1.trans hnonneg, h⟩

/-- The values of every type are words. -/
theorem fits_of_contains {dtype : DType} {value : Int} (h : dtype.contains value = true) :
    Word.fits value = true := by
  rw [contains_iff] at h
  rw [Word.fits_iff]
  cases dtype <;>
    simp only [minValue, maxValue, Word.least, Word.greatest] at h ⊢ <;> omega

/-- A truth value is zero or one. -/
theorem contains_bool_iff {value : Int} :
    bool.contains value = true ↔ value = 0 ∨ value = 1 := by
  rw [contains_iff, minValue, maxValue]
  omega

/-- A type holds every value between two of its values. -/
theorem contains_of_between {dtype : DType} {low value high : Int}
    (hlow : dtype.contains low = true) (hhigh : dtype.contains high = true)
    (above : low ≤ value) (below : value ≤ high) : dtype.contains value = true := by
  rw [contains_iff] at hlow hhigh ⊢
  exact ⟨hlow.1.trans above, below.trans hhigh.2⟩

/-- What is too great for a signed type, but not much too great, wraps to a negative value. -/
theorem truncate_neg_of_maxValue_lt {dtype : DType} {value : Int}
    (signed : dtype.isSigned = true) (above : dtype.maxValue < value)
    (below : value ≤ 2 * dtype.maxValue) : dtype.truncate value < 0 := by
  cases dtype <;> cases signed <;>
    simp only [truncate, maxValue, Word.wrap, Word.greatest, Int.bmod_def] at above below ⊢ <;>
    split <;> omega

/-- Wrapping what is wrapped already changes nothing. -/
@[simp] theorem truncate_truncate (dtype : DType) (value : Int) :
    dtype.truncate (dtype.truncate value) = dtype.truncate value :=
  truncate_of_contains (contains_truncate _ _)

@[simp] theorem truncate_zero (dtype : DType) : dtype.truncate 0 = 0 :=
  truncate_of_contains dtype.contains_zero

@[simp] theorem truncate_one (dtype : DType) : dtype.truncate 1 = 1 :=
  truncate_of_contains dtype.contains_one

end LoopNest.DType
