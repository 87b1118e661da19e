/-
# Literals of different types

Literals of different types meet in the first type that both promote to, which holds both of
them. So a computation on them is the computation in that one type. What inference does with
literal extents is then arithmetic whatever their types are: two extents agree only if they
are the same number, and a quotient is rounded up unless the sum that rounds up wraps.
-/

import LoopNest.Proofs.Facts.Bounds
import LoopNest.Proofs.Facts.Literal

namespace LoopNest

namespace DType

theorem join_self (dtype : DType) : dtype.join dtype = dtype := by
  cases dtype <;> decide

/-- The type in which two operands meet holds the values of the right one. -/
theorem contains_join_right {right : DType} {value : Int} (h : right.contains value = true)
    (left : DType) : (left.join right).contains value = true := by
  refine contains_of_promotesTo ?_ h
  cases left <;> cases right <;> decide

/-- Numbers of a type differ when their difference does not wrap to zero. -/
theorem eq_of_truncate_sub {dtype : DType} {left right : Int} (hleft : dtype.contains left = true)
    (hright : dtype.contains right = true) (h : dtype.truncate (left - right) = 0) :
    left = right := by
  rw [contains_iff] at hleft hright
  cases dtype <;>
    simp only [truncate, minValue, maxValue, Word.wrap, Word.least, Word.greatest,
      Int.bmod_def] at hleft hright h <;>
    grind

end DType

namespace Expr

variable {op : BinaryOp} {dtype dtype' : DType} {left right : Int}

theorem castTo_const (h : dtype'.contains left = true) :
    (const dtype left).castTo dtype' = const dtype' left := by
  rw [castTo]
  split
  · rename_i hsame
    rw [← hsame]
    rfl
  · simp [value?, literal, DType.truncate_of_contains h]

/-- Literals of different types are combined in the type in which they meet. -/
theorem combine_join (op : BinaryOp) (hleft : dtype.contains left = true)
    (hright : dtype'.contains right = true) :
    combine op (const dtype left) (const dtype' right) =
      combine op (const (dtype.join dtype') left) (const (dtype.join dtype') right) := by
  have hpromote : promote (const dtype left) (const dtype' right) =
      (const (dtype.join dtype') left, const (dtype.join dtype') right) := by
    rw [promote]
    split
    · rename_i hsame
      obtain rfl : dtype = dtype' := hsame
      rw [DType.join_self]
    · exact Prod.ext (castTo_const (DType.contains_join_left hleft _))
        (castTo_const (DType.contains_join_right hright _))
  have hsame : (const (dtype.join dtype') left).dtype = (const (dtype.join dtype') right).dtype :=
    rfl
  rw [combine_of_dtype_eq op hsame, combine, hpromote]

end Expr

/-- The extent of a range is a literal of its type. -/
def Range.HasExtent (range : Range) (extent : Int) : Prop :=
  ∃ dtype : DType, range.extent = .const dtype extent ∧ dtype.contains extent = true

theorem Range.hasExtent_ofExtent {dtype : DType} {extent : Int}
    (h : dtype.contains extent = true) : (ofExtent (.const dtype extent)).HasExtent extent :=
  ⟨dtype, rfl, h⟩

@[simp] theorem Range.isZero_min_ofExtent (extent : Expr) :
    (ofExtent extent).min.isZero = true := by
  simp [ofExtent, Expr.zero, Expr.literal, Expr.isZero, Expr.value?, DType.truncate_zero]

namespace Facts

variable {facts : Facts} {dtype dtype' : DType} {left right : Int}

theorem proves_lt_join (hfree : facts.Consistent) (hleft : dtype.contains left = true)
    (hright : dtype'.contains right = true) :
    facts.proves (.lt (.const dtype left) (.const dtype' right)) = decide (left < right) := by
  rw [Expr.lt, Expr.combine_join _ hleft hright]
  exact proves_lt hfree

theorem proves_eq_join (hfree : facts.Consistent) (hleft : dtype.contains left = true)
    (hright : dtype'.contains right = true) :
    facts.proves (.eq (.const dtype left) (.const dtype' right)) = decide (left = right) := by
  rw [Expr.eq, Expr.combine_join _ hleft hright]
  exact proves_eq hfree

theorem smallerOrSecond_join (hfree : facts.Consistent) (hleft : dtype.contains left = true)
    (hright : dtype'.contains right = true) :
    facts.smallerOrSecond (.const dtype left) (.const dtype' right) =
      if left < right then .const dtype left else .const dtype' right := by
  rw [smallerOrSecond, proves_lt_join hfree hleft hright]
  by_cases hlt : left < right <;> simp [hlt]

/-- A known range that agrees with an inferred one starts at zero and has the same extent. -/
theorem agrees_literal (hfree : facts.Consistent) {existing proposed : Range}
    {known extent : Int} (hexisting : existing.HasExtent known)
    (hproposed : proposed.HasExtent extent) (h : facts.agrees existing proposed = true) :
    existing.min.isZero = true ∧ known = extent := by
  obtain ⟨dtype, hknown, hcontains⟩ := hexisting
  obtain ⟨dtype', hextent, hcontains'⟩ := hproposed
  have hdifference : (Expr.const dtype' extent).sub (.const dtype known) =
      .const (dtype'.join dtype) ((dtype'.join dtype).truncate (extent - known)) := by
    rw [Expr.sub, Expr.combine_join _ hcontains' hcontains]
    exact Expr.combine_const rfl
  have hzero : ∀ dtype : DType, Expr.zero dtype = .const dtype 0 := fun dtype => by
    rw [Expr.zero, Expr.literal, DType.truncate_zero]
  rw [agrees, hknown, hextent, hdifference, Bool.and_eq_true] at h
  simp only [Expr.dtype, hzero, proves_eq hfree, decide_eq_true_eq] at h
  exact ⟨h.1, (DType.eq_of_truncate_sub (DType.contains_join_left hcontains' _)
    (DType.contains_join_right hcontains _) h.2).symm⟩

/-- The quotient of positive literals rounded up, unless the sum that rounds up wraps. -/
theorem ceilDiv_join (hfree : facts.Consistent) (hdividend : dtype.contains left = true)
    (hdivisor : dtype'.contains right = true) (hleft : 0 ≤ left) (hright : 1 ≤ right)
    (hfit : left % right ≠ 0 → (dtype.join dtype').contains (left + (right - 1)) = true) :
    ∃ dtype'' : DType, facts.ceilDiv (.const dtype left) (.const dtype' right) =
        .const dtype'' (if left % right = 0 then left / right else (left + (right - 1)) / right) ∧
      dtype''.contains
        (if left % right = 0 then left / right else (left + (right - 1)) / right) = true := by
  have hjoin := DType.contains_join_left hdividend dtype'
  have hjoin' := DType.contains_join_right hdivisor dtype
  have hdefined := Word.floorMod?_of_nonneg hleft (DType.fits_of_contains hjoin)
    (DType.fits_of_contains hjoin') hright
  have hremainder : (Expr.const dtype left).floorMod (.const dtype' right) =
      .const (dtype.join dtype') (left % right) := by
    rw [Expr.floorMod, Expr.combine_join _ hdividend hdivisor]
    exact Expr.combine_const_of_contains rfl hdefined
      (DType.contains_emod hjoin' (by omega) left)
  have hquotient : ∀ {dtype : DType} {x : Int}, dtype.contains x = true →
      (Expr.const dtype x).floorDiv (.const dtype' right) =
        .const (dtype.join dtype') (x / right) ∧
        (dtype.join dtype').contains (x / right) = true := by
    intro dtype x hx
    have hcontains := DType.contains_join_left hx dtype'
    refine ⟨?_, DType.contains_ediv hcontains (by omega)⟩
    rw [Expr.floorDiv, Expr.combine_join _ hx hdivisor]
    exact Expr.combine_const_of_contains rfl
      (Word.floorDiv?_of_pos (DType.fits_of_contains hcontains) (by omega))
      (DType.contains_ediv hcontains (by omega))
  have hzero : Expr.zero dtype = .const dtype 0 := by
    rw [Expr.zero, Expr.literal, DType.truncate_zero]
  have hless : (Expr.const dtype' right).sub (.one dtype') = .const dtype' (right - 1) := by
    rw [Expr.one, Expr.literal, DType.truncate_one]
    exact Expr.combine_const_of_contains rfl rfl
      (DType.contains_of_between (DType.contains_zero _) hdivisor (by omega) (by omega))
  have hless' : dtype'.contains (right - 1) = true :=
    DType.contains_of_between (DType.contains_zero _) hdivisor (by omega) (by omega)
  by_cases hexact : left % right = 0
  · refine ⟨_, ?_, by rw [if_pos hexact]; exact (hquotient hdividend).2⟩
    rw [ceilDiv, hremainder, Expr.dtype, hzero, proves_eq_join hfree
      (DType.contains_emod hjoin' (by omega) left) (DType.contains_zero _), if_pos hexact]
    simp [hexact, (hquotient hdividend).1]
  · have hsum : (Expr.const dtype left).add (.const dtype' (right - 1)) =
        .const (dtype.join dtype') (left + (right - 1)) := by
      rw [Expr.add, Expr.combine_join _ hdividend hless']
      exact Expr.combine_const_of_contains rfl rfl (hfit hexact)
    refine ⟨_, ?_, by rw [if_neg hexact]; exact (hquotient (hfit hexact)).2⟩
    rw [ceilDiv, hremainder, Expr.dtype, hzero, proves_eq_join hfree
      (DType.contains_emod hjoin' (by omega) left) (DType.contains_zero _), if_neg hexact]
    simp only [Expr.dtype, hless, hsum, (hquotient (hfit hexact)).1, simplify_const]
    simp [hexact]

end Facts

end LoopNest
