/-
# Projecting fused sets

The values of a fused loop are the cells of rows that are as long as the inner loop. The row of
a cell and its place in the row lie in the sets that the projection finds, whichever way it is
left. The only way that needs an argument is the one that keeps the places of the first and the
last cell: it is taken when the number of cells divides both the row and the first cell, and
then all cells are in one row.

Nothing that the projection computes may wrap. Apart from quotients and remainders these are
the sums that move an end to the start of a range, and the number of cells where it counts.
-/

import LoopNest.Flow.Accesses
import LoopNest.Proofs.Facts.Membership

namespace LoopNest

namespace Expr

variable {e divisor min : Expr} {x n low : Int}

/-- Operations on literals that are all computed like integers. -/
def AllExact (steps : List (BinaryOp × Expr × Expr)) : Prop :=
  ∀ step ∈ steps, CombinesExactly step.1 step.2.1 step.2.2

instance (steps : List (BinaryOp × Expr × Expr)) : Decidable (AllExact steps) :=
  inferInstanceAs (Decidable (∀ step ∈ steps, _))

/-- What numbers of two types compute to, if the type in which they meet holds it. -/
theorem isNumber_combine {op : BinaryOp} (hop : op.isPredicate = false) (hx : e.IsNumber x)
    (hn : divisor.IsNumber n) {result : Int} (hresult : op.compute? x n = some result)
    (hcontains : (e.dtype.join divisor.dtype).contains result = true) :
    (combine op e divisor).IsNumber result := by
  obtain ⟨_, rfl, hleft⟩ := hx.exists_const
  obtain ⟨_, rfl, hright⟩ := hn.exists_const
  rw [combine_join op hleft hright]
  exact combine_const_of_contains hop hresult hcontains ▸ isNumber_const hcontains

theorem IsNumber.fits (h : e.IsNumber x) : Word.fits x = true := by
  obtain ⟨_, rfl, hcontains⟩ := h.exists_const
  exact DType.fits_of_contains hcontains

theorem IsNumber.contains_join_left (h : e.IsNumber x) (dtype : DType) :
    (e.dtype.join dtype).contains x = true := by
  obtain ⟨_, rfl, hcontains⟩ := h.exists_const
  exact DType.contains_join_left hcontains dtype

theorem IsNumber.contains_join_right (h : e.IsNumber x) (dtype : DType) :
    (dtype.join e.dtype).contains x = true := by
  obtain ⟨_, rfl, hcontains⟩ := h.exists_const
  exact DType.contains_join_right hcontains dtype

theorem isNumber_floorDiv (hx : e.IsNumber x) (hn : divisor.IsNumber n) (hpos : 1 ≤ n) :
    (e.floorDiv divisor).IsNumber (x / n) :=
  isNumber_combine rfl hx hn (Word.floorDiv?_of_pos hx.fits (by omega))
    (DType.contains_ediv (hx.contains_join_left _) (by omega))

theorem isNumber_floorMod (hx : e.IsNumber x) (hn : divisor.IsNumber n) (hpos : 1 ≤ n)
    (hdefined : Word.floorMod? x n = some (x % n)) : (e.floorMod divisor).IsNumber (x % n) :=
  isNumber_combine rfl hx hn hdefined
    (DType.contains_emod (hn.contains_join_right _) (by omega) x)

theorem isNumber_add (hexact : CombinesExactly .add e min) (hx : e.IsNumber x)
    (hlow : min.IsNumber low) : (e.add min).IsNumber (x + low) := by
  obtain ⟨_, hresult, hnumber⟩ := hexact.isNumber rfl hx hlow
  exact Option.some.inj hresult ▸ hnumber

theorem isNumber_sub (hexact : CombinesExactly .sub e min) (hx : e.IsNumber x)
    (hlow : min.IsNumber low) : (e.sub min).IsNumber (x - low) := by
  obtain ⟨_, hresult, hnumber⟩ := hexact.isNumber rfl hx hlow
  exact Option.some.inj hresult ▸ hnumber

theorem isNumber_offsetBy (hexact : CombinesExactly .add e min) (hx : e.IsNumber x)
    (hlow : min.IsNumber low) : (e.offsetBy min).IsNumber (x + low) := by
  rw [offsetBy]
  split
  · rename_i hzero
    obtain rfl : low = 0 := Option.some.inj (hlow.2.symm.trans (of_decide_eq_true hzero))
    rwa [add_zero]
  · exact isNumber_add hexact hx hlow

theorem isNumber_one (dtype : DType) : (one dtype).IsNumber 1 := by
  rw [one, literal, DType.truncate_one]
  exact isNumber_const dtype.contains_one

theorem IsNumber.simplify_eq (h : e.IsNumber x) (facts : Facts) : facts.simplify e = e := by
  obtain ⟨_, rfl, -⟩ := h.exists_const
  rfl

theorem IsNumber.simplify (h : e.IsNumber x) (facts : Facts) : (facts.simplify e).IsNumber x := by
  rwa [h.simplify_eq]

end Expr

namespace Range

variable {range : Range} {low extent x : Int}

/-- The range has a literal minimum and a literal extent. -/
structure Spans (range : Range) (low extent : Int) : Prop where
  min : range.min.IsNumber low
  extent : range.extent.IsNumber extent

/-- The sums that find the last integer of a range. -/
def lastSums (range : Range) : List (BinaryOp × Expr × Expr) :=
  [(.add, range.min, range.extent), (.sub, range.stop, .one range.extent.dtype)]

theorem Spans.last (h : range.Spans low extent) (hexact : Expr.AllExact range.lastSums) :
    range.last.IsNumber (low + extent - 1) := by
  simp only [Expr.AllExact, lastSums, List.forall_mem_cons] at hexact
  exact Expr.isNumber_sub hexact.2.1 (Expr.isNumber_add hexact.1 h.min h.extent)
    (Expr.isNumber_one _)

/-- The set of a range has the integers of the range. -/
theorem Spans.ofRange_has (h : range.Spans low extent) (hexact : Expr.AllExact range.lastSums)
    (hlow : low ≤ x) (hhigh : x < low + extent) : (ValueSet.ofRange range).Has x :=
  ValueSet.has_between h.min (h.last hexact) hlow (by omega)

end Range

/-- Cells whose number divides a row and the first cell are in one row. -/
theorem ediv_eq_of_dvd {first last cell row : Int} (hrow : 0 < row) (hfirst : first ≤ cell)
    (hlast : cell ≤ last) (hdvd : last - first + 1 ∣ row) (hdvd' : last - first + 1 ∣ first) :
    first / row = cell / row ∧ last / row = cell / row := by
  obtain ⟨parts, rfl⟩ := hdvd
  obtain ⟨start, hstart⟩ := hdvd'
  have hspan : 0 < last - first + 1 := by omega
  have hsame : ∀ {x}, first ≤ x → x ≤ last → x / (last - first + 1) = start := by
    intro x hlow hhigh
    have hx : x = x - first + (last - first + 1) * start := by omega
    rw [hx, Int.add_mul_ediv_left _ _ hspan.ne', Int.ediv_eq_zero_of_lt (by omega) (by omega),
      zero_add]
  simp only [← Int.ediv_ediv_of_nonneg hspan.le, hsame le_rfl (hfirst.trans hlast),
    hsame hfirst hlast, hsame (hfirst.trans hlast) le_rfl, and_self]

namespace Facts

variable {facts : Facts} {fused : ValueSet} {outerRange innerRange : Range}
  {cell low low' extent row first last : Int} {min max span e : Expr}

/-- Whether an interval of cells is taken to be in one row. -/
def keepsRow (facts : Facts) (min max row : Expr) : Bool :=
  let span := (max.sub min).add (.one max.dtype)
  facts.divides span row && facts.divides span min

/-- The sums that a projection computes. -/
def projectionSums (facts : Facts) (fused : ValueSet) (outerRange innerRange : Range) :
    List (BinaryOp × Expr × Expr) :=
  let row := innerRange.extent
  match fused.point?, fused.min?, fused.max? with
  | some value, _, _ =>
    [(.add, value.floorDiv row, outerRange.min), (.add, value.floorMod row, innerRange.min)]
  | none, some min, some max =>
    [(.add, outerRange.min, min.floorDiv row), (.add, outerRange.min, max.floorDiv row)] ++
      if facts.keepsRow min max row then
        [(.sub, max, min), (.add, max.sub min, .one max.dtype),
          (.add, innerRange.min, min.floorMod row), (.add, innerRange.min, max.floorMod row)]
      else innerRange.lastSums
  | none, _, _ => outerRange.lastSums ++ innerRange.lastSums

theorem emod_eq_zero_of_divides {dividend : Expr} {x n : Int} (hx : dividend.IsNumber x)
    (hn : e.IsNumber n) (hpos : 1 ≤ n) (hdefined : Word.floorMod? x n = some (x % n))
    (h : facts.divides e dividend = true) : x % n = 0 := by
  have hnumber := (Expr.isNumber_floorMod hx hn hpos hdefined).simplify facts
  exact Option.some.inj (hnumber.2.symm.trans (of_decide_eq_true h))

section Cells

variable (hrow : innerRange.extent.IsNumber row) (hpos : 1 ≤ row)
include hrow hpos

theorem projectPoint_has {value : Expr} (hvalue : value.IsNumber cell) (hcell : 0 ≤ cell)
    (houter : outerRange.min.IsNumber low) (hinner : innerRange.min.IsNumber low')
    (hexact : Expr.CombinesExactly .add (value.floorDiv innerRange.extent) outerRange.min)
    (hexact' : Expr.CombinesExactly .add (value.floorMod innerRange.extent) innerRange.min) :
    (facts.projectPoint value outerRange innerRange).outer.Has (cell / row + low) ∧
      (facts.projectPoint value outerRange innerRange).inner.Has (cell % row + low') := by
  have hquotient := Expr.isNumber_floorDiv hvalue hrow hpos
  have hremainder := Expr.isNumber_floorMod hvalue hrow hpos
    (Word.floorMod?_of_nonneg hcell hvalue.fits hrow.fits hpos)
  exact ⟨ValueSet.has_point ((Expr.isNumber_offsetBy hexact hquotient houter).simplify facts),
    ValueSet.has_point ((Expr.isNumber_offsetBy hexact' hremainder hinner).simplify facts)⟩

/-- The rows of the first and the last cell are around that of any other. -/
theorem rows_has (hmin : min.IsNumber first) (hmax : max.IsNumber last) (hfirst : first ≤ cell)
    (hlast : cell ≤ last) (houter : outerRange.min.IsNumber low)
    (hexact : Expr.CombinesExactly .add outerRange.min (min.floorDiv innerRange.extent))
    (hexact' : Expr.CombinesExactly .add outerRange.min (max.floorDiv innerRange.extent)) :
    (facts.projectInterval min max outerRange innerRange).outer.Has (cell / row + low) := by
  have hlow := Expr.isNumber_add hexact houter (Expr.isNumber_floorDiv hmin hrow hpos)
  have hhigh := Expr.isNumber_add hexact' houter (Expr.isNumber_floorDiv hmax hrow hpos)
  have hle := Int.ediv_le_ediv (by omega : 0 < row) hfirst
  have hle' := Int.ediv_le_ediv (by omega : 0 < row) hlast
  simp only [projectInterval]
  split <;> exact ValueSet.has_between (hlow.simplify facts) (hhigh.simplify facts)
    (by omega) (by omega)

/-- The places of the first and the last cell are around that of any other, if all cells are in
one row. The first cell may be negative, but its distance to the last one is at most a row, so
the remainders are defined. -/
theorem places_has (hmin : min.IsNumber first)
    (hmax : max.IsNumber last) (hcell : 0 ≤ cell) (hfirst : first ≤ cell) (hlast : cell ≤ last)
    (hinner : innerRange.min.IsNumber low')
    (hkeeps : facts.keepsRow min max innerRange.extent = true)
    (hspan : Expr.CombinesExactly .sub max min)
    (hspan' : Expr.CombinesExactly .add (max.sub min) (.one max.dtype))
    (hexact : Expr.CombinesExactly .add innerRange.min (min.floorMod innerRange.extent))
    (hexact' : Expr.CombinesExactly .add innerRange.min (max.floorMod innerRange.extent)) :
    (facts.projectInterval min max outerRange innerRange).inner.Has (cell % row + low') := by
  have hcount := Expr.isNumber_add hspan' (Expr.isNumber_sub hspan hmax hmin)
    (Expr.isNumber_one _)
  have hcells : 1 ≤ last - first + 1 := by omega
  rw [keepsRow, Bool.and_eq_true] at hkeeps
  have hdvd := Int.dvd_of_emod_eq_zero (emod_eq_zero_of_divides hrow hcount hcells
    (Word.floorMod?_of_nonneg (by omega) hrow.fits hcount.fits hcells) hkeeps.1)
  have hle := Int.le_of_dvd (by omega) hdvd
  have hdefined : ∀ n, last - first + 1 ≤ n → Word.fits n = true →
      Word.floorMod? first n = some (first % n) := by
    intro n hn hfits
    have hsplit := Int.ediv_mul_add_emod first n
    have hremainder := Int.emod_nonneg first (by omega : n ≠ 0)
    have hquotient : -1 * n ≤ first / n * n :=
      mul_le_mul_of_nonneg_right (Int.le_ediv_of_mul_le (by omega) (by omega)) (by omega)
    refine Word.floorMod?_of_pos hmin.fits (by omega) ?_ hfits
    have hwords := hmin.fits
    rw [Word.fits_iff, Word.least, Word.greatest] at hwords hfits ⊢
    omega
  have hdvd' := Int.dvd_of_emod_eq_zero (emod_eq_zero_of_divides hmin hcount hcells
    (hdefined _ le_rfl hcount.fits) hkeeps.2)
  obtain ⟨hsame, hsame'⟩ := ediv_eq_of_dvd (by omega) hfirst hlast hdvd hdvd'
  have hlow := Expr.isNumber_add hexact hinner (Expr.isNumber_floorMod hmin hrow hpos
    (hdefined row hle hrow.fits))
  have hhigh := Expr.isNumber_add hexact' hinner (Expr.isNumber_floorMod hmax hrow hpos
    (Word.floorMod?_of_nonneg (by omega) hmax.fits hrow.fits hpos))
  have hfirstSplit := Int.mul_ediv_add_emod first row
  have hcellSplit := Int.mul_ediv_add_emod cell row
  have hlastSplit := Int.mul_ediv_add_emod last row
  rw [hsame] at hfirstSplit
  rw [hsame'] at hlastSplit
  rw [projectInterval, if_pos (by rw [← Bool.and_eq_true] at hkeeps; exact hkeeps)]
  exact ValueSet.has_between (hlow.simplify facts) (hhigh.simplify facts) (by omega) (by omega)

end Cells

/-- The row of a cell and its place in the row lie in the sets that a projection finds. -/
theorem projectFused_has (hfused : fused.Has cell) (hcell : 0 ≤ cell) {extent' : Int}
    (houter : outerRange.Spans low extent) (hinner : innerRange.Spans low' extent')
    (hrow : cell / extent' + low < low + extent) (hpos : 1 ≤ extent')
    (hexact : Expr.AllExact (facts.projectionSums fused outerRange innerRange)) :
    (facts.projectFused fused outerRange innerRange).outer.Has (cell / extent' + low) ∧
      (facts.projectFused fused outerRange innerRange).inner.Has (cell % extent' + low') := by
  have hquotient := Int.ediv_nonneg hcell (by omega : 0 ≤ extent')
  have hremainder := Int.emod_nonneg cell (by omega : extent' ≠ 0)
  have hbelow := Int.emod_lt_of_pos cell (by omega : 0 < extent')
  have hwhole : Expr.AllExact innerRange.lastSums →
      (ValueSet.ofRange innerRange).Has (cell % extent' + low') :=
    fun hlast => hinner.ofRange_has hlast (by omega) (by omega)
  rw [projectFused]
  cases hpoint : fused.point? with
  | some value =>
      simp only [projectionSums, hpoint, Expr.AllExact, List.forall_mem_cons] at hexact
      exact projectPoint_has hinner.extent hpos (hfused.isNumber_of_point? hpoint) hcell
        houter.min hinner.min hexact.1 hexact.2.1
  | none =>
      cases hmin : fused.min? with
      | none =>
          simp only [projectionSums, hpoint, hmin, Expr.AllExact, List.forall_mem_append] at hexact
          exact ⟨houter.ofRange_has hexact.1 (by omega) hrow, hwhole hexact.2⟩
      | some min =>
          cases hmax : fused.max? with
          | none =>
              simp only [projectionSums, hpoint, hmin, hmax, Expr.AllExact,
                List.forall_mem_append] at hexact
              exact ⟨houter.ofRange_has hexact.1 (by omega) hrow, hwhole hexact.2⟩
          | some max =>
              obtain ⟨first, hfirst, hle⟩ := hfused.low min hmin
              obtain ⟨last, hlast, hle'⟩ := hfused.high max hmax
              simp only [projectionSums, hpoint, hmin, hmax, Expr.AllExact,
                List.forall_mem_append, List.forall_mem_cons] at hexact
              obtain ⟨⟨hlow, hhigh, -⟩, hplaces⟩ := hexact
              refine ⟨rows_has hinner.extent hpos hfirst hlast hle hle' houter.min hlow hhigh, ?_⟩
              by_cases hkeeps : facts.keepsRow min max innerRange.extent = true
              · simp only [hkeeps, if_true, List.forall_mem_cons] at hplaces
                exact places_has hinner.extent hpos hfirst hlast hcell hle hle' hinner.min
                  hkeeps hplaces.1 hplaces.2.1 hplaces.2.2.1 hplaces.2.2.2.1
              · rw [if_neg hkeeps] at hplaces
                rw [keepsRow] at hkeeps
                simp only [projectInterval, if_neg hkeeps]
                exact hwhole hplaces

end Facts

end LoopNest
