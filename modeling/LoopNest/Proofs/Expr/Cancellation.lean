/-
# Equal expressions cancel

The difference of an expression with itself normalizes to zero, whatever the expression is.
This does not follow from its value: the expression may have none, and even where two
expressions always have the same value the linear form need not show it. What matters is
that flattening is linear. It adds to the constant and to the coefficient of each term a
fixed multiple of the scale, modulo the number of words, and the two sides of the
difference are flattened with opposite scales.

So every coefficient is a multiple of the number of words in the end. Since it is also a
word, and no term is listed twice, it is zero.
-/

import LoopNest.Proofs.Expr.Linear
import Mathlib.Data.List.Nodup

namespace LoopNest

/-- The number of words. -/
abbrev Word.count : Int := 18446744073709551616

theorem Word.wrap_modEq_count (value : Int) : Word.wrap value ≡ value [ZMOD Word.count] :=
  Word.wrap_modEq dvd_rfl value

/-- Zero is the only word that is a multiple of their number. -/
theorem Word.eq_zero_of_modEq {value : Int} (hfits : Word.fits value = true)
    (h : value ≡ 0 [ZMOD Word.count]) : value = 0 := by
  rw [Word.fits_iff, Word.least, Word.greatest] at hfits
  obtain ⟨k, hk⟩ := Int.modEq_zero_iff_dvd.mp h
  rw [Word.count] at hk
  omega

namespace LinearForm

variable {e term : Expr} {form : LinearForm} {terms : List (Expr × Int)} {scale : Int}

/-- The coefficient of a term, which is zero where the term is not listed. -/
def coefficientIn (term : Expr) : List (Expr × Int) → Int
  | [] => 0
  | (other, known) :: rest => if other = term then known else coefficientIn term rest

theorem coefficientIn_addToTerms (added term : Expr) (coefficient : Int)
    (terms : List (Expr × Int)) :
    coefficientIn term (addToTerms added coefficient terms) ≡
      coefficientIn term terms + coefficient * (if added = term then 1 else 0)
        [ZMOD Word.count] := by
  induction terms with
  | nil =>
      by_cases hsame : added = term <;> simp [addToTerms, coefficientIn, hsame]
  | cons entry rest ih =>
      obtain ⟨other, known⟩ := entry
      unfold addToTerms
      split
      · rename_i hother
        subst hother
        by_cases hsame : other = term
        · simpa [coefficientIn, hsame] using Word.wrap_modEq_count (known + coefficient)
        · simp [coefficientIn, hsame]
      · rename_i hother
        by_cases hsame : other = term
        · have hadded : added ≠ term := fun h => hother (hsame.trans h.symm)
          simp [coefficientIn, hsame, hadded]
        · simpa [coefficientIn, hsame] using ih

/-- Flattening an expression adds `fixed` to the constant and `share` to the coefficients,
both times the scale. -/
def Flattens (e : Expr) (fixed : Int) (share : Expr → Int) : Prop :=
  ∀ scale form, (accumulate e scale form).constant ≡ form.constant + scale * fixed
      [ZMOD Word.count] ∧
    ∀ term, coefficientIn term (accumulate e scale form).terms ≡
      coefficientIn term form.terms + scale * share term [ZMOD Word.count]

/-- An opaque term adds to its own coefficient only. -/
theorem flattens_addTerm (h : ∀ scale form, accumulate e scale form = form.addTerm e scale) :
    Flattens e 0 fun term => if e = term then 1 else 0 := by
  intro scale form
  rw [h]
  exact ⟨by simp [addTerm], fun term => coefficientIn_addToTerms e term scale form.terms⟩

/-- A multiple of an expression is flattened with a multiple of the scale. -/
theorem Flattens.scaled {operand : Expr} {fixed : Int} {share : Expr → Int}
    (hoperand : Flattens operand fixed share) (factor : Int)
    (h : ∀ scale form, ∃ scale', scale' ≡ scale * factor [ZMOD Word.count] ∧
      accumulate e scale form = accumulate operand scale' form) :
    Flattens e (factor * fixed) fun term => factor * share term := by
  intro scale form
  obtain ⟨scale', hscale, heq⟩ := h scale form
  obtain ⟨hconstant, hterms⟩ := hoperand scale' form
  rw [heq]
  constructor
  · exact hconstant.trans (by simpa [mul_assoc] using (hscale.mul_right fixed).add_left _)
  · exact fun term =>
      (hterms term).trans (by simpa [mul_assoc] using (hscale.mul_right (share term)).add_left _)

/-- Two expressions are flattened one after the other. -/
theorem Flattens.append {lhs rhs : Expr} {fixed fixed' : Int} {share share' : Expr → Int}
    (hlhs : Flattens lhs fixed share) (hrhs : Flattens rhs fixed' share') (factor : Int)
    (h : ∀ scale form, ∃ scale', scale' ≡ scale * factor [ZMOD Word.count] ∧
      accumulate e scale form = accumulate rhs scale' (accumulate lhs scale form)) :
    Flattens e (fixed + factor * fixed') fun term => share term + factor * share' term := by
  intro scale form
  obtain ⟨scale', hscale, heq⟩ := h scale form
  obtain ⟨hconstant, hterms⟩ := hlhs scale form
  obtain ⟨hconstant', hterms'⟩ := hrhs scale' (accumulate lhs scale form)
  have hsum : ∀ {start middle final x y : Int}, middle ≡ start + scale * x [ZMOD Word.count] →
      final ≡ middle + scale' * y [ZMOD Word.count] →
      final ≡ start + scale * (x + factor * y) [ZMOD Word.count] := by
    intro start middle final x y hmiddle hfinal
    calc final ≡ middle + scale' * y [ZMOD Word.count] := hfinal
      _ ≡ start + scale * x + scale * factor * y [ZMOD Word.count] :=
          hmiddle.add (hscale.mul_right y)
      _ = start + scale * (x + factor * y) := by ring
  rw [heq]
  exact ⟨hsum hconstant hconstant', fun term => hsum (hterms term) (hterms' term)⟩

/-- Flattening is linear in the scale, whatever wraps on the way. -/
theorem exists_flattens (e : Expr) : ∃ fixed share, Flattens e fixed share := by
  induction e with
  | const dtype value =>
      refine ⟨value, fun _ => 0, fun scale form =>
        ⟨?_, fun term => by simp [accumulate, addConstant]⟩⟩
      calc Word.wrap (form.constant + Word.wrap (value * scale))
          ≡ form.constant + value * scale [ZMOD Word.count] :=
            (Word.wrap_modEq_count _).trans ((Word.wrap_modEq_count _).add_left _)
        _ = form.constant + scale * value := by ring
  | neg operand ih =>
      obtain ⟨fixed, share, hoperand⟩ := ih
      exact ⟨_, _, hoperand.scaled (-1) fun scale form =>
        ⟨Word.wrap (-scale), by simpa using Word.wrap_modEq_count (-scale), rfl⟩⟩
  | binary op lhs rhs ihl ihr =>
      obtain ⟨fixed, share, hlhs⟩ := ihl
      obtain ⟨fixed', share', hrhs⟩ := ihr
      cases op with
      | add =>
          exact ⟨_, _, hlhs.append hrhs 1 fun scale form =>
            ⟨scale, by simp, rfl⟩⟩
      | sub =>
          exact ⟨_, _, hlhs.append hrhs (-1) fun scale form =>
            ⟨Word.wrap (-scale), by simpa using Word.wrap_modEq_count (-scale), rfl⟩⟩
      | mul =>
          cases hright : rhs.value? with
          | some factor =>
              exact ⟨_, _, hlhs.scaled factor fun scale form =>
                ⟨Word.wrap (scale * factor), Word.wrap_modEq_count _, by
                  simp only [accumulate, hright]⟩⟩
          | none =>
              cases hleft : lhs.value? with
              | some factor =>
                  exact ⟨_, _, hrhs.scaled factor fun scale form =>
                    ⟨Word.wrap (scale * factor), Word.wrap_modEq_count _, by
                      simp only [accumulate, hright, hleft]⟩⟩
              | none =>
                  exact ⟨_, _, flattens_addTerm fun scale form => by
                    simp only [accumulate, hright, hleft]⟩
      | _ => exact ⟨_, _, flattens_addTerm fun _ _ => rfl⟩
  | _ => exact ⟨_, _, flattens_addTerm fun _ _ => rfl⟩

/-- No term is listed twice, and all numbers are words. -/
structure Tidy (form : LinearForm) : Prop where
  nodup : (form.terms.map Prod.fst).Nodup
  coefficients : ∀ entry ∈ form.terms, Word.fits entry.2 = true
  constant : Word.fits form.constant = true

theorem keys_addToTerms (term : Expr) (coefficient : Int) (terms : List (Expr × Int)) :
    (addToTerms term coefficient terms).map Prod.fst =
      if term ∈ terms.map Prod.fst then terms.map Prod.fst
      else terms.map Prod.fst ++ [term] := by
  induction terms with
  | nil => simp [addToTerms]
  | cons entry rest ih =>
      obtain ⟨other, known⟩ := entry
      unfold addToTerms
      split
      · rename_i hother
        simp [hother]
      · rename_i hother
        rw [List.map_cons, ih]
        simp only [List.map_cons, List.mem_cons, Ne.symm hother, false_or]
        split <;> rfl

theorem fits_addToTerms (hscale : Word.fits scale = true)
    (h : ∀ entry ∈ terms, Word.fits entry.2 = true) :
    ∀ entry ∈ addToTerms term scale terms, Word.fits entry.2 = true := by
  induction terms with
  | nil => simpa [addToTerms] using hscale
  | cons entry rest ih =>
      rw [List.forall_mem_cons] at h
      unfold addToTerms
      split <;> rw [List.forall_mem_cons]
      · exact ⟨Word.fits_wrap _, h.2⟩
      · exact ⟨h.1, ih h.2⟩

theorem Tidy.addTerm (h : form.Tidy) (term : Expr) (hscale : Word.fits scale = true) :
    (form.addTerm term scale).Tidy := by
  refine ⟨?_, fits_addToTerms hscale h.coefficients, h.constant⟩
  rw [LinearForm.addTerm, keys_addToTerms]
  split
  · exact h.nodup
  · rename_i hnew
    exact List.Nodup.append h.nodup (List.nodup_singleton _) (by simpa using hnew)

/-- Flattening keeps a form tidy, because every scale is wrapped. -/
theorem Tidy.accumulate (h : form.Tidy) (hscale : Word.fits scale = true) :
    (accumulate e scale form).Tidy := by
  fun_induction LinearForm.accumulate e scale form with
  | case1 dtype value scale form => exact ⟨h.nodup, h.coefficients, Word.fits_wrap _⟩
  | case2 scale form operand ih => exact ih h (Word.fits_wrap _)
  | case3 scale form lhs rhs ihl ihr => exact ihr (ihl h hscale) hscale
  | case4 scale form lhs rhs ihl ihr => exact ihr (ihl h hscale) (Word.fits_wrap _)
  | case5 scale form lhs rhs factor _ ih => exact ih h (Word.fits_wrap _)
  | case6 scale form lhs rhs factor _ _ ih => exact ih h (Word.fits_wrap _)
  | case7 scale form lhs rhs _ _ => exact h.addTerm _ hscale
  | case8 e scale form => exact h.addTerm _ hscale

/-- A listed term has its coefficient if it is listed once. -/
theorem coefficientIn_of_mem {coefficient : Int} (hnodup : (terms.map Prod.fst).Nodup)
    (hmem : (term, coefficient) ∈ terms) : coefficientIn term terms = coefficient := by
  induction terms with
  | nil => cases hmem
  | cons entry rest ih =>
      obtain ⟨other, known⟩ := entry
      rw [List.map_cons, List.nodup_cons] at hnodup
      rcases List.mem_cons.mp hmem with heq | hmem
      · obtain ⟨rfl, rfl⟩ := Prod.mk.inj heq
        exact if_pos rfl
      · have hother : other ≠ term := by
          rintro rfl
          exact hnodup.1 (List.mem_map.mpr ⟨_, hmem, rfl⟩)
        rw [coefficientIn, if_neg hother]
        exact ih hnodup.2 hmem

/-- A form without coefficients is its constant. -/
theorem toExpr_of_forall_zero (h : ∀ entry ∈ form.terms, entry.2 = 0) :
    form.toExpr = .literal form.dtype form.constant := by
  have hpositive : form.terms.filter (fun entry => decide (0 < entry.2)) = [] :=
    List.filter_eq_nil_iff.mpr fun entry hentry => by simp [h entry hentry]
  have hnegative : form.terms.filter (fun entry => decide (entry.2 < 0)) = [] :=
    List.filter_eq_nil_iff.mpr fun entry hentry => by simp [h entry hentry]
  simp [toExpr, hpositive, hnegative]

/-- The form of a difference of equal expressions has nothing left. -/
theorem toExpr_ofExpr_sub_self (e : Expr) :
    (ofExpr (.binary .sub e e)).toExpr = .zero e.dtype := by
  obtain ⟨fixed, share, hflattens⟩ := exists_flattens e
  let start : LinearForm := ⟨[], 0, e.dtype⟩
  have hstart : start.Tidy := ⟨List.nodup_nil, by simp [start], rfl⟩
  have hform : ofExpr (.binary .sub e e) = accumulate e (-1) (accumulate e 1 start) := rfl
  have htidy : (accumulate e (-1) (accumulate e 1 start)).Tidy :=
    (hstart.accumulate (by decide)).accumulate (by decide)
  obtain ⟨hconstant, hterms⟩ := hflattens 1 start
  obtain ⟨hconstant', hterms'⟩ := hflattens (-1) (accumulate e 1 start)
  have hcancel : ∀ {first second x : Int}, first ≡ 0 + 1 * x [ZMOD Word.count] →
      second ≡ first + -1 * x [ZMOD Word.count] → second ≡ 0 [ZMOD Word.count] :=
    fun hfirst hsecond => (hsecond.trans (hfirst.add_right _)).trans (by ring_nf; rfl)
  have hzero : ∀ entry ∈ (accumulate e (-1) (accumulate e 1 start)).terms, entry.2 = 0 := by
    rintro ⟨term, coefficient⟩ hentry
    refine Word.eq_zero_of_modEq (htidy.coefficients _ hentry) ?_
    have hmod := hcancel (hterms term) (hterms' term)
    rwa [coefficientIn_of_mem htidy.nodup hentry] at hmod
  rw [hform, toExpr_of_forall_zero hzero,
    Word.eq_zero_of_modEq htidy.constant (hcancel hconstant hconstant'), dtype_accumulate,
    dtype_accumulate]
  rfl

end LinearForm

namespace Expr

theorem isZero_zero (dtype : DType) : (zero dtype).isZero = true := by
  simp [zero, literal, isZero, value?]

/-- The difference of an expression with itself is folded to zero or not at all. -/
theorem sub_self_cases (e : Expr) : e.sub e = .zero e.dtype ∨ e.sub e = .binary .sub e e := by
  cases hvalue : e.value? with
  | some value =>
      left
      rw [eq_const_of_value? hvalue]
      simp [sub, combine, promote, foldNode, foldLiterals?, value?, BinaryOp.compute?, resultType,
        BinaryOp.isPredicate, BinaryOp.isComparison, BinaryOp.isLogical, Expr.dtype, zero]
  | none =>
      right
      simp [sub, combine, promote, foldNode, foldLiterals?, foldNeutral?, hvalue, isZero,
        keepOffsetPositive, oppositeOffset?]

theorem normalize_zero (dtype : DType) : (zero dtype).normalize = zero dtype := by
  simp [normalize, LinearForm.ofExpr, zero, literal, LinearForm.accumulate,
    LinearForm.addConstant, LinearForm.toExpr, Word.wrap, Expr.dtype]

/-- The difference of an expression with itself normalizes to zero. -/
theorem normalize_sub_self (e : Expr) : (e.sub e).normalize = .zero e.dtype := by
  rcases sub_self_cases e with hsub | hsub
  · rw [hsub, normalize_zero]
  · rw [hsub, normalize, LinearForm.toExpr_ofExpr_sub_self]

end Expr

end LoopNest
