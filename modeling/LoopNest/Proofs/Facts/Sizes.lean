/-
# Sizes that rewriting does not increase

Simplification moves the parts of an expression around: it flattens sums, merges equal terms,
splits dividends, turns comparisons over. It never puts a part in two places. So whatever adds up
over the nodes of an expression does not grow, provided that the nodes which rewriting itself
introduces, arithmetic, comparisons and casts, weigh nothing. Only conjunctions and disjunctions
may weigh something, and of the variables nothing is assumed.

A size may be infinite. Where it is either zero or infinite, what is said here is that rewriting
keeps a property.
-/

import LoopNest.Proofs.Expr.Cancellation
import LoopNest.Proofs.Facts.Typed
import Mathlib.Algebra.Order.BigOperators.Group.List
import Mathlib.Data.ENat.Basic

namespace LoopNest

namespace Expr

/-- A size that adds up over the nodes of an expression. Literals have none, an operator adds its
weight to the sizes of its operands, and only logical operators weigh anything. A view of an
expression at another type is not larger than the expression. -/
structure IsSize (size : Expr → ℕ∞) (weight : BinaryOp → ℕ∞) : Prop where
  literal : ∀ dtype value, size (literal dtype value) = 0
  ofCast : ∀ dtype source, size source ≤ size (cast dtype source)
  castTo : ∀ e dtype, size (e.castTo dtype) ≤ size e
  neg : ∀ operand, size (neg operand) = size operand
  not : ∀ operand, size (not operand) = size operand
  binary : ∀ op lhs rhs, size (binary op lhs rhs) = weight op + size lhs + size rhs
  weight : ∀ op, op.isLogical = false → weight op = 0

namespace IsSize

variable {size : Expr → ℕ∞} {weight : BinaryOp → ℕ∞} {e lhs rhs : Expr} {op : BinaryOp}

theorem size_binary (h : IsSize size weight) (hop : op.isLogical = false) (lhs rhs : Expr) :
    size (Expr.binary op lhs rhs) = size lhs + size rhs := by
  rw [h.binary, h.weight op hop, zero_add]

theorem negate_le (h : IsSize size weight) (e : Expr) : size e.negate ≤ size e := by
  unfold Expr.negate
  split
  · exact (h.literal _ _).trans_le zero_le
  · exact (h.neg e).le

theorem complement_le (h : IsSize size weight) (e : Expr) : size e.complement ≤ size e := by
  unfold Expr.complement
  split
  · exact (h.literal _ _).trans_le zero_le
  · exact (h.not e).le

/-- Folding leaves out operands or keeps them, and brings in nothing but literals. -/
theorem combine_le (h : IsSize size weight) (op : BinaryOp) (lhs rhs : Expr) :
    size (Expr.combine op lhs rhs) ≤ weight op + size lhs + size rhs := by
  rw [Expr.combine, promote_eq_castTo]
  generalize (promote lhs rhs).1.dtype = dtype
  have hfolded : size (foldNode op (lhs.castTo dtype) (rhs.castTo dtype)) ≤
      weight op + size (lhs.castTo dtype) + size (rhs.castTo dtype) := by
    refine @foldNode_cases op _ _
      (fun folded => size folded ≤ weight op + size (lhs.castTo dtype) + size (rhs.castTo dtype))
      ?_ ?_ ?_ ?_ ?_
    · exact fun dtype value => (h.literal dtype value).trans_le zero_le
    · exact le_add_right le_add_self
    · exact le_add_self
    · exact (h.binary _ _ _).le
    · intro turned value hturned
      rw [h.size_binary (Bool.eq_false_iff.mpr (BinaryOp.not_isLogical hturned)), h.literal,
        add_zero]
      exact le_add_right le_add_self
  exact hfolded.trans (add_le_add (add_le_add_right (h.castTo lhs dtype) _) (h.castTo rhs dtype))

theorem combine_le_of_not_isLogical (h : IsSize size weight) (hop : op.isLogical = false)
    (lhs rhs : Expr) : size (Expr.combine op lhs rhs) ≤ size lhs + size rhs := by
  have hle := h.combine_le op lhs rhs
  rwa [h.weight op hop, zero_add] at hle

/-- A literal adds nothing. -/
theorem combine_literal_le (h : IsSize size weight) (hop : op.isLogical = false) (lhs : Expr)
    (dtype : DType) (value : Int) :
    size (Expr.combine op lhs (.literal dtype value)) ≤ size lhs :=
  (h.combine_le_of_not_isLogical hop lhs _).trans_eq (by rw [h.literal, add_zero])

end IsSize

end Expr

namespace LinearForm

variable {size : Expr → ℕ∞} {weight : BinaryOp → ℕ∞} {form : LinearForm}

/-- The sizes of all terms of a list together. -/
def termsSize (size : Expr → ℕ∞) (terms : List (Expr × Int)) : ℕ∞ :=
  ((terms.map Prod.fst).map size).sum

theorem termsSize_append (size : Expr → ℕ∞) (first second : List (Expr × Int)) :
    termsSize size (first ++ second) = termsSize size first + termsSize size second := by
  rw [termsSize, List.map_append, List.map_append, List.sum_append, termsSize, termsSize]

theorem termsSize_perm (size : Expr → ℕ∞) {first second : List (Expr × Int)}
    (h : first.Perm second) : termsSize size first = termsSize size second :=
  ((h.map Prod.fst).map size).sum_eq

/-- Equal terms are merged, so a term is counted once at most. -/
theorem termsSize_addToTerms_le (size : Expr → ℕ∞) (term : Expr) (coefficient : Int)
    (terms : List (Expr × Int)) :
    termsSize size (addToTerms term coefficient terms) ≤ termsSize size terms + size term := by
  rw [termsSize, keys_addToTerms]
  split
  · exact le_self_add
  · rw [List.map_append, List.sum_append]
    exact (congrArg _ (List.sum_singleton)).le

/-- A term is added or subtracted in rebuilding, never both. -/
theorem termsSize_signs_le (size : Expr → ℕ∞) (form : LinearForm) :
    termsSize size form.positiveTerms + termsSize size form.negativeTerms ≤
      termsSize size form.terms := by
  have hsublist : form.negativeTerms.Sublist
      (form.terms.filter fun entry => !decide (0 < entry.2)) :=
    List.monotone_filter_right _ fun entry hentry => by
      rw [decide_eq_true_eq] at hentry
      simpa using hentry.le
  calc termsSize size form.positiveTerms + termsSize size form.negativeTerms
      ≤ termsSize size form.positiveTerms +
          termsSize size (form.terms.filter fun entry => !decide (0 < entry.2)) :=
        add_le_add_right (((hsublist.map Prod.fst).map size).sum_le_sum fun _ _ => zero_le) _
    _ = termsSize size form.terms := by
        rw [← termsSize_append]
        exact termsSize_perm size (List.filter_append_perm _ _)

/-- The terms of a form are shared out between its two parts, and dividing keeps them. -/
theorem termsSize_split (size : Expr → ℕ∞) (form : LinearForm) (divisor : Int) :
    termsSize size ((form.divisiblePart divisor).divideBy divisor).terms +
      termsSize size (form.remainingPart divisor).terms = termsSize size form.terms := by
  have hdivided : termsSize size ((form.divisiblePart divisor).divideBy divisor).terms =
      termsSize size (form.divisiblePart divisor).terms := by
    simp [termsSize, divideBy, Function.comp_def]
  rw [hdivided, ← termsSize_append]
  exact termsSize_perm size (terms_split_perm form divisor)

/-- The size of what has been rebuilt so far; nothing has none. -/
def builtSize (size : Expr → ℕ∞) (built : Option Expr) : ℕ∞ :=
  built.elim 0 size

/-- Rebuilding from one term after the other adds their sizes at most. -/
theorem builtSize_foldl_le {step : Option Expr → Expr × Int → Option Expr}
    (hstep : ∀ built entry, builtSize size (step built entry) ≤ builtSize size built + size entry.1)
    (entries : List (Expr × Int)) (built : Option Expr) :
    builtSize size (entries.foldl step built) ≤ builtSize size built + termsSize size entries := by
  induction entries generalizing built with
  | nil => exact (add_zero _).ge
  | cons entry rest ih =>
      calc builtSize size (rest.foldl step (step built entry))
          ≤ builtSize size (step built entry) + termsSize size rest := ih _
        _ ≤ builtSize size built + size entry.1 + termsSize size rest :=
            add_le_add_left (hstep built entry) _
        _ = builtSize size built + termsSize size (entry :: rest) := add_assoc _ _ _

end LinearForm

namespace Expr.IsSize

variable {size : Expr → ℕ∞} {weight : BinaryOp → ℕ∞} {e lhs rhs : Expr} {op : BinaryOp}

section Linear

open LinearForm (termsSize builtSize)

/-- Flattening an expression into a form adds terms that are not larger than the expression. -/
theorem accumulate_le (h : IsSize size weight) (e : Expr) (scale : Int) (form : LinearForm) :
    termsSize size (LinearForm.accumulate e scale form).terms ≤
      termsSize size form.terms + size e := by
  have hboth : ∀ {first second third : ℕ∞} {op : BinaryOp} {lhs rhs : Expr},
      op.isLogical = false → second ≤ first + size lhs → third ≤ second + size rhs →
      third ≤ first + size (.binary op lhs rhs) := by
    intro first second third op lhs rhs hop hsecond hthird
    rw [h.size_binary hop, ← add_assoc]
    exact hthird.trans (add_le_add_left hsecond _)
  fun_induction LinearForm.accumulate e scale form with
  | case1 dtype value scale form => exact le_self_add
  | case2 scale form operand ih => exact ih.trans_eq (congrArg _ (h.neg _).symm)
  | case3 scale form lhs rhs ihl ihr => exact hboth rfl ihl ihr
  | case4 scale form lhs rhs ihl ihr => exact hboth rfl ihl ihr
  | case5 scale form lhs rhs factor _ ih => exact hboth rfl ih le_self_add
  | case6 scale form lhs rhs factor _ _ ih => exact hboth rfl le_self_add ih
  | case7 => exact LinearForm.termsSize_addToTerms_le size _ _ _
  | case8 => exact LinearForm.termsSize_addToTerms_le size _ _ _

theorem ofExpr_le (h : IsSize size weight) (e : Expr) :
    termsSize size (LinearForm.ofExpr e).terms ≤ size e :=
  (h.accumulate_le e 1 _).trans_eq (zero_add _)

theorem scaled_le (h : IsSize size weight) (form : LinearForm) (term : Expr) (coefficient : Int) :
    size (form.scaled term coefficient) ≤ size term := by
  unfold LinearForm.scaled
  split
  · exact le_rfl
  · exact h.combine_literal_le rfl term form.dtype coefficient

theorem plusTerm_le (h : IsSize size weight) (form : LinearForm) (built : Option Expr)
    (entry : Expr × Int) :
    builtSize size (form.plusTerm built entry) ≤ builtSize size built + size entry.1 := by
  have hscaled := h.scaled_le form entry.1 entry.2
  cases built with
  | none => exact hscaled.trans_eq (zero_add _).symm
  | some sum =>
      exact (h.combine_le_of_not_isLogical rfl _ _).trans (add_le_add_right hscaled _)

theorem minusTerm_le (h : IsSize size weight) (form : LinearForm) (built : Option Expr)
    (entry : Expr × Int) :
    builtSize size (form.minusTerm built entry) ≤ builtSize size built + size entry.1 := by
  have hscaled := h.scaled_le form entry.1 (Word.wrap (-entry.2))
  cases built with
  | none => exact ((h.negate_le _).trans hscaled).trans_eq (zero_add _).symm
  | some sum =>
      exact (h.combine_le_of_not_isLogical rfl _ _).trans (add_le_add_right hscaled _)

/-- A rebuilt expression is not larger than the terms of the form. -/
theorem toExpr_le (h : IsSize size weight) (form : LinearForm) :
    size form.toExpr ≤ termsSize size form.terms := by
  have hbuilt : builtSize size (form.negativeTerms.foldl form.minusTerm
      (form.positiveTerms.foldl form.plusTerm none)) ≤ termsSize size form.terms :=
    calc _ ≤ builtSize size (form.positiveTerms.foldl form.plusTerm none) +
          termsSize size form.negativeTerms :=
          LinearForm.builtSize_foldl_le (h.minusTerm_le form) _ _
      _ ≤ 0 + termsSize size form.positiveTerms + termsSize size form.negativeTerms :=
          add_le_add_left (LinearForm.builtSize_foldl_le (h.plusTerm_le form) _ none) _
      _ ≤ termsSize size form.terms := by
          rw [zero_add]
          exact LinearForm.termsSize_signs_le size form
  unfold LinearForm.toExpr
  simp only
  split
  · rename_i sum hsum
    rw [LinearForm.negativeTerms, LinearForm.positiveTerms, hsum] at hbuilt
    exact (h.combine_literal_le rfl sum form.dtype form.constant).trans hbuilt
  · exact (h.literal _ _).trans_le zero_le

theorem normalize_le (h : IsSize size weight) (e : Expr) : size e.normalize ≤ size e :=
  (h.toExpr_le _).trans (h.ofExpr_le e)

/-- What a divisor splits off an expression and what is left over are together not larger. -/
theorem quotient_add_rest_le (h : IsSize size weight) (e : Expr) (divisor : Int) :
    size (((LinearForm.ofExpr e).divisiblePart divisor).divideBy divisor).toExpr +
      size ((LinearForm.ofExpr e).remainingPart divisor).toExpr ≤ size e :=
  calc _ ≤ _ := add_le_add (h.toExpr_le _) (h.toExpr_le _)
    _ = termsSize size (LinearForm.ofExpr e).terms := LinearForm.termsSize_split size _ divisor
    _ ≤ size e := h.ofExpr_le e

end Linear

section Simplify

variable (facts : Facts)

theorem collapse_le (h : IsSize size weight) (e : Expr) : size (facts.collapse e) ≤ size e := by
  unfold Facts.collapse
  split
  · exact le_rfl
  · simp only
    split
    · exact (h.literal _ _).trans_le zero_le
    · exact le_rfl

theorem divideLinear_le (h : IsSize size weight) (e : Expr) (divisor : Int) :
    size (facts.divideLinear e divisor) ≤ size e := by
  have hparts := h.quotient_add_rest_le e divisor
  unfold Facts.divideLinear Facts.quotientOfRest?
  refine (h.castTo _ _).trans ?_
  split
  · rename_i ofRest hsome
    split at hsome
    · cases hsome
    · have hofRest : size ofRest ≤
          size ((LinearForm.ofExpr e).remainingPart divisor).toExpr := by
        rw [← Option.some.inj hsome]
        exact h.combine_literal_le rfl _ _ _
      split
      · exact hofRest.trans (le_add_self.trans hparts)
      · exact (h.combine_le_of_not_isLogical rfl _ _).trans
          ((add_le_add_right hofRest _).trans hparts)
  · exact le_self_add.trans hparts

theorem simplifyDiv_le (h : IsSize size weight) (e : Expr) (divisor : Int) :
    size (facts.simplifyDiv e divisor) ≤ size e := by
  fun_induction Facts.simplifyDiv facts e divisor with
  | case1 dividend inner divisor product hproduct ih =>
      rw [h.size_binary rfl]
      exact ih.trans le_self_add
  | case2 dividend inner divisor hnone => exact h.divideLinear_le facts _ divisor
  | case3 e divisor hother => exact h.divideLinear_le facts e divisor

theorem simplifyMod_le (h : IsSize size weight) (e : Expr) (divisor : Int) :
    size (facts.simplifyMod e divisor) ≤ size e := by
  have hrest := le_add_self.trans (h.quotient_add_rest_le e divisor)
  unfold Facts.simplifyMod
  refine (h.castTo _ _).trans ?_
  split
  · exact hrest
  · exact (h.combine_literal_le rfl _ _ _).trans hrest

theorem simplifyMin_le (h : IsSize size weight) (lhs rhs : Expr) :
    size (facts.simplifyMin lhs rhs) ≤ size lhs + size rhs := by
  unfold Facts.simplifyMin
  split
  · exact le_self_add
  · simp only
    split
    · exact le_self_add
    · split
      · exact le_add_self
      · exact h.combine_le_of_not_isLogical rfl lhs rhs

theorem simplifyMax_le (h : IsSize size weight) (lhs rhs : Expr) :
    size (facts.simplifyMax lhs rhs) ≤ size lhs + size rhs := by
  unfold Facts.simplifyMax
  split
  · exact le_self_add
  · simp only
    split
    · exact le_self_add
    · split
      · exact le_add_self
      · exact h.combine_le_of_not_isLogical rfl lhs rhs

theorem simplifyComparison_le (h : IsSize size weight) (hop : op.isLogical = false)
    (lhs rhs : Expr) : size (facts.simplifyComparison op lhs rhs) ≤ size lhs + size rhs := by
  unfold Facts.simplifyComparison
  split
  · exact h.combine_le_of_not_isLogical hop lhs rhs
  · split
    · exact (h.literal _ _).trans_le zero_le
    · exact h.combine_le_of_not_isLogical hop lhs rhs

/-- The weight of the operator is only needed for the logical ones, which stay as they are. -/
theorem simplifyNode_le (h : IsSize size weight) (op : BinaryOp) (lhs rhs : Expr) :
    size (facts.simplifyNode op lhs rhs) ≤ weight op + size lhs + size rhs := by
  cases hop : op.isLogical with
  | true =>
      have hcombine : facts.simplifyNode op lhs rhs = .combine op lhs rhs := by
        cases op <;> first | rfl | cases hop
      rw [hcombine]
      exact h.combine_le op lhs rhs
  | false =>
      rw [h.weight op hop, zero_add]
      cases op with
      | add | sub | mul => exact (h.normalize_le _).trans (h.combine_le_of_not_isLogical rfl lhs rhs)
      | floorDiv =>
          simp only [Facts.simplifyNode]
          split
          · exact (h.simplifyDiv_le facts lhs _).trans le_self_add
          · exact h.combine_le_of_not_isLogical rfl lhs rhs
      | floorMod =>
          simp only [Facts.simplifyNode]
          split
          · exact (h.simplifyMod_le facts lhs _).trans le_self_add
          · exact h.combine_le_of_not_isLogical rfl lhs rhs
      | min => exact h.simplifyMin_le facts lhs rhs
      | max => exact h.simplifyMax_le facts lhs rhs
      | lt | le | eq | ne => exact h.simplifyComparison_le facts rfl lhs rhs
      | and | or => cases hop

theorem simplifyNot_le (h : IsSize size weight) (e : Expr) :
    size (facts.simplifyNot e) ≤ size e := by
  unfold Facts.simplifyNot
  split
  case h_5 => exact (h.not _).ge
  case h_6 => exact h.complement_le _
  case h_1 | h_2 =>
    rw [h.size_binary rfl, add_comm]
    exact h.simplifyComparison_le facts rfl _ _
  case h_3 | h_4 =>
    rw [h.size_binary rfl]
    exact h.simplifyComparison_le facts rfl _ _

/-- Simplifying does not increase a size, whatever the facts are. -/
theorem simplify_le (h : IsSize size weight) (e : Expr) : size (facts.simplify e) ≤ size e := by
  induction e with
  | const | var => exact h.collapse_le facts _
  | cast dtype source ih =>
      calc size (facts.collapse ((facts.simplify source).castTo dtype))
          ≤ size ((facts.simplify source).castTo dtype) := h.collapse_le facts _
        _ ≤ size (facts.simplify source) := h.castTo _ dtype
        _ ≤ size (.cast dtype source) := ih.trans (h.ofCast dtype source)
  | neg operand ih =>
      calc size (facts.collapse (facts.simplify operand).negate.normalize)
          ≤ size (facts.simplify operand).negate.normalize := h.collapse_le facts _
        _ ≤ size (facts.simplify operand) := (h.normalize_le _).trans (h.negate_le _)
        _ ≤ size (.neg operand) := ih.trans (h.neg operand).ge
  | not operand ih =>
      calc size (facts.collapse (facts.simplifyNot (facts.simplify operand)))
          ≤ size (facts.simplifyNot (facts.simplify operand)) := h.collapse_le facts _
        _ ≤ size (facts.simplify operand) := h.simplifyNot_le facts _
        _ ≤ size (.not operand) := ih.trans (h.not operand).ge
  | binary op lhs rhs ihl ihr =>
      calc size (facts.collapse (facts.simplifyNode op (facts.simplify lhs) (facts.simplify rhs)))
          ≤ size (facts.simplifyNode op (facts.simplify lhs) (facts.simplify rhs)) :=
            h.collapse_le facts _
        _ ≤ weight op + size (facts.simplify lhs) + size (facts.simplify rhs) :=
            h.simplifyNode_le facts op _ _
        _ ≤ weight op + size lhs + size rhs := add_le_add (add_le_add_right ihl _) ihr
        _ = size (.binary op lhs rhs) := (h.binary op lhs rhs).symm

end Simplify

end Expr.IsSize

end LoopNest
