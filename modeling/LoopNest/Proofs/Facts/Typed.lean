/-
# Simplification keeps types

Simplifying a well-typed expression gives a well-typed expression of the same type,
whatever the facts are. This is needed even where the value is of no interest: the
right operand of a decided conjunction is simplified although it may have no value.
-/

import LoopNest.Facts.Simplify
import LoopNest.Proofs.Expr.Split

namespace LoopNest

namespace Expr

variable {dtype : DType} {e lhs rhs : Expr}

namespace TypedAt

theorem castTo (h : e.WellTyped) (dtype : DType) : (e.castTo dtype).TypedAt dtype :=
  ⟨⟨formed_castTo h.formed dtype, complements_castTo h.complements dtype⟩, dtype_castTo e dtype⟩

/-- Predicates over operands of one type are truth values. -/
theorem combine_predicate {op : BinaryOp} (hop : op.isPredicate = true) (hlhs : lhs.WellTyped)
    (hrhs : rhs.WellTyped) (same : lhs.dtype = rhs.dtype)
    (hbool : op.isLogical = true → lhs.dtype = .bool) :
    (Expr.combine op lhs rhs).TypedAt .bool :=
  ⟨wellTyped_combine same hbool hlhs hrhs, by rw [dtype_combine same hbool, resultType, hop]; rfl⟩

theorem ofBool (holds : Bool) : (Expr.ofBool holds).TypedAt .bool :=
  ⟨wellTyped_literal _ _, rfl⟩

theorem complement (h : e.TypedAt .bool) : e.complement.TypedAt .bool :=
  ⟨⟨formed_complement h.wellTyped.formed,
    complements_complement h.wellTyped.complements h.dtype_eq⟩, dtype_complement e⟩

end TypedAt

end Expr

namespace LinearForm

variable {dtype : DType} {e : Expr}

/-- The terms of the linear form of an expression have its type. -/
theorem forall_terms_typedAt (h : e.TypedAt dtype) :
    ∀ entry ∈ (ofExpr e).terms, entry.1.TypedAt dtype :=
  forall_terms_ofExpr (inherited_typedAt dtype) h

theorem typedAt_quotient (h : e.TypedAt dtype) (divisor : Int) :
    (((ofExpr e).divisiblePart divisor).divideBy divisor).toExpr.TypedAt dtype := by
  have hdtype : (((ofExpr e).divisiblePart divisor).divideBy divisor).dtype = dtype :=
    (dtype_ofExpr e).trans h.dtype_eq
  exact hdtype ▸ typedAt_toExpr
    (hdtype.symm ▸ forall_terms_divideBy (forall_terms_typedAt h) divisor)

theorem typedAt_rest (h : e.TypedAt dtype) (divisor : Int) :
    ((ofExpr e).remainingPart divisor).toExpr.TypedAt dtype := by
  have hdtype : ((ofExpr e).remainingPart divisor).dtype = dtype :=
    (dtype_ofExpr e).trans h.dtype_eq
  exact hdtype ▸ typedAt_toExpr
    (hdtype.symm ▸ forall_terms_remainingPart (forall_terms_typedAt h) divisor)

end LinearForm

namespace Facts

variable {dtype : DType} {e lhs rhs : Expr}

theorem typedAt_collapse (facts : Facts) (h : e.TypedAt dtype) :
    (facts.collapse e).TypedAt dtype := by
  unfold collapse
  split
  · exact h
  · simp only
    split
    · exact h.dtype_eq ▸ .literal _
    · exact h

theorem typedAt_divideLinear (facts : Facts) (h : e.TypedAt dtype) (divisor : Int) :
    (facts.divideLinear e divisor).TypedAt dtype := by
  have hquotient := LinearForm.typedAt_quotient h divisor
  have hrest := LinearForm.typedAt_rest h divisor
  have hofRest : (((LinearForm.ofExpr e).remainingPart divisor).toExpr.floorDiv
      (.literal ((LinearForm.ofExpr e).remainingPart divisor).toExpr.dtype divisor)).TypedAt
        dtype :=
    hrest.combine rfl (hrest.dtype_eq.symm ▸ .literal divisor)
  have hcast : ∀ {result : Expr}, result.TypedAt dtype → (result.castTo e.dtype).TypedAt dtype :=
    fun hresult => by
      rw [Expr.castTo_of_dtype_eq (hresult.dtype_eq.trans h.dtype_eq.symm)]
      exact hresult
  unfold divideLinear quotientOfRest?
  apply hcast
  split
  · rename_i ofRest hsome
    split at hsome
    · cases hsome
    · rw [← Option.some.inj hsome]
      split
      · exact hofRest
      · exact hquotient.combine rfl hofRest
  · exact hquotient

theorem typedAt_simplifyDiv (facts : Facts) (h : e.TypedAt dtype) (divisor : Int) :
    (facts.simplifyDiv e divisor).TypedAt dtype := by
  fun_induction simplifyDiv facts e divisor with
  | case1 dividend inner divisor product hproduct ih =>
      exact ih ⟨⟨h.wellTyped.formed.1, h.wellTyped.complements.1⟩, h.dtype_eq⟩
  | case2 dividend inner divisor hnone => exact typedAt_divideLinear facts h divisor
  | case3 e divisor hother => exact typedAt_divideLinear facts h divisor

theorem typedAt_simplifyMod (facts : Facts) (h : e.TypedAt dtype) (divisor : Int) :
    (facts.simplifyMod e divisor).TypedAt dtype := by
  have hrest := LinearForm.typedAt_rest h divisor
  have hcast : ∀ {result : Expr}, result.TypedAt dtype → (result.castTo e.dtype).TypedAt dtype :=
    fun hresult => by
      rw [Expr.castTo_of_dtype_eq (hresult.dtype_eq.trans h.dtype_eq.symm)]
      exact hresult
  unfold simplifyMod
  apply hcast
  split
  · exact hrest
  · exact hrest.combine rfl (hrest.dtype_eq.symm ▸ .literal divisor)

section SharedType

variable (facts : Facts) (hlhs : lhs.WellTyped) (hrhs : rhs.WellTyped)
  (same : lhs.dtype = rhs.dtype)
include hlhs hrhs same

theorem typedAt_simplifyMin : (facts.simplifyMin lhs rhs).TypedAt lhs.dtype := by
  unfold simplifyMin
  split
  · exact ⟨hlhs, rfl⟩
  · simp only
    split
    · exact ⟨hlhs, rfl⟩
    · split
      · exact ⟨hrhs, same.symm⟩
      · exact .combine rfl ⟨hlhs, rfl⟩ ⟨hrhs, same.symm⟩

theorem typedAt_simplifyMax : (facts.simplifyMax lhs rhs).TypedAt lhs.dtype := by
  unfold simplifyMax
  split
  · exact ⟨hlhs, rfl⟩
  · simp only
    split
    · exact ⟨hlhs, rfl⟩
    · split
      · exact ⟨hrhs, same.symm⟩
      · exact .combine rfl ⟨hlhs, rfl⟩ ⟨hrhs, same.symm⟩

theorem typedAt_simplifyComparison {op : BinaryOp} (hop : op.isComparison = true) :
    (facts.simplifyComparison op lhs rhs).TypedAt .bool := by
  have hpredicate : op.isPredicate = true := by simp [BinaryOp.isPredicate, hop]
  have hlogical : op.isLogical = true → lhs.dtype = .bool := by
    cases op <;> simp_all [BinaryOp.isComparison, BinaryOp.isLogical]
  unfold simplifyComparison
  split
  · exact .combine_predicate hpredicate hlhs hrhs same hlogical
  · split
    · exact .ofBool _
    · exact .combine_predicate hpredicate hlhs hrhs same hlogical

/-- A node over simplified operands has the type of the original node. -/
theorem typedAt_simplifyNode {op : BinaryOp} (hbool : op.isLogical = true → lhs.dtype = .bool) :
    (facts.simplifyNode op lhs rhs).TypedAt (Expr.binary op lhs rhs).dtype := by
  cases op with
  | add | sub | mul => exact (Expr.TypedAt.combine rfl ⟨hlhs, rfl⟩ ⟨hrhs, same.symm⟩).normalize
  | floorDiv =>
      simp only [simplifyNode]
      split
      · exact typedAt_simplifyDiv facts ⟨hlhs, rfl⟩ _
      · exact .combine rfl ⟨hlhs, rfl⟩ ⟨hrhs, same.symm⟩
  | floorMod =>
      simp only [simplifyNode]
      split
      · exact typedAt_simplifyMod facts ⟨hlhs, rfl⟩ _
      · exact .combine rfl ⟨hlhs, rfl⟩ ⟨hrhs, same.symm⟩
  | min => exact typedAt_simplifyMin facts hlhs hrhs same
  | max => exact typedAt_simplifyMax facts hlhs hrhs same
  | lt | le | eq | ne => exact typedAt_simplifyComparison facts hlhs hrhs same rfl
  | and | or => exact .combine_predicate rfl hlhs hrhs same hbool

end SharedType

theorem typedAt_simplifyNot (facts : Facts) (h : e.TypedAt .bool) :
    (facts.simplifyNot e).TypedAt .bool := by
  unfold simplifyNot
  split
  case h_5 => exact ⟨⟨h.wellTyped.formed, h.wellTyped.complements.1⟩, h.wellTyped.complements.2⟩
  case h_6 => exact h.complement
  all_goals
    obtain ⟨⟨⟨hlhs, hrhs, same, -⟩, hcl, hcr⟩, -⟩ := h
    first
    | exact typedAt_simplifyComparison facts ⟨hlhs, hcl⟩ ⟨hrhs, hcr⟩ same rfl
    | exact typedAt_simplifyComparison facts ⟨hrhs, hcr⟩ ⟨hlhs, hcl⟩ same.symm rfl

/-- Simplifying keeps the type of an expression and that it is well typed. -/
theorem typedAt_simplify (facts : Facts) (h : e.WellTyped) :
    (facts.simplify e).TypedAt e.dtype := by
  induction e with
  | const dtype value => exact typedAt_collapse facts ⟨h, rfl⟩
  | var v => exact typedAt_collapse facts ⟨h, rfl⟩
  | cast dtype source ih =>
      exact typedAt_collapse facts
        (.castTo (ih ⟨h.formed, h.complements⟩).wellTyped dtype)
  | neg operand ih =>
      exact typedAt_collapse facts (ih ⟨h.formed, h.complements⟩).negate.normalize
  | not operand ih =>
      have hoperand := ih ⟨h.formed, h.complements.1⟩
      rw [h.complements.2] at hoperand
      exact typedAt_collapse facts (typedAt_simplifyNot facts hoperand)
  | binary op lhs rhs ihl ihr =>
      obtain ⟨hlhs, hrhs, same, hbool⟩ := h.formed
      have hleft := ihl ⟨hlhs, h.complements.1⟩
      have hright := ihr ⟨hrhs, h.complements.2⟩
      have hdtype : (Expr.binary op (facts.simplify lhs) (facts.simplify rhs)).dtype =
          (Expr.binary op lhs rhs).dtype := by
        simp [Expr.dtype, hleft.dtype_eq]
      exact hdtype ▸ typedAt_collapse facts
        (typedAt_simplifyNode facts hleft.wellTyped hright.wellTyped
          (hleft.dtype_eq.trans (same.trans hright.dtype_eq.symm))
          fun hlogical => hleft.dtype_eq.trans (hbool hlogical))

end Facts

end LoopNest
