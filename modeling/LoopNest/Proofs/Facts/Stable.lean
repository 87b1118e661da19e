/-
# Properties that rewriting keeps

Simplifying and substituting build expressions by the folding constructors only, out of parts
of what was there and of literals. A property that an expression shares with its parts and that
these constructors respect therefore survives, whatever the facts are. Such a property is called
stable here. It may not depend on the types of operands, which are brought to a common type on
the way, nor on those of literals.

A stable property is a size in disguise, which is infinite for the expressions without the
property. What is said about sizes then says that rewriting keeps the property.
-/

import LoopNest.Proofs.Facts.Sizes

namespace LoopNest.Expr

variable {holds : Expr → Prop} {e lhs rhs : Expr} {op : BinaryOp}

/-- A property of all literals that negations, complements and binary nodes have when their
operands do, and that views keep. A cast passes it on to what it casts. -/
structure Stable (holds : Expr → Prop) : Prop where
  literal : ∀ dtype value, holds (literal dtype value)
  ofCast : ∀ {dtype source}, holds (cast dtype source) → holds source
  castTo : ∀ {e}, holds e → ∀ dtype, holds (e.castTo dtype)
  neg_iff : ∀ {operand}, holds (neg operand) ↔ holds operand
  not_iff : ∀ {operand}, holds (not operand) ↔ holds operand
  binary_iff : ∀ {op lhs rhs}, holds (binary op lhs rhs) ↔ holds lhs ∧ holds rhs

open Classical in
/-- The size that a property gives to an expression: none where it holds, infinite elsewhere. -/
noncomputable def failure (holds : Expr → Prop) (e : Expr) : ℕ∞ :=
  if holds e then 0 else ⊤

theorem failure_of_holds (h : holds e) : failure holds e = 0 := if_pos h

theorem failure_of_not_holds (h : ¬holds e) : failure holds e = ⊤ := if_neg h

theorem failure_eq_zero_iff : failure holds e = 0 ↔ holds e := by
  by_cases h : holds e
  · simp [failure_of_holds h, h]
  · simp [failure_of_not_holds h, h]

theorem failure_le_iff {new : Expr} :
    failure holds new ≤ failure holds e ↔ (holds e → holds new) := by
  by_cases h : holds e
  · rw [failure_of_holds h, nonpos_iff_eq_zero, failure_eq_zero_iff, forall_prop_of_true h]
  · simp [failure_of_not_holds h, h]

namespace Stable

theorem isSize (stable : Stable holds) : IsSize (failure holds) fun _ => 0 where
  literal dtype value := failure_eq_zero_iff.mpr (stable.literal dtype value)
  ofCast _ _ := failure_le_iff.mpr stable.ofCast
  castTo _ dtype := failure_le_iff.mpr fun h => stable.castTo h dtype
  neg _ := le_antisymm (failure_le_iff.mpr stable.neg_iff.mpr) (failure_le_iff.mpr stable.neg_iff.mp)
  not _ := le_antisymm (failure_le_iff.mpr stable.not_iff.mpr) (failure_le_iff.mpr stable.not_iff.mp)
  binary op lhs rhs := by
    by_cases h : holds lhs ∧ holds rhs
    · rw [failure_of_holds (stable.binary_iff.mpr h), failure_of_holds h.1, failure_of_holds h.2]
      rfl
    · rw [failure_of_not_holds (mt stable.binary_iff.mp h)]
      rcases not_and_or.mp h with h | h <;> simp [failure_of_not_holds h]
  weight _ _ := rfl

/-- A rewriting that increases no size keeps every stable property. -/
theorem of_size_le (stable : Stable holds) {new : Expr}
    (hle : ∀ {size weight}, IsSize size weight → size new ≤ size e) (h : holds e) : holds new :=
  failure_le_iff.mp (hle stable.isSize) h

/-- What two operands give has a stable property that both of them have. -/
theorem of_size_le_add (stable : Stable holds) {new : Expr}
    (hle : ∀ {size weight}, IsSize size weight → size new ≤ weight op + size lhs + size rhs)
    (hlhs : holds lhs) (hrhs : holds rhs) : holds new := by
  have hnew := hle stable.isSize
  rw [failure_of_holds hlhs, failure_of_holds hrhs, add_zero, add_zero] at hnew
  exact failure_eq_zero_iff.mp (nonpos_iff_eq_zero.mp hnew)

theorem negate (stable : Stable holds) (h : holds e) : holds e.negate :=
  stable.of_size_le (fun hsize => hsize.negate_le e) h

theorem complement (stable : Stable holds) (h : holds e) : holds e.complement :=
  stable.of_size_le (fun hsize => hsize.complement_le e) h

theorem combine (stable : Stable holds) (hlhs : holds lhs) (hrhs : holds rhs) :
    holds (Expr.combine op lhs rhs) :=
  stable.of_size_le_add (fun hsize => hsize.combine_le op lhs rhs) hlhs hrhs

theorem normalize (stable : Stable holds) (h : holds e) : holds e.normalize :=
  stable.of_size_le (fun hsize => hsize.normalize_le e) h

theorem rest (stable : Stable holds) (h : holds e) (divisor : Int) :
    holds ((LinearForm.ofExpr e).remainingPart divisor).toExpr :=
  stable.of_size_le (fun hsize => le_add_self.trans (hsize.quotient_add_rest_le e divisor)) h

section Simplify

variable (stable : Stable holds) (facts : Facts)
include stable

theorem simplifyNode (hlhs : holds lhs) (hrhs : holds rhs) :
    holds (facts.simplifyNode op lhs rhs) :=
  stable.of_size_le_add (fun hsize => hsize.simplifyNode_le facts op lhs rhs) hlhs hrhs

theorem simplifyNot (h : holds e) : holds (facts.simplifyNot e) :=
  stable.of_size_le (fun hsize => hsize.simplifyNot_le facts e) h

/-- Simplifying keeps stable properties, whatever the facts are. -/
theorem simplify (h : holds e) : holds (facts.simplify e) :=
  stable.of_size_le (fun hsize => hsize.simplify_le facts e) h

end Simplify

end Stable

end LoopNest.Expr
