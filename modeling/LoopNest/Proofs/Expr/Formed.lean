/-
# Formed expressions

Whatever is built by the folding constructors obeys three rules: a literal lies
in its type, the operands of a node share their type, and conjunction and
disjunction join truth values. An expression that obeys them is formed. A literal
of a formed expression is its own value, which is what makes folding a literal
and wrapping a node the same thing.

A well-typed expression complements truth values only. The constructors do not
insist on that, and a complement of a number has a value too, so it is a rule of
its own.
-/

import LoopNest.Expr.Fold
import LoopNest.Proofs.Expr.Eval

namespace LoopNest

namespace Expr

/-- Literals lie in their types, operands share theirs, and logical operators join
truth values. -/
def Formed : Expr → Prop
  | const dtype value => dtype.contains value = true
  | var _ => True
  | cast _ source => source.Formed
  | neg operand | not operand => operand.Formed
  | binary op lhs rhs =>
    lhs.Formed ∧ rhs.Formed ∧ lhs.dtype = rhs.dtype ∧ (op.isLogical = true → lhs.dtype = .bool)

/-- A literal lies in its type; about other expressions nothing is said. Folding looks at the
literals among its operands and at nothing below the others, so this is all that it asks of
an operand to keep its value. -/
def LiteralFits (e : Expr) : Prop :=
  ∀ value, e.value? = some value → e.dtype.contains value = true

theorem Formed.literalFits {e : Expr} (h : e.Formed) : e.LiteralFits := by
  intro value hvalue
  cases e <;> simp only [value?, Option.some.injEq, reduceCtorEq] at hvalue
  case const => exact hvalue ▸ h

/-- Every complement is the complement of a truth value. -/
def ComplementsTruth : Expr → Prop
  | const _ _ | var _ => True
  | cast _ source => source.ComplementsTruth
  | neg operand => operand.ComplementsTruth
  | not operand => operand.ComplementsTruth ∧ operand.dtype = .bool
  | binary _ lhs rhs => lhs.ComplementsTruth ∧ rhs.ComplementsTruth

/-- Formed, and complements truth values only. -/
structure WellTyped (e : Expr) : Prop where
  formed : e.Formed
  complements : e.ComplementsTruth

instance decidableFormed : DecidablePred Formed
  | const dtype value => inferInstanceAs (Decidable (dtype.contains value = true))
  | var _ => inferInstanceAs (Decidable True)
  | cast _ source => decidableFormed source
  | neg operand | not operand => decidableFormed operand
  | binary op lhs rhs =>
    haveI := decidableFormed lhs
    haveI := decidableFormed rhs
    inferInstanceAs (Decidable (lhs.Formed ∧ rhs.Formed ∧ lhs.dtype = rhs.dtype ∧
      (op.isLogical = true → lhs.dtype = .bool)))

instance decidableComplementsTruth : DecidablePred ComplementsTruth
  | const _ _ | var _ => inferInstanceAs (Decidable True)
  | cast _ source => decidableComplementsTruth source
  | neg operand => decidableComplementsTruth operand
  | not operand =>
    haveI := decidableComplementsTruth operand
    inferInstanceAs (Decidable (operand.ComplementsTruth ∧ operand.dtype = .bool))
  | binary _ lhs rhs =>
    haveI := decidableComplementsTruth lhs
    haveI := decidableComplementsTruth rhs
    inferInstanceAs (Decidable (lhs.ComplementsTruth ∧ rhs.ComplementsTruth))

instance (e : Expr) : Decidable e.WellTyped :=
  decidable_of_iff (e.Formed ∧ e.ComplementsTruth)
    ⟨fun h => ⟨h.1, h.2⟩, fun h => ⟨h.formed, h.complements⟩⟩

/-- Only literals have a literal value. -/
theorem eq_const_of_value? {e : Expr} {value : Int} (h : e.value? = some value) :
    e = const e.dtype value := by
  cases e <;> simp_all [value?, Expr.dtype]

end Expr

end LoopNest
