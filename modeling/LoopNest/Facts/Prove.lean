/-
# Proving predicates

A predicate counts as proved when it is one of the constraints, when it simplifies
to a literal other than zero, or when it simplifies to a conjunction both sides of
which are proved. An answer of `false` only says that no proof was found.

The conjuncts of a simplified conjunction are simplified once more. Simplifying
adds no conjunction, so each step has fewer of them left and their number limits
how often the search has to descend.
-/

import LoopNest.Facts.Simplify

namespace LoopNest

/-- The number of conjunctions in an expression. -/
def Expr.conjunctionCount : Expr → Nat
  | .const _ _ | .var _ => 0
  | .cast _ source => source.conjunctionCount
  | .neg operand | .not operand => operand.conjunctionCount
  | .binary op lhs rhs =>
    (if op = .and then 1 else 0) + lhs.conjunctionCount + rhs.conjunctionCount

namespace Facts

/-- Whether a predicate is one of the active constraints. -/
def isAssumed (facts : Facts) (predicate : Expr) : Bool :=
  decide (predicate ∈ facts.constraints)

/-- Search for a proof of a predicate, descending into conjunctions at most `depth` times. -/
def provesWithin (facts : Facts) : Nat → Expr → Bool
  | 0, _ => false
  | depth + 1, predicate =>
    if facts.isAssumed predicate then true
    else
      let simplified := facts.simplify predicate
      match simplified with
      | .const _ value => decide (value ≠ 0)
      | .binary .and lhs rhs => facts.provesWithin depth lhs && facts.provesWithin depth rhs
      | _ => facts.isAssumed simplified

/-- Whether the facts prove that a predicate holds. -/
def proves (facts : Facts) (predicate : Expr) : Bool :=
  facts.provesWithin (predicate.conjunctionCount + 1) predicate

end Facts

end LoopNest
