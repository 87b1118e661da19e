/-
# Facts about variables

What the analysis knows comes in two kinds. Ranges are bound to variables and
stay; binding a variable again replaces its range. Constraints are predicates
that hold inside a scope: they are assumed when the scope is entered and released
when it is left, while ranges bound inside the scope survive it.

A constraint is simplified before it is assumed, which is why assuming is defined
with the simplifier. Here are the data and the operations that need no analysis.
-/

import LoopNest.Range

namespace LoopNest

/-- The range of each variable that has one and the active constraints, outermost
first. -/
structure Facts where
  ranges : Var → Option Range
  constraints : List Expr

namespace Facts

/-- Knowing nothing. -/
def empty : Facts := ⟨fun _ => none, []⟩

instance : Inhabited Facts := ⟨empty⟩

/-- Give a variable a range, in place of any it had. -/
def bind (facts : Facts) (v : Var) (range : Range) : Facts :=
  { facts with ranges := fun other => if other = v then some range else facts.ranges other }

/-- Release the constraints of inner scopes, keeping the outermost `depth` of them. -/
def release (facts : Facts) (depth : Nat) : Facts :=
  { facts with constraints := facts.constraints.take depth }

end Facts

/-- The conjuncts of a predicate, without those that are literally true. -/
def Expr.conjuncts : Expr → List Expr
  | .binary .and lhs rhs => lhs.conjuncts ++ rhs.conjuncts
  | .const dtype value => if value = 0 then [.const dtype value] else []
  | e => [e]

end LoopNest
