/-
# Substitution

A substitution replaces all its variables at once; occurrences inside the
replacements are not replaced again. What surrounds a replaced variable is built
anew through the folding constructors, so literals put into an expression
collapse, while a subtree without any replaced variable stays exactly as it is.
A replacement takes the type of the variable it stands in for.
-/

import LoopNest.Expr.Fold

namespace LoopNest

/-- Replacements for some of the variables. -/
abbrev Substitution := Var → Option Expr

namespace Expr

/-- Whether an expression mentions a variable that a substitution replaces. -/
def affectedBy (e : Expr) (replacements : Substitution) : Bool :=
  e.anyVar fun v => (replacements v).isSome

/-- Replace the variables of an expression simultaneously. -/
def substitute (replacements : Substitution) (e : Expr) : Expr :=
  if e.affectedBy replacements then
    match e with
    | const dtype value => const dtype value
    | var v =>
      match replacements v with
      | some replacement => replacement.castTo v.dtype
      | none => var v
    | cast dtype source => (source.substitute replacements).castTo dtype
    | neg operand => (operand.substitute replacements).negate
    | not operand => (operand.substitute replacements).complement
    | binary op lhs rhs =>
      combine op (lhs.substitute replacements) (rhs.substitute replacements)
  else e

end Expr

end LoopNest
