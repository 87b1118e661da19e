/-
# Evaluation of expressions

An assignment gives some variables an integer. Evaluation works from the leaves
up and wraps every result into the type of its node, which is what compiled code
would compute. A logical operator whose left operand decides it does not look at
its right operand, so a guard protects the division behind it.

Evaluation fails at a variable without a value and at a division or remainder
that is undefined; which of several failures is reported follows from the order
of evaluation, left operand first.
-/

import LoopNest.Expr.Print

namespace LoopNest

/-- Concrete values for some of the variables. -/
abbrev Assignment := Var → Option Int

/-- Why an expression has no value under an assignment. -/
inductive EvalError
  | unbound (v : Var)
  | undefinedDivision (node : Expr)
  deriving DecidableEq, Repr

namespace EvalError

/-- The text of an evaluation error. -/
def message : EvalError → String
  | unbound v => "variable '" ++ v.name ++ "' has no concrete value"
  | undefinedDivision node => "division by zero while evaluating " ++ node.render

end EvalError

namespace Expr

/-- The value of an expression under an assignment. -/
def eval (assignment : Assignment) : Expr → Except EvalError Int
  | const dtype value => .ok (dtype.truncate value)
  | var v =>
    match assignment v with
    | some value => .ok (v.dtype.truncate value)
    | none => .error (.unbound v)
  | cast dtype source => do
    let value ← source.eval assignment
    return dtype.truncate value
  | neg operand => do
    let value ← operand.eval assignment
    return operand.dtype.truncate (-value)
  | not operand => do
    let value ← operand.eval assignment
    return BinaryOp.truth (decide (value = 0))
  | binary op lhs rhs => do
    let left ← lhs.eval assignment
    match op.decidedBy? left with
    | some decided => return decided
    | none =>
      let right ← rhs.eval assignment
      match op.compute? left right with
      | some result => return (binary op lhs rhs).dtype.truncate result
      | none => .error (.undefinedDivision (binary op lhs rhs))

/-- The value of an expression that needs no assignment. -/
def evalClosed (e : Expr) : Except EvalError Int :=
  e.eval fun _ => none

end Expr

end LoopNest
