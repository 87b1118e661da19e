/-
# Values of an expression over sets

When each variable ranges over a set, an expression takes values in a set that is
found by interval arithmetic. A variable without a set stands for itself. Two
single points combine to the point of the combined expressions, so an expression
without any set keeps its exact form.

Products and quotients move the ends of an interval monotonically when the other
operand is a point of known sign; a negative one exchanges the ends. A remainder
by a positive point lies between zero and the point, and an interval that
provably lies there already is kept. What cannot be followed becomes everything.
-/

import LoopNest.ValueSet

namespace LoopNest

/-- Sets for some of the variables. -/
abbrev Domains := Var → Option ValueSet

namespace Domains

/-- No variable has a set. -/
def empty : Domains := fun _ => none

/-- Give a variable a set, in place of any it had. -/
def insert (domains : Domains) (v : Var) (set : ValueSet) : Domains :=
  fun other => if other = v then some set else domains other

end Domains

namespace ValueSet

/-- Combine two ends, both of which the result needs. -/
def bothEnds (f : Expr → Expr → Expr) (left right : Option Expr) : Option Expr := do
  return f (← left) (← right)

/-- Combine two ends of which one suffices. -/
def eitherEnd (f : Expr → Expr → Expr) : Option Expr → Option Expr → Option Expr
  | some left, some right => some (f left right)
  | some left, none => some left
  | none, right => right

/-- Apply a function that is increasing when `increasing` holds and decreasing
otherwise; a decreasing one exchanges the ends. -/
def moveEnds (set : ValueSet) (increasing : Bool) (f : Expr → Expr) : ValueSet :=
  let low := set.min?.map f
  let high := set.max?.map f
  if increasing then interval low high else interval high low

/-- The set of opposite values. -/
def negate : ValueSet → ValueSet
  | interval min max => interval (max.map Expr.negate) (min.map Expr.negate)
  | empty => empty

end ValueSet

namespace Facts

variable (facts : Facts)

/-- The sign of an expression, where it can be proved: whether it is positive or
negative. -/
def isPositive? (e : Expr) : Option Bool :=
  let zero := Expr.zero e.dtype
  if facts.proves (e.gt zero) then some true
  else if facts.proves (e.lt zero) then some false
  else none

/-- The single value of a set together with its sign, where both are known. -/
def signedPoint? (set : ValueSet) : Option (Expr × Bool) := do
  let point ← set.point?
  return (point, ← facts.isPositive? point)

/-- The remainders of a set by a positive divisor, with `zero` the zero of their type. -/
def remaindersBy (set : ValueSet) (divisor zero : Expr) : ValueSet :=
  let whole := ValueSet.between zero (divisor.sub (.one divisor.dtype))
  match set.min?, set.max? with
  | some min, some max =>
    if facts.proves (min.ge zero) && facts.proves (max.lt divisor) then set else whole
  | _, _ => whole

/-- The values of a product. -/
def productValues (left right : ValueSet) : ValueSet :=
  match facts.signedPoint? right, facts.signedPoint? left with
  | some (factor, positive), _ => left.moveEnds positive fun e => e.mul factor
  | none, some (factor, positive) => right.moveEnds positive fun e => factor.mul e
  | none, none => .everything

/-- The values of a binary node, given nonempty sets for its operands that are not
both points. -/
def binaryValues (op : BinaryOp) (node : Expr) (left right : ValueSet) : ValueSet :=
  match op with
  | .add =>
    .interval (ValueSet.bothEnds Expr.add left.min? right.min?)
      (ValueSet.bothEnds Expr.add left.max? right.max?)
  | .sub =>
    .interval (ValueSet.bothEnds Expr.sub left.min? right.max?)
      (ValueSet.bothEnds Expr.sub left.max? right.min?)
  | .mul => facts.productValues left right
  | .floorDiv =>
    match facts.signedPoint? right with
    | some (divisor, positive) => left.moveEnds positive fun e => e.floorDiv divisor
    | none => .everything
  | .floorMod =>
    match facts.signedPoint? right with
    | some (divisor, true) => facts.remaindersBy left divisor (.zero node.dtype)
    | _ => .everything
  | .min =>
    .interval (ValueSet.bothEnds Expr.min left.min? right.min?)
      (ValueSet.eitherEnd Expr.min left.max? right.max?)
  | .max =>
    .interval (ValueSet.eitherEnd Expr.max left.min? right.min?)
      (ValueSet.bothEnds Expr.max left.max? right.max?)
  | _ => .ofPredicate node

/-- The values of an expression over sets for its variables, before the ends are
simplified. -/
def rawValues (domains : Domains) : Expr → ValueSet
  | .const dtype value => .point (.const dtype value)
  | .var v => (domains v).getD (.point (.var v))
  | .cast dtype source => (rawValues domains source).mapEnds fun e => e.castTo dtype
  | .neg operand => (rawValues domains operand).negate
  | .not operand =>
    match (rawValues domains operand).point? with
    | some point => .point point.complement
    | none => .ofPredicate (.not operand)
  | .binary op lhs rhs =>
    let left := rawValues domains lhs
    let right := rawValues domains rhs
    if left.isEmpty || right.isEmpty then .empty
    else match left.point?, right.point? with
      | some first, some second => .point (.combine op first second)
      | _, _ => facts.binaryValues op (.binary op lhs rhs) left right

/-- The values an expression can take when each variable ranges over its set. -/
def values (e : Expr) (domains : Domains) : ValueSet :=
  (facts.rawValues domains e).mapEnds facts.simplify

end Facts

end LoopNest
