/-
# Bounds from facts

The bound of an expression follows its structure once every variable has a bound.
A variable is bounded by its type, by its range and by every constraint that
compares it with something else. Ranges and constraints mention further
variables, possibly in a cycle, so they are followed only to a fixed depth;
beyond it a variable is bounded by its type alone.

Every node is also bounded by its own type. A cast keeps the bound of its source
when the target type can hold all of it, and otherwise wraps and is bounded by
the target type.
-/

import LoopNest.Bound
import LoopNest.Facts.Basic

namespace LoopNest

namespace Bound

/-- The bound of a cast value. -/
def ofCast (dtype : DType) (source : Bound) : Bound :=
  if (ofDType dtype).encloses source then source else ofDType dtype

/-- The bound of an expression whose variables are bounded by `ofVar`. A literal
is its own bound; everything else is also bounded by its type. -/
def ofExpr (ofVar : Var → Bound) : Expr → Bound
  | .const _ value => point value
  | .var v => (ofVar v).intersect (ofDType v.dtype)
  | .cast dtype source => (ofCast dtype (ofExpr ofVar source)).intersect (ofDType dtype)
  | .neg operand => (ofExpr ofVar operand).negate.intersect (ofDType operand.dtype)
  | .not operand => (ofExpr ofVar operand).complement.intersect (ofDType .bool)
  | .binary op lhs rhs =>
    (ofOperator op (ofExpr ofVar lhs) (ofExpr ofVar rhs)).intersect
      (ofDType (Expr.binary op lhs rhs).dtype)

/-- The bound of the members of a range, given bounds of its first and last one. -/
def ofRange (ofEnd : Expr → Bound) (range : Range) : Bound :=
  ⟨(ofEnd range.min).min, (ofEnd range.last).max⟩

/-- The bound that excludes values above an endpoint. -/
def atMost (endpoint : Int) : Bound := { everything with max := endpoint }

/-- The bound that excludes values below an endpoint. -/
def atLeast (endpoint : Int) : Bound := { everything with min := endpoint }

/-- What two optional bounds say together. -/
def both? : Option Bound → Option Bound → Option Bound
  | some left, some right => some (left.intersect right)
  | some left, none => some left
  | none, right => right

/-- The bound that a constraint puts on a variable, if it compares the bare
variable with an expression that does not mention it. The other side is bounded
by `ofOther`. -/
def implied? (ofOther : Expr → Bound) (v : Var) : Expr → Option Bound
  | .binary .and lhs rhs => both? (implied? ofOther v lhs) (implied? ofOther v rhs)
  | .binary .lt lhs rhs =>
    if lhs.var? = some v && !rhs.mentions v then
      some (atMost (Endpoint.add (ofOther rhs).max (-1)))
    else if rhs.var? = some v && !lhs.mentions v then
      some (atLeast (Endpoint.add (ofOther lhs).min 1))
    else none
  | .binary .le lhs rhs =>
    if lhs.var? = some v && !rhs.mentions v then some (atMost (ofOther rhs).max)
    else if rhs.var? = some v && !lhs.mentions v then some (atLeast (ofOther lhs).min)
    else none
  | .binary .eq lhs rhs =>
    if lhs.var? = some v && !rhs.mentions v then some (ofOther rhs)
    else if rhs.var? = some v && !lhs.mentions v then some (ofOther lhs)
    else none
  | _ => none

/-- Tighten a bound by one that may be missing. -/
def tighten (bound : Bound) : Option Bound → Bound
  | some other => bound.intersect other
  | none => bound

end Bound

namespace Facts

/-- How deep ranges and constraints are followed through the variables they mention. -/
def followDepth : Nat := 8

/-- The bound of a variable when ranges and constraints may be followed `depth`
more times. -/
def varBound (facts : Facts) : Nat → Var → Bound
  | 0, v => .ofDType v.dtype
  | depth + 1, v =>
    let ofExpr := Bound.ofExpr (facts.varBound depth)
    let ranged := (Bound.ofDType v.dtype).tighten ((facts.ranges v).map (Bound.ofRange ofExpr))
    facts.constraints.foldl
      (fun bound constraint => bound.tighten (Bound.implied? ofExpr v constraint)) ranged

/-- Constant bounds on the values an expression can take. -/
def bound (facts : Facts) (e : Expr) : Bound :=
  .ofExpr (facts.varBound followDepth) e

end Facts

end LoopNest
