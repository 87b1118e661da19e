/-
# Simplification under facts

Simplification works from the leaves up. The operands of a node are simplified
first, then the node itself, and last an expression whose bounds leave a single
value becomes that literal.

Arithmetic is brought to linear normal form. A quotient or remainder by a
positive literal sheds every multiple of the divisor and disappears altogether
when the rest provably lies between zero and the divisor; nested quotients are
merged. The minimum, the maximum and comparisons are decided from the bounds of
the difference of their operands, in which equal terms have cancelled.
-/

import LoopNest.Expr.Linear
import LoopNest.Facts.Bounds

namespace LoopNest.Facts

variable (facts : Facts)

/-- Replace an expression whose bounds leave one value by that literal. -/
def collapse (e : Expr) : Expr :=
  if e.isConst then e
  else
    let bound := facts.bound e
    if bound.isPoint then .literal e.dtype bound.min else e

/-- Whether an expression provably lies between zero and a divisor. -/
def withinDivisor (e : Expr) (divisor : Int) : Bool :=
  let bound := facts.bound e
  decide (0 ≤ bound.min) && decide (bound.max < divisor)

/-- The quotient of a rest by a positive divisor, or nothing when it is zero. -/
def quotientOfRest? (rest : Expr) (divisor : Int) : Option Expr :=
  if rest.isZero || facts.withinDivisor rest divisor then none
  else some (rest.floorDiv (.literal rest.dtype divisor))

/-- Divide an expression by a positive literal: multiples of the divisor are
divided exactly, and the quotient of the rest is added. -/
def divideLinear (e : Expr) (divisor : Int) : Expr :=
  let form := LinearForm.ofExpr e
  let quotient := ((form.divisiblePart divisor).divideBy divisor).toExpr
  let rest := (form.remainingPart divisor).toExpr
  let result := match facts.quotientOfRest? rest divisor with
    | some ofRest => if quotient.isZero then ofRest else quotient.add ofRest
    | none => quotient
  result.castTo e.dtype

/-- The product of a positive literal divisor and a further positive divisor, where
it is a word. -/
def mergedDivisor? (inner : Expr) (divisor : Int) : Option Int := do
  let value ← inner.value?
  if 0 < value then Word.mul? value divisor else none

/-- The quotient of an expression by a positive literal. A quotient of a quotient
is taken by the product of the divisors. -/
def simplifyDiv : Expr → Int → Expr
  | .binary .floorDiv dividend inner, divisor =>
    match mergedDivisor? inner divisor with
    | some product => simplifyDiv dividend product
    | none => facts.divideLinear (.binary .floorDiv dividend inner) divisor
  | e, divisor => facts.divideLinear e divisor

/-- The remainder of an expression by a positive literal, in which multiples of the
divisor count for nothing. -/
def simplifyMod (e : Expr) (divisor : Int) : Expr :=
  let rest := ((LinearForm.ofExpr e).remainingPart divisor).toExpr
  let result :=
    if facts.withinDivisor rest divisor then rest
    else rest.floorMod (.literal rest.dtype divisor)
  result.castTo e.dtype

/-- The bound of the difference of two expressions after cancellation. -/
def differenceBound (lhs rhs : Expr) : Bound :=
  facts.bound (lhs.sub rhs).normalize

/-- The smaller of two expressions, decided where the bounds allow it. -/
def simplifyMin (lhs rhs : Expr) : Expr :=
  if lhs = rhs then lhs
  else
    let difference := facts.differenceBound lhs rhs
    if difference.max ≤ 0 then lhs
    else if 0 ≤ difference.min then rhs
    else lhs.min rhs

/-- The larger of two expressions, decided where the bounds allow it. -/
def simplifyMax (lhs rhs : Expr) : Expr :=
  if lhs = rhs then lhs
  else
    let difference := facts.differenceBound lhs rhs
    if 0 ≤ difference.min then lhs
    else if difference.max ≤ 0 then rhs
    else lhs.max rhs

/-- The truth value of what is known to hold always or never, the former first. -/
def settle (always never : Bool) : Option Bool :=
  if always then some true else if never then some false else none

/-- What the bound of a difference says about a comparison of its operands. -/
def decideComparison (op : BinaryOp) (difference : Bound) : Option Bool :=
  let isZero := difference.isPoint && decide (difference.min = 0)
  let isNonzero := decide (0 < difference.min) || decide (difference.max < 0)
  match op with
  | .lt => settle (decide (difference.max < 0)) (decide (0 ≤ difference.min))
  | .le => settle (decide (difference.max ≤ 0)) (decide (0 < difference.min))
  | .eq => settle isZero isNonzero
  | .ne => settle isNonzero isZero
  | _ => none

/-- A comparison, decided where the bounds allow it. Truth values are not
subtracted from each other. -/
def simplifyComparison (op : BinaryOp) (lhs rhs : Expr) : Expr :=
  if lhs.dtype.isBool || rhs.dtype.isBool then .combine op lhs rhs
  else match decideComparison op (facts.differenceBound lhs rhs) with
    | some holds => .ofBool holds
    | none => .combine op lhs rhs

/-- The complement of a predicate. A comparison turns into the opposite one, and a
double complement cancels. -/
def simplifyNot : Expr → Expr
  | .binary .lt lhs rhs => facts.simplifyComparison .le rhs lhs
  | .binary .le lhs rhs => facts.simplifyComparison .lt rhs lhs
  | .binary .eq lhs rhs => facts.simplifyComparison .ne lhs rhs
  | .binary .ne lhs rhs => facts.simplifyComparison .eq lhs rhs
  | .not operand => operand
  | e => e.complement

/-- A positive literal. -/
def positiveLiteral? (e : Expr) : Option Int := do
  let value ← e.value?
  if 0 < value then some value else none

/-- Simplify a node whose operands are simplified. -/
def simplifyNode (op : BinaryOp) (lhs rhs : Expr) : Expr :=
  match op with
  | .add | .sub | .mul => (Expr.combine op lhs rhs).normalize
  | .floorDiv =>
    match positiveLiteral? rhs with
    | some divisor => facts.simplifyDiv lhs divisor
    | none => lhs.floorDiv rhs
  | .floorMod =>
    match positiveLiteral? rhs with
    | some divisor => facts.simplifyMod lhs divisor
    | none => lhs.floorMod rhs
  | .min => facts.simplifyMin lhs rhs
  | .max => facts.simplifyMax lhs rhs
  | .lt | .le | .eq | .ne => facts.simplifyComparison op lhs rhs
  | .and | .or => .combine op lhs rhs

/-- Simplify an expression under the ranges and the active constraints. -/
def simplify : Expr → Expr
  | .const dtype value => facts.collapse (.const dtype value)
  | .var v => facts.collapse (.var v)
  | .cast dtype source => facts.collapse ((simplify source).castTo dtype)
  | .neg operand => facts.collapse (simplify operand).negate.normalize
  | .not operand => facts.collapse (facts.simplifyNot (simplify operand))
  | .binary op lhs rhs => facts.collapse (facts.simplifyNode op (simplify lhs) (simplify rhs))

/-- Enter a scope in which a predicate holds. It is simplified under the facts so
far, and each of its conjuncts becomes a constraint of its own. -/
def assume (constraint : Expr) : Facts :=
  { facts with constraints := facts.constraints ++ (facts.simplify constraint).conjuncts }

end LoopNest.Facts
