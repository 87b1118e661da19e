/-
# Constant bounds

A bound is a pair of words that encloses the values of an expression. The least
and the greatest word stand for the infinities, so arithmetic on endpoints
saturates where arithmetic on values would wrap: a finite result that reaches
the end of the words becomes infinite, and an infinite operand stays infinite.

`Bound.ofOperator` carries two bounds through a binary operator. For a product
and a quotient the extreme values lie at the corners of the box that the two
operands span. A quotient is bounded only when the divisor keeps away from zero,
a remainder only when the divisor is positive.
-/

import LoopNest.Scalar.DType
import LoopNest.Expr.Operator

namespace LoopNest

namespace Endpoint

/-- The endpoint that stands for negative infinity. -/
def negInf : Int := Word.least

/-- The endpoint that stands for positive infinity. -/
def posInf : Int := Word.greatest

/-- Whether an endpoint is infinite. -/
def isInfinite (endpoint : Int) : Bool :=
  endpoint = negInf || endpoint = posInf

/-- Saturate an exact value. The range of finite endpoints is symmetric. -/
def clamp (value : Int) : Int :=
  if posInf ≤ value then posInf
  else if value ≤ -posInf then negInf
  else value

/-- The infinity on the side that the signs of two factors call for. -/
def infinityOfSigns (left right : Int) : Int :=
  if decide (left < 0) = decide (right < 0) then posInf else negInf

/-- The sum of two endpoints. An infinite operand dominates, the left one first. -/
def add (left right : Int) : Int :=
  if isInfinite left then left
  else if isInfinite right then right
  else clamp (left + right)

/-- The opposite endpoint. -/
def neg (endpoint : Int) : Int :=
  if endpoint = negInf then posInf
  else if endpoint = posInf then negInf
  else -endpoint

/-- The product of two endpoints. Zero absorbs even an infinite factor. -/
def mul (left right : Int) : Int :=
  if left = 0 || right = 0 then 0
  else if isInfinite left || isInfinite right then infinityOfSigns left right
  else clamp (left * right)

/-- The floored quotient of two endpoints with a nonzero divisor. Anything
divided by an infinity counts as zero. -/
def div (dividend divisor : Int) : Int :=
  if isInfinite divisor then 0
  else if isInfinite dividend then infinityOfSigns dividend divisor
  else (Word.floorDiv? dividend divisor).getD posInf

/-- The written form of an endpoint. -/
def render (endpoint : Int) : String :=
  if endpoint = negInf then "-inf"
  else if endpoint = posInf then "+inf"
  else toString endpoint

end Endpoint

/-- Inclusive bounds on the values of an expression. A bound whose minimum exceeds
its maximum encloses nothing. -/
structure Bound where
  min : Int
  max : Int
  deriving DecidableEq, Repr, Inhabited

namespace Bound

/-- The bound that encloses one value. -/
def point (value : Int) : Bound := ⟨value, value⟩

/-- The bound that excludes nothing. -/
def everything : Bound := ⟨Endpoint.negInf, Endpoint.posInf⟩

/-- The values that a scalar type can represent. -/
def ofDType (dtype : DType) : Bound := ⟨dtype.minValue, dtype.maxValue⟩

/-- Whether the bound encloses exactly one value. -/
def isPoint (bound : Bound) : Bool :=
  bound.min = bound.max

/-- What two bounds both enclose. -/
def intersect (left right : Bound) : Bound :=
  ⟨Max.max left.min right.min, Min.min left.max right.max⟩

/-- Whether every value of the inner bound lies in the outer one, judged by the endpoints. -/
def encloses (outer inner : Bound) : Bool :=
  decide (outer.min ≤ inner.min) && decide (inner.max ≤ outer.max)

/-- The bound of a truth value that is known to hold, known to fail, or open. -/
def ofTruth (always never : Bool) : Bound :=
  if always then point 1 else if never then point 0 else ⟨0, 1⟩

/-- The bound of the opposite value. -/
def negate (bound : Bound) : Bound :=
  ⟨Endpoint.neg bound.max, Endpoint.neg bound.min⟩

/-- The bound of the truth value of being zero. -/
def complement (bound : Bound) : Bound :=
  ofTruth (bound.min = 0 && bound.max = 0)
    (decide (0 < bound.min) || decide (bound.max < 0))

/-- The least bound that encloses an operation at the four corners of a box. -/
def corners (left right : Bound) (operation : Int → Int → Int) : Bound :=
  let lowLow := operation left.min right.min
  let lowHigh := operation left.min right.max
  let highLow := operation left.max right.min
  let highHigh := operation left.max right.max
  ⟨Min.min (Min.min lowLow lowHigh) (Min.min highLow highHigh),
    Max.max (Max.max lowLow lowHigh) (Max.max highLow highHigh)⟩

/-- The bound of a remainder by a positive divisor. A dividend that stays below
the divisor is its own remainder. -/
def remainder (dividend divisor : Bound) : Bound :=
  let greatest := Endpoint.add divisor.max (-1)
  if decide (0 ≤ dividend.min) && decide (dividend.max < divisor.min) then dividend
  else if 0 ≤ dividend.min then ⟨0, Min.min dividend.max greatest⟩
  else ⟨0, greatest⟩

/-- Whether two bounds have no value in common. -/
def disjoint (left right : Bound) : Bool :=
  decide (left.max < right.min) || decide (right.max < left.min)

/-- Whether two bounds both enclose the same single value. -/
def samePoint (left right : Bound) : Bool :=
  left.isPoint && right.isPoint && decide (left.min = right.min)

/-- The bound of a binary operator, given the bounds of its operands. -/
def ofOperator (op : BinaryOp) (left right : Bound) : Bound :=
  match op with
  | .add => ⟨Endpoint.add left.min right.min, Endpoint.add left.max right.max⟩
  | .sub =>
    ⟨Endpoint.add left.min (Endpoint.neg right.max),
      Endpoint.add left.max (Endpoint.neg right.min)⟩
  | .mul => corners left right Endpoint.mul
  | .floorDiv =>
    if decide (0 < right.min) || decide (right.max < 0) then corners left right Endpoint.div
    else everything
  | .floorMod => if 0 < right.min then remainder left right else everything
  | .min => ⟨Min.min left.min right.min, Min.min left.max right.max⟩
  | .max => ⟨Max.max left.min right.min, Max.max left.max right.max⟩
  | .lt => ofTruth (decide (left.max < right.min)) (decide (right.max ≤ left.min))
  | .le => ofTruth (decide (left.max ≤ right.min)) (decide (right.max < left.min))
  | .eq => ofTruth (samePoint left right) (disjoint left right)
  | .ne => ofTruth (disjoint left right) (samePoint left right)
  | .and =>
    ofTruth (decide (0 < left.min) && decide (0 < right.min))
      (decide (left.max = 0) || decide (right.max = 0))
  | .or =>
    ofTruth (decide (0 < left.min) || decide (0 < right.min))
      (decide (left.max = 0) && decide (right.max = 0))

/-- The written form of a bound. -/
def render (bound : Bound) : String :=
  "[" ++ Endpoint.render bound.min ++ ", " ++ Endpoint.render bound.max ++ "]"

end Bound

end LoopNest
