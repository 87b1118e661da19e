/-
# Promotion between scalar types

Operands of different types meet in the first type that both promote to. A type
promotes to every type that is meant to hold its values: `bool` to all, `index`
only to itself and everything to `index`; between the other integer types a
signed type promotes to the signed types at least as wide, an unsigned type to
the unsigned types at least as wide and to the signed types strictly wider.

`canCastSafely` asks a different question, whether a cast loses no value. It
looks at widths alone, so it relates `int64` and `index` in both directions.
-/

import LoopNest.Scalar.DType

namespace LoopNest.DType

/-- Whether operands of type `source` may be computed with at type `target`. -/
def promotesTo : DType → DType → Bool
  | _, index => true
  | index, _ => false
  | bool, _ => true
  | _, bool => false
  | source, target =>
    match source.isUnsigned, target.isUnsigned with
    | false, true => false
    | true, false => decide (source.bytes < target.bytes)
    | _, _ => decide (source.bytes ≤ target.bytes)

/-- The first type that all given types promote to. Everything promotes to
`index`, so only the empty list has none. -/
def leastUpper : List DType → Option DType
  | [] => none
  | dtypes => all.find? fun target => dtypes.all fun source => source.promotesTo target

/-- The type in which two operands meet. -/
def join (left right : DType) : DType :=
  (leastUpper [left, right]).getD index

/-- Whether a cast keeps every value of `source`. -/
def canCastSafely (source target : DType) : Bool :=
  if source = target || source.isBool then
    true
  else
    match source.isUnsigned, target.isUnsigned with
    | true, _ => decide (source.bytes < target.bytes)
    | false, false => !target.isBool && decide (source.bytes ≤ target.bytes)
    | false, true => false

end LoopNest.DType
