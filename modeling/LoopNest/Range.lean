/-
# Half-open ranges

A range is given by its minimum and its extent and holds the integers from the
minimum up to, but not including, their sum. Both may be symbolic. The type of a
range is the type of its extent.
-/

import LoopNest.Expr.Fold
import LoopNest.Expr.Print

namespace LoopNest

/-- The integers `min, min + 1, …` of which there are `extent`. -/
structure Range where
  min : Expr
  extent : Expr
  deriving DecidableEq, Repr, Inhabited

namespace Range

/-- The range that starts at zero and has the given extent. -/
def ofExtent (extent : Expr) : Range :=
  ⟨.zero extent.dtype, extent⟩

/-- The range that starts at zero and has a literal extent. -/
def constant (dtype : DType) (extent : Int) : Range :=
  ofExtent (.literal dtype extent)

/-- The first integer past the range. -/
def stop (range : Range) : Expr :=
  range.min.add range.extent

/-- The last integer of the range, when there is one. -/
def last (range : Range) : Expr :=
  range.stop.sub (.one range.extent.dtype)

/-- The scalar type of the range. -/
def dtype (range : Range) : DType :=
  range.extent.dtype

/-- The written form of a range. -/
def render (range : Range) : String :=
  "range(min=" ++ range.min.render ++ ", ext=" ++ range.extent.render ++ ")"

end Range

end LoopNest
