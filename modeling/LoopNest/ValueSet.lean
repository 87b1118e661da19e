/-
# Symbolic sets of values

A value set over-approximates the values an expression takes. It is empty or a
closed interval whose endpoints are expressions; a missing endpoint means that
the interval is unbounded on that side. Whether a set is a single point is
decided by comparing its endpoints as trees.
-/

import LoopNest.Facts.Prove

namespace LoopNest

/-- Nothing, or a closed interval with symbolic, possibly infinite ends. -/
inductive ValueSet
  | empty
  | interval (min max : Option Expr)
  deriving DecidableEq, Repr, Inhabited

namespace ValueSet

/-- The set of all integers. -/
def everything : ValueSet := interval none none

/-- The set of one value. -/
def point (value : Expr) : ValueSet := interval (some value) (some value)

/-- The interval between two expressions, both included. -/
def between (min max : Expr) : ValueSet := interval (some min) (some max)

/-- The values of a range. -/
def ofRange (range : Range) : ValueSet := between range.min range.last

/-- The two truth values, in the type of a given expression. -/
def ofPredicate (e : Expr) : ValueSet := between (.zero e.dtype) (.one e.dtype)

/-- The lower end, where there is one. -/
def min? : ValueSet → Option Expr
  | interval min _ => min
  | empty => none

/-- The upper end, where there is one. -/
def max? : ValueSet → Option Expr
  | interval _ max => max
  | empty => none

/-- Whether the set has no value at all. -/
def isEmpty : ValueSet → Bool
  | empty => true
  | interval _ _ => false

/-- The single value of a set whose ends are the same expression. -/
def point? : ValueSet → Option Expr
  | interval (some min) (some max) => if min = max then some min else none
  | _ => none

/-- Whether both ends are the same expression. -/
def isPoint (set : ValueSet) : Bool :=
  set.point?.isSome

/-- Apply a function to both ends. -/
def mapEnds (f : Expr → Expr) : ValueSet → ValueSet
  | interval min max => interval (min.map f) (max.map f)
  | empty => empty

/-- Whether the set is provably the whole of a range. -/
def fills (set : ValueSet) (range : Range) (facts : Facts) : Bool :=
  match set.min?, set.max? with
  | some min, some max =>
    (facts.simplify (range.min.sub min)).isZero && (facts.simplify (range.last.sub max)).isZero
  | _, _ => false

/-- The range with the values of a set, unless an end is missing. -/
def toRange? (set : ValueSet) (facts : Facts) : Option Range := do
  let min ← set.min?
  let max ← set.max?
  return ⟨min, facts.simplify ((max.sub min).add (.one max.dtype))⟩

/-- The written form of a lower end. -/
def renderMin : Option Expr → String
  | some min => "[" ++ min.render ++ ", "
  | none => "(-inf, "

/-- The written form of an upper end. -/
def renderMax : Option Expr → String
  | some max => max.render ++ "]"
  | none => "+inf)"

/-- The written form of a set. -/
def render : ValueSet → String
  | empty => "\x7b\x7d"
  | interval min max => renderMin min ++ renderMax max

end ValueSet

end LoopNest
