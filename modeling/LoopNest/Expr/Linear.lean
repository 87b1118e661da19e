/-
# Linear normal form

Sums, differences, negations and products with a literal are flattened into a
constant and a list of opaque terms, each with a coefficient; any other node is
a term of its own. Terms are told apart as trees. Rebuilding an expression from
its linear form cancels what occurs on both sides of a subtraction.

Coefficients and the constant are words and wrap. The rebuilt expression wraps
them into its type, and both steps agree with the arithmetic of that type. Splitting
a form by a divisor multiplies a quotient back, and where that product wraps the two
parts no longer add up to the form.
-/

import LoopNest.Expr.Fold

namespace LoopNest

/-- The form `constant + c₁ * t₁ + c₂ * t₂ + …` of an expression of a given type. -/
structure LinearForm where
  terms : List (Expr × Int)
  constant : Int
  dtype : DType
  deriving DecidableEq, Repr, Inhabited

namespace LinearForm

/-- Add to the coefficient of the first equal term, or append a new term. -/
def addToTerms (term : Expr) (coefficient : Int) : List (Expr × Int) → List (Expr × Int)
  | [] => [(term, coefficient)]
  | (other, known) :: rest =>
    if other = term then (other, Word.wrap (known + coefficient)) :: rest
    else (other, known) :: addToTerms term coefficient rest

/-- Add a multiple of an opaque term. -/
def addTerm (form : LinearForm) (term : Expr) (coefficient : Int) : LinearForm :=
  { form with terms := addToTerms term coefficient form.terms }

/-- Add a literal. -/
def addConstant (form : LinearForm) (value : Int) : LinearForm :=
  { form with constant := Word.wrap (form.constant + value) }

/-- Add a multiple of an expression, flattening its linear structure. -/
def accumulate : Expr → Int → LinearForm → LinearForm
  | .const _ value, scale, form => form.addConstant (Word.wrap (value * scale))
  | .neg operand, scale, form => accumulate operand (Word.wrap (-scale)) form
  | .binary .add lhs rhs, scale, form => accumulate rhs scale (accumulate lhs scale form)
  | .binary .sub lhs rhs, scale, form =>
    accumulate rhs (Word.wrap (-scale)) (accumulate lhs scale form)
  | .binary .mul lhs rhs, scale, form =>
    match rhs.value?, lhs.value? with
    | some factor, _ => accumulate lhs (Word.wrap (scale * factor)) form
    | none, some factor => accumulate rhs (Word.wrap (scale * factor)) form
    | none, none => form.addTerm (.binary .mul lhs rhs) scale
  | e, scale, form => form.addTerm e scale

/-- The linear form of an expression. -/
def ofExpr (e : Expr) : LinearForm :=
  accumulate e 1 ⟨[], 0, e.dtype⟩

/-- A multiple of a term as an expression. -/
def scaled (form : LinearForm) (term : Expr) (coefficient : Int) : Expr :=
  if coefficient = 1 then term else term.mul (.literal form.dtype coefficient)

/-- Add a positive multiple of a term to what has been rebuilt so far. -/
def plusTerm (form : LinearForm) (built : Option Expr) (entry : Expr × Int) : Option Expr :=
  let term := form.scaled entry.1 entry.2
  match built with
  | some sum => some (sum.add term)
  | none => some term

/-- Subtract the opposite of a negative multiple of a term from what has been rebuilt. -/
def minusTerm (form : LinearForm) (built : Option Expr) (entry : Expr × Int) : Option Expr :=
  let term := form.scaled entry.1 (Word.wrap (-entry.2))
  match built with
  | some sum => some (sum.sub term)
  | none => some term.negate

/-- Rebuild the expression: first the terms with positive coefficients, then those
with negative ones, then the constant. Terms whose coefficient is zero vanish. -/
def toExpr (form : LinearForm) : Expr :=
  let positive := form.terms.filter fun entry => decide (0 < entry.2)
  let negative := form.terms.filter fun entry => decide (entry.2 < 0)
  let constant := Expr.literal form.dtype form.constant
  match negative.foldl form.minusTerm (positive.foldl form.plusTerm none) with
  | some sum => sum.add constant
  | none => constant

/-- The terms whose coefficients a divisor divides, with the largest multiple of
the divisor that the constant reaches. Below a constant next to the least word
there may be no such multiple, and then the product wraps. -/
def divisiblePart (form : LinearForm) (divisor : Int) : LinearForm where
  terms := form.terms.filter fun entry => decide (entry.2.tmod divisor = 0)
  constant := Word.wrap ((Word.floorDiv? form.constant divisor).getD 0 * divisor)
  dtype := form.dtype

/-- What `divisiblePart` leaves over. Its constant lies below a positive divisor
and is not negative. -/
def remainingPart (form : LinearForm) (divisor : Int) : LinearForm where
  terms := form.terms.filter fun entry => decide (entry.2.tmod divisor ≠ 0)
  constant := Word.wrap (form.constant - (form.divisiblePart divisor).constant)
  dtype := form.dtype

/-- Divide every coefficient, rounding toward zero. This is meant for a form whose
coefficients are all multiples of the divisor. -/
def divideBy (form : LinearForm) (divisor : Int) : LinearForm where
  terms := form.terms.map fun entry => (entry.1, entry.2.tdiv divisor)
  constant := form.constant.tdiv divisor
  dtype := form.dtype

end LinearForm

/-- The expression rebuilt from its linear form. -/
def Expr.normalize (e : Expr) : Expr :=
  (LinearForm.ofExpr e).toExpr

end LoopNest
