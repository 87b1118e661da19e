/-
# Folding constructors

Expressions are built through constructors that do the light folding every user
of index arithmetic expects. Operands of different types are first brought to a
common type. Then literals are computed, neutral operands disappear, and an
offset is kept non-negative, so that `x + (-1)` is stored as `x - 1`. Anything
that needs to know about ranges is left to the analysis.

A literal adopts the type of a symbolic partner, so `i * 32` stays in the type
of `i`. In all other cases both operands are cast to the type they meet in.
-/

import LoopNest.Scalar.Promotion
import LoopNest.Expr.Basic

namespace LoopNest.Expr

/-- A literal, wrapped into its type. -/
def literal (dtype : DType) (value : Int) : Expr :=
  const dtype (dtype.truncate value)

/-- The literal zero of a type. -/
def zero (dtype : DType) : Expr :=
  literal dtype 0

/-- The literal one of a type. -/
def one (dtype : DType) : Expr :=
  literal dtype 1

/-- A truth value. -/
def ofBool (holds : Bool) : Expr :=
  literal .bool (BinaryOp.truth holds)

/-- View an expression at another type. Nothing happens when it has that type
already, and a literal is wrapped at once. -/
def castTo (e : Expr) (dtype : DType) : Expr :=
  if e.dtype = dtype then e
  else match e.value? with
    | some value => literal dtype value
    | none => cast dtype e

/-- A viewed expression has the type it is viewed at. -/
@[simp] theorem dtype_castTo (e : Expr) (dtype : DType) : (e.castTo dtype).dtype = dtype := by
  unfold castTo
  split
  · assumption
  · split <;> rfl

/-- The opposite of an expression. The opposite of the least word is not a word,
so that literal stays under an explicit negation. -/
def negate (e : Expr) : Expr :=
  match e.value?.bind Word.negate? with
  | some opposite => literal e.dtype opposite
  | none => neg e

/-- The truth value of an expression being zero. -/
def complement (e : Expr) : Expr :=
  match e.value? with
  | some value => ofBool (decide (value = 0))
  | none => not e

/-- Bring two operands to a common type. -/
def promote (lhs rhs : Expr) : Expr × Expr :=
  if lhs.dtype = rhs.dtype then (lhs, rhs)
  else match lhs.isConst, rhs.isConst with
    | true, false => (lhs.castTo rhs.dtype, rhs)
    | false, true => (lhs, rhs.castTo lhs.dtype)
    | _, _ =>
      let common := lhs.dtype.join rhs.dtype
      (lhs.castTo common, rhs.castTo common)

/-- The type of a node over operands that already share the type `operand`. -/
def resultType (op : BinaryOp) (operand : DType) : DType :=
  if op.isPredicate then .bool else operand

/-- The literal that two literal operands compute to, where that is defined. -/
def foldLiterals? (op : BinaryOp) (lhs rhs : Expr) : Option Expr := do
  let result ← op.compute? (← lhs.value?) (← rhs.value?)
  return literal (resultType op lhs.dtype) result

/-- The conjunction of a known and another operand. -/
def foldAnd (known : Int) (other : Expr) : Expr :=
  if known = 0 then ofBool false else other

/-- The disjunction of a known and another operand. -/
def foldOr (known : Int) (other : Expr) : Expr :=
  if known = 0 then other else ofBool true

/-- The result of an operator one of whose operands is neutral or absorbing. -/
def foldNeutral? : BinaryOp → Expr → Expr → Option Expr
  | .add, lhs, rhs =>
    if rhs.isZero then some lhs else if lhs.isZero then some rhs else none
  | .sub, lhs, rhs => if rhs.isZero then some lhs else none
  | .mul, lhs, rhs =>
    if rhs.isOne then some lhs
    else if lhs.isOne then some rhs
    else if lhs.isZero || rhs.isZero then some (zero lhs.dtype)
    else none
  | .floorDiv, lhs, rhs => if rhs.isOne then some lhs else none
  | .floorMod, lhs, rhs => if rhs.isOne then some (zero lhs.dtype) else none
  | .and, lhs, rhs =>
    match lhs.value?, rhs.value? with
    | some known, _ => some (foldAnd known rhs)
    | none, some known => some (foldAnd known lhs)
    | none, none => none
  | .or, lhs, rhs =>
    match lhs.value?, rhs.value? with
    | some known, _ => some (foldOr known rhs)
    | none, some known => some (foldOr known lhs)
    | none, none => none
  | _, _, _ => none

/-- The opposite of a negative literal, where it is a word. -/
def oppositeOffset? (e : Expr) : Option Int := do
  let value ← e.value?
  if value < 0 then Word.negate? value else none

/-- A node whose negative offset, if it has one, is turned around. -/
def keepOffsetPositive (op : BinaryOp) (lhs rhs : Expr) : Expr :=
  match op, oppositeOffset? rhs with
  | .add, some offset => binary .sub lhs (literal lhs.dtype offset)
  | .sub, some offset => binary .add lhs (literal lhs.dtype offset)
  | op, _ => binary op lhs rhs

/-- Fold a node whose operands share their type. -/
def foldNode (op : BinaryOp) (lhs rhs : Expr) : Expr :=
  match foldLiterals? op lhs rhs with
  | some folded => folded
  | none =>
    match foldNeutral? op lhs rhs with
    | some folded => folded
    | none => keepOffsetPositive op lhs rhs

/-- Join two expressions by an operator, promoting the operands and folding what
needs no knowledge about the variables. -/
def combine (op : BinaryOp) (lhs rhs : Expr) : Expr :=
  let operands := promote lhs rhs
  foldNode op operands.1 operands.2

/-- The sum of two expressions. -/
def add (lhs rhs : Expr) : Expr := combine .add lhs rhs

/-- The difference of two expressions. -/
def sub (lhs rhs : Expr) : Expr := combine .sub lhs rhs

/-- The product of two expressions. -/
def mul (lhs rhs : Expr) : Expr := combine .mul lhs rhs

/-- The quotient of two expressions, rounded toward negative infinity. -/
def floorDiv (lhs rhs : Expr) : Expr := combine .floorDiv lhs rhs

/-- The remainder that goes with `floorDiv`. -/
def floorMod (lhs rhs : Expr) : Expr := combine .floorMod lhs rhs

/-- The smaller of two expressions. -/
def min (lhs rhs : Expr) : Expr := combine .min lhs rhs

/-- The larger of two expressions. -/
def max (lhs rhs : Expr) : Expr := combine .max lhs rhs

/-- The predicate that the left expression is less than the right one. -/
def lt (lhs rhs : Expr) : Expr := combine .lt lhs rhs

/-- The predicate that the left expression is at most the right one. -/
def le (lhs rhs : Expr) : Expr := combine .le lhs rhs

/-- The predicate that two expressions are equal. -/
def eq (lhs rhs : Expr) : Expr := combine .eq lhs rhs

/-- The predicate that two expressions differ. -/
def ne (lhs rhs : Expr) : Expr := combine .ne lhs rhs

/-- The conjunction of two expressions. -/
def and (lhs rhs : Expr) : Expr := combine .and lhs rhs

/-- The disjunction of two expressions. -/
def or (lhs rhs : Expr) : Expr := combine .or lhs rhs

/-- The predicate that the left expression exceeds the right one, stored with the
operands exchanged. -/
def gt (lhs rhs : Expr) : Expr := rhs.lt lhs

/-- The predicate that the left expression is at least the right one, stored with
the operands exchanged. -/
def ge (lhs rhs : Expr) : Expr := rhs.le lhs

/-- Join an expression and an integer, which takes the type of the expression. -/
def combineInt (op : BinaryOp) (lhs : Expr) (rhs : Int) : Expr :=
  combine op lhs (literal lhs.dtype rhs)

end LoopNest.Expr
