/-
# Index expressions

An expression describes a loop index, an extent or a guard in terms of symbolic
variables. It is a finite tree. Every node has a scalar type, which is read off
the tree: a literal, a variable and a cast carry theirs, a negation and an
arithmetic node take the type of their first operand, and everything that
answers a question is `bool`.

Equality of expressions is equality of trees. Two variables with the same name
are different variables, because a variable is told apart by its identity.
-/

import LoopNest.Scalar.DType
import LoopNest.Expr.Operator

namespace LoopNest

/-- What tells variables apart: either a parameter that the user of the library
declares, or the iteration variable made at some position of a stage. -/
inductive VarId
  | parameter (number : Nat)
  | iteration (position : Nat)
  deriving DecidableEq, Repr, Inhabited

/-- A symbolic integer: a loop index, a thread index or a shape parameter. -/
structure Var where
  id : VarId
  name : String
  dtype : DType
  deriving DecidableEq, Repr, Inhabited

/-- An index expression. These are the bare nodes; the constructors that fold
literals and promote operands are built on top of them. -/
inductive Expr
  | const (dtype : DType) (value : Int)
  | var (v : Var)
  | cast (dtype : DType) (source : Expr)
  | neg (operand : Expr)
  | not (operand : Expr)
  | binary (op : BinaryOp) (lhs rhs : Expr)
  deriving DecidableEq, Repr, Inhabited

namespace Expr

/-- The scalar type of the value an expression denotes. -/
def dtype : Expr → DType
  | const dtype _ => dtype
  | var v => v.dtype
  | cast dtype _ => dtype
  | neg operand => operand.dtype
  | not _ => .bool
  | binary op lhs _ => if op.isPredicate then .bool else lhs.dtype

/-- The value of a literal. Expressions that merely evaluate to a constant have none. -/
def value? : Expr → Option Int
  | const _ value => some value
  | _ => none

/-- Whether the expression is a literal. -/
def isConst (e : Expr) : Bool :=
  e.value?.isSome

/-- Whether the expression is the literal zero, or `false`. -/
def isZero (e : Expr) : Bool :=
  e.value? = some 0

/-- Whether the expression is the literal one, or `true`. -/
def isOne (e : Expr) : Bool :=
  e.value? = some 1

/-- The variable that an expression consists of, if it is nothing else. -/
def var? : Expr → Option Var
  | var v => some v
  | _ => none

/-- The operands of a node, in the order they are evaluated. -/
def children : Expr → List Expr
  | const _ _ | var _ => []
  | cast _ source => [source]
  | neg operand | not operand => [operand]
  | binary _ lhs rhs => [lhs, rhs]

/-- Extend a list of variables by those of an expression that it lacks. -/
def collectVars : Expr → List Var → List Var
  | const _ _, found => found
  | var v, found => if v ∈ found then found else found ++ [v]
  | cast _ source, found => source.collectVars found
  | neg operand, found | not operand, found => operand.collectVars found
  | binary _ lhs rhs, found => rhs.collectVars (lhs.collectVars found)

/-- The variables of an expression without repetition, in the order in which they
first occur. -/
def vars (e : Expr) : List Var :=
  e.collectVars []

/-- Whether some variable of the expression satisfies a test. -/
def anyVar (test : Var → Bool) : Expr → Bool
  | const _ _ => false
  | var v => test v
  | cast _ source => source.anyVar test
  | neg operand | not operand => operand.anyVar test
  | binary _ lhs rhs => lhs.anyVar test || rhs.anyVar test

/-- Whether a variable occurs in the expression. -/
def mentions (e : Expr) (v : Var) : Bool :=
  e.anyVar (· = v)

end Expr

end LoopNest
