/-
# Written form of expressions

Expressions are written with as few parentheses as their operators allow, as in
`i.outer * 32 + i.inner < 100`. An operand is put in parentheses when it binds
less tightly than the operator around it; since operators associate to the left,
a right operand also is when it binds equally tightly. Literals, variables,
casts and calls are atoms and never need parentheses.
-/

import LoopNest.Expr.Basic

namespace LoopNest.Expr

/-- The precedence of what needs no parentheses anywhere. -/
def atomPrecedence : Nat := 10

/-- The precedence of a negation or complement. -/
def unaryPrecedence : Nat := 6

/-- How tightly the outermost node of an expression binds. -/
def precedence : Expr → Nat
  | const _ _ | var _ | cast _ _ => atomPrecedence
  | neg _ | not _ => unaryPrecedence
  | binary op _ _ => if op.symbol?.isNone then atomPrecedence else op.precedence

/-- A literal: a truth value by its word, a number in decimal. -/
def literalText (dtype : DType) (value : Int) : String :=
  if dtype.isBool then (if value ≠ 0 then "true" else "false") else toString value

/-- Put a written operand in parentheses where they are needed. -/
def parenthesize (needed : Bool) (text : String) : String :=
  if needed then "(" ++ text ++ ")" else text

/-- The written form of an expression. -/
def render : Expr → String
  | const dtype value => literalText dtype value
  | var v => v.name
  | cast dtype source => dtype.name ++ "(" ++ source.render ++ ")"
  | neg operand =>
    "-" ++ parenthesize (decide (operand.precedence < atomPrecedence)) operand.render
  | not operand =>
    "!" ++ parenthesize (decide (operand.precedence < atomPrecedence)) operand.render
  | binary op lhs rhs =>
    match op.symbol? with
    | none => op.name.toLower ++ "(" ++ lhs.render ++ ", " ++ rhs.render ++ ")"
    | some symbol =>
      parenthesize (decide (lhs.precedence < op.precedence)) lhs.render
        ++ " " ++ symbol ++ " "
        ++ parenthesize (decide (rhs.precedence ≤ op.precedence)) rhs.render

instance : ToString Expr := ⟨render⟩

end LoopNest.Expr
