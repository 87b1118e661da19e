/-
# Binary operators

The operators of index expressions fall into three groups. The arithmetic ones
keep the type of their operands, the comparisons and the logical ones give a
truth value. An operator is printed between its operands when it has a symbol
and as a call otherwise; its precedence decides where parentheses are needed.

`compute?` is the meaning of an operator on exact integers. It never wraps: the
caller truncates the result to the type of the node, which gives the same value
because truncation only looks at residues.
-/

import LoopNest.Word

namespace LoopNest

/-- The binary operators. Division and remainder round toward negative infinity,
so that `a = (a / b) * b + a % b` with `0 ≤ a % b < b` for every positive `b`. -/
inductive BinaryOp
  | add
  | sub
  | mul
  | floorDiv
  | floorMod
  | min
  | max
  | lt
  | le
  | eq
  | ne
  | and
  | or
  deriving DecidableEq, Repr, Inhabited

namespace BinaryOp

/-- The capitalised name of an operator. -/
def name : BinaryOp → String
  | add => "Add"
  | sub => "Sub"
  | mul => "Mul"
  | floorDiv => "FloorDiv"
  | floorMod => "FloorMod"
  | min => "Min"
  | max => "Max"
  | lt => "Lt"
  | le => "Le"
  | eq => "Eq"
  | ne => "Ne"
  | and => "And"
  | or => "Or"

/-- Whether the operator compares two integers. -/
def isComparison : BinaryOp → Bool
  | lt | le | eq | ne => true
  | _ => false

/-- Whether the operator joins two truth values. -/
def isLogical : BinaryOp → Bool
  | and | or => true
  | _ => false

/-- Whether the result is a truth value. -/
def isPredicate (op : BinaryOp) : Bool :=
  op.isComparison || op.isLogical

/-- What is written between the operands. The minimum and the maximum have no
symbol and are written as calls. -/
def symbol? : BinaryOp → Option String
  | add => some "+"
  | sub => some "-"
  | mul => some "*"
  | floorDiv => some "/"
  | floorMod => some "%"
  | lt => some "<"
  | le => some "<="
  | eq => some "=="
  | ne => some "!="
  | and => some "&&"
  | or => some "||"
  | min | max => none

/-- How tightly the operator binds its operands when it is written between them. -/
def precedence : BinaryOp → Nat
  | or => 1
  | and => 2
  | lt | le | eq | ne => 3
  | add | sub => 4
  | mul | floorDiv | floorMod => 5
  | min | max => 7

/-- A truth value as an integer. -/
def truth (holds : Bool) : Int :=
  if holds then 1 else 0

/-- The value of an operator on exact integers. Only division and remainder can
be undefined. -/
def compute? : BinaryOp → Int → Int → Option Int
  | add, a, b => some (a + b)
  | sub, a, b => some (a - b)
  | mul, a, b => some (a * b)
  | floorDiv, a, b => Word.floorDiv? a b
  | floorMod, a, b => Word.floorMod? a b
  | min, a, b => some (Min.min a b)
  | max, a, b => some (Max.max a b)
  | lt, a, b => some (truth (decide (a < b)))
  | le, a, b => some (truth (decide (a ≤ b)))
  | eq, a, b => some (truth (decide (a = b)))
  | ne, a, b => some (truth (decide (a ≠ b)))
  | and, a, b => some (truth (decide (a ≠ 0) && decide (b ≠ 0)))
  | or, a, b => some (truth (decide (a ≠ 0) || decide (b ≠ 0)))

/-- The value of a logical operator whose left operand already decides it. The
right operand is then not evaluated, so it may guard a division. -/
def decidedBy? : BinaryOp → Int → Option Int
  | and, a => if a = 0 then some 0 else none
  | or, a => if a ≠ 0 then some 1 else none
  | _, _ => none

end BinaryOp

end LoopNest
