/-
# Iteration variables

A loop nest is described by its iteration variables: the loops one started with
and those derived from them. An iteration variable is referred to by its
position in the stage that owns it; positions are given out in order and never
reused. It may declare the range it is meant to run over. A variable without a
declared range gets one by inference.
-/

import LoopNest.Range

namespace LoopNest

/-- The position of an iteration variable in its stage. -/
structure IterId where
  index : Nat
  deriving DecidableEq, Repr, Inhabited

namespace IterId

/-- How a position is written where no variable has it. -/
def render (id : IterId) : String :=
  "iv" ++ toString id.index

end IterId

/-- The role of an iteration variable in the loop nest. -/
inductive IterKind
  /-- A loop whose iterations are independent. -/
  | parallel
  /-- A loop that accumulates. -/
  | reduction
  /-- A coordinate of the hardware thread grid. -/
  | thread
  /-- A loop that is never guarded. -/
  | unguarded
  deriving DecidableEq, Repr, Inhabited

namespace IterKind

/-- The written form of a role. -/
def label : IterKind → String
  | parallel => "data_par"
  | reduction => "reduce"
  | thread => "thread_index"
  | unguarded => "opaque"

/-- Whether indices of this role are checked against their extents at all. -/
def isGuarded : IterKind → Bool
  | parallel | reduction => true
  | thread | unguarded => false

/-- The role of a loop that runs through two others. Loops of different roles
make a parallel one. -/
def fuse (outer inner : IterKind) : IterKind :=
  if outer = inner then outer else parallel

end IterKind

/-- An iteration variable: its symbol, the range it declares and its role. -/
structure IterVar where
  var : Var
  declared : Option Range
  kind : IterKind
  deriving DecidableEq, Repr, Inhabited

namespace IterVar

/-- The name of the variable. -/
def name (iv : IterVar) : String := iv.var.name

/-- The scalar type of the variable. -/
def dtype (iv : IterVar) : DType := iv.var.dtype

/-- The variable as an expression. -/
def expr (iv : IterVar) : Expr := .var iv.var

end IterVar

end LoopNest
