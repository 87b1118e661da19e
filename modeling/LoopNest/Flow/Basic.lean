/-
# Flow along relations

Information moves along the relations of a stage in two directions: down, in the
order in which the relations were applied, from the roots to the leaves, or up,
in the opposite order. A pass folds one step per relation over its state.

A pass that fails has still written what it learned before. `Halt` pairs the
error with that state. Most steps write only when all they read is there, so they
fail without a trace of their own; `atomically` turns such a step into one that
keeps the state it was given.
-/

import LoopNest.Stage.Basic

namespace LoopNest

/-- The end of a pass that failed: why, and what had been written by then. -/
structure Halt (σ : Type) where
  error : StageError
  state : σ

namespace Halt

variable {σ α : Type}

/-- Fail with a state in hand. -/
def keeping (state : σ) (result : Except StageError α) : Except (Halt σ) α :=
  result.mapError fun error => ⟨error, state⟩

/-- Lift a step that writes nothing when it fails. -/
def atomically (step : σ → Relation → Except StageError σ) (state : σ)
    (relation : Relation) : Except (Halt σ) σ :=
  keeping state (step state relation)

end Halt

namespace Stage

variable {σ α : Type} (stage : Stage)

/-- Fold a step over the relations in the order in which they were applied. -/
def flowDown (step : σ → Relation → Except (Halt σ) σ) (state : σ) : Except (Halt σ) σ :=
  stage.relations.foldlM step state

/-- Fold a step over the relations in the opposite order. -/
def flowUp (step : σ → Relation → Except (Halt σ) σ) (state : σ) : Except (Halt σ) σ :=
  stage.relations.reverse.foldlM step state

/-- The error of a pass that misses the value of a variable. -/
def missing (pass : PassName) (id : IterId) : StageError :=
  .missingBinding pass (stage.ref id)

/-- Read a value that a pass cannot do without. -/
def require (pass : PassName) (state : IterMap α) (id : IterId) : Except StageError α :=
  match state.get? id with
  | some value => .ok value
  | none => .error (stage.missing pass id)

/-- Read a value; when it is missing a lenient pass goes on without it. -/
def read? (pass : PassName) (lenient : Bool) (state : IterMap α) (id : IterId) :
    Except StageError (Option α) :=
  match state.get? id with
  | some value => .ok (some value)
  | none => if lenient then .ok none else .error (stage.missing pass id)

/-- Read two values; when one is missing a lenient pass goes on without either,
and any other reports the first that is missing. -/
def readBoth? (pass : PassName) (lenient : Bool) (state : IterMap α) (first second : IterId) :
    Except StageError (Option (α × α)) :=
  match state.get? first, state.get? second with
  | some left, some right => .ok (some (left, right))
  | none, _ => if lenient then .ok none else .error (stage.missing pass first)
  | some _, none => if lenient then .ok none else .error (stage.missing pass second)

end Stage

/-- Move an index by the minimum of its range. A literal zero leaves it as it is. -/
def Expr.offsetBy (e min : Expr) : Expr :=
  if min.isZero then e else e.add min

end LoopNest
