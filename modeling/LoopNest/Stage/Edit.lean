/-
# Editing a stage in place

A schedule is written by editing one stage over and over. Each operation reads what it
needs, then writes the iteration variables, the leaves and the relation one after the
other. An edit that fails keeps whatever it had written by then, so nothing here says by
itself that a failing operation has no effect; it depends on the order of the steps.

A command is an operation together with its arguments, which may be anything: positions
that the stage does not have, loops that were transformed already, or two loops that are
not adjacent. The writing of a schedule is a list of commands. A command that fails
reports its error, and the next one is carried out all the same.
-/

import LoopNest.Stage.Schedule

namespace LoopNest

/-- A change to a stage in place. Where it fails the stage stays as far as it was written. -/
abbrev Edit (α : Type) := EStateM StageError Stage α

namespace Edit

variable {α : Type}

/-- Ask the stage as it stands. The question may fail. -/
def ask (question : Stage → Except StageError α) : Edit α := do
  match question (← get) with
  | .ok answer => return answer
  | .error error => throw error

/-- Split a leaf into an outer and an inner loop. -/
def splitBy (parent : IterId) (size : SplitSize) : Edit (IterId × IterId) := do
  let position ← ask (·.leafPosition parent)
  let iv ← ask (·.iterVar parent)
  let outer ← modifyGet (·.addDerived (iv.name ++ ".outer") iv.dtype iv.kind)
  let inner ← modifyGet (·.addDerived (iv.name ++ ".inner") iv.dtype iv.kind)
  modify (·.replaceLeaves position 1 [outer, inner])
  modify (·.pushRelation (.split parent outer inner size))
  return (outer, inner)

/-- Fuse two leaves of which the second follows the first. -/
def fuse (outer inner : IterId) : Edit IterId := do
  let position ← ask (·.leafPosition outer)
  let _ ← ask (·.leafPosition inner)
  let stage ← get
  if stage.leaves[position + 1]? = some inner then
    let outerVar ← ask (·.iterVar outer)
    let innerVar ← ask (·.iterVar inner)
    let fused ← modifyGet (·.addDerived (outerVar.name ++ "." ++ innerVar.name ++ ".fused")
      (outerVar.dtype.join innerVar.dtype) (outerVar.kind.fuse innerVar.kind))
    modify (·.replaceLeaves position 2 [fused])
    modify (·.pushRelation (.fuse outer inner fused))
    return fused
  else throw (.notAdjacent (stage.ref outer) (stage.ref inner))

/-- Replace a leaf by a loop of the same extent that starts at zero. -/
def rebase (parent : IterId) : Edit IterId := do
  let position ← ask (·.leafPosition parent)
  let iv ← ask (·.iterVar parent)
  let rebased ← modifyGet (·.addDerived (iv.name ++ ".rebased") iv.dtype iv.kind)
  modify (·.replaceLeaves position 1 [rebased])
  modify (·.pushRelation (.rebase parent rebased))
  return rebased

/-- Bind a leaf to the thread coordinate with a tag, which is made on first use. -/
def bindThread (leaf : IterId) (tag : String) : Edit IterId := do
  let iv ← ask (·.iterVar leaf)
  let _ ← ask (·.leafPosition leaf)
  let thread ← modifyGet (·.threadAxis tag none iv.dtype)
  modify (·.setThread leaf thread)
  return thread

/-- Bind a leaf to a thread coordinate that exists already. -/
def bindTo (leaf thread : IterId) : Edit Unit := do
  let _ ← ask (·.iterVar thread)
  let _ ← ask (·.leafPosition leaf)
  modify (·.setThread leaf thread)

/-- Exclude an iteration variable from guards. -/
def skip (id : IterId) : Edit Unit := do
  let _ ← ask (·.iterVar id)
  modify fun stage =>
    { stage with skipped := if stage.isSkipped id then stage.skipped else id :: stage.skipped }

end Edit

/-- An operation of a schedule with its arguments. -/
inductive Command
  | root (name : String) (extent : Expr)
  | rootVar (iv : IterVar)
  | iterVar (iv : IterVar)
  | split (parent : IterId) (factor : Expr)
  | splitIntoParts (parent : IterId) (parts : Expr)
  | fuse (outer inner : IterId)
  | rebase (parent : IterId)
  | singleton (name : String)
  | threadAxis (tag : String) (declared : Option Range) (dtype : DType)
  | bindThread (leaf : IterId) (tag : String)
  | bindTo (leaf thread : IterId)
  | skip (id : IterId)
  | setShape (shape : DynamicShape)
  deriving DecidableEq, Repr

namespace Command

/-- Carry out a command. It answers with the iteration variables that it made or found. -/
def perform : Command → Edit (List IterId)
  | root name extent => return [← modifyGet (·.addRoot name extent .parallel)]
  | rootVar iv => return [← modifyGet (·.addRootVar iv)]
  | iterVar iv => return [← modifyGet (·.addIterVar iv)]
  | split parent factor => do
    let (outer, inner) ← Edit.splitBy parent (.factor factor)
    return [outer, inner]
  | splitIntoParts parent parts => do
    let (outer, inner) ← Edit.splitBy parent (.parts parts)
    return [outer, inner]
  | fuse outer inner => return [← Edit.fuse outer inner]
  | rebase parent => return [← Edit.rebase parent]
  | singleton name => return [← modifyGet (·.singleton name)]
  | threadAxis tag declared dtype => return [← modifyGet (·.threadAxis tag declared dtype)]
  | bindThread leaf tag => return [← Edit.bindThread leaf tag]
  | bindTo leaf thread => do
    Edit.bindTo leaf thread
    return []
  | skip id => do
    Edit.skip id
    return []
  | setShape shape => do
    modify (·.setShape shape)
    return []

end Command

namespace Stage

/-- The stage that a command leaves behind, whether it fails or not. -/
def execute (stage : Stage) (command : Command) : Stage :=
  match command.perform stage with
  | .ok _ next => next
  | .error _ next => next

/-- The stage that a list of commands leaves behind. -/
def executeAll (stage : Stage) (commands : List Command) : Stage :=
  commands.foldl execute stage

end Stage

end LoopNest
