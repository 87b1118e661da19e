/-
# Errors about stages

An error keeps its cause: the iteration variables, ranges and expressions that it
is about. `StageError.message` is the only place that words it.
-/

import LoopNest.Stage.IterVar

namespace LoopNest

/-- The computations over a stage that can report an error of their own. -/
inductive PassName
  | ranges
  | upIndices
  | downIndices
  | upAccesses
  | upFlags
  | downFlags
  | overruns
  | guards
  | lowering
  deriving DecidableEq, Repr, Inhabited

namespace PassName

/-- The name under which a computation reports its errors. -/
def label : PassName → String
  | ranges => "pass_down_domain"
  | upIndices => "pass_up_index"
  | downIndices => "pass_down_index"
  | upAccesses => "pass_up_domain"
  | upFlags => "pass_up_bitmask_or"
  | downFlags => "pass_down_bitmask_or"
  | overruns => "pass_up_bound_check"
  | guards => "make_bound_check"
  | lowering => "lower_stage"

end PassName

/-- An iteration variable as an error names it. Where the stage has no such
variable, the name is the written form of the position. -/
structure IterRef where
  id : IterId
  name : String
  deriving DecidableEq, Repr, Inhabited

/-- What can go wrong with a stage. -/
inductive StageError
  /-- A computation needs a value that was never given and may not do without it. -/
  | missingBinding (pass : PassName) (subject : IterRef)
  /-- A variable has a range already and the extents cannot be proved equal. -/
  | inconsistentRange (subject : IterRef) (existing proposed : Range)
  /-- A range that has to start at zero does not. -/
  | nonzeroMin (pass : PassName) (subject : IterRef) (min : Expr)
  /-- A root has neither a declared nor a supplied range. -/
  | missingDomain (subject : IterRef)
  /-- No iteration variable has this position. -/
  | unknownIterVar (id : IterId)
  /-- A relation consumes a variable that no root and no earlier relation defines. -/
  | undefinedInput (subject : IterRef) (index : Nat)
  /-- A relation makes a variable that is defined already. -/
  | duplicateProducer (subject : IterRef)
  /-- A loop to be transformed is not one of the innermost description. -/
  | notALeaf (subject : IterRef) (stage : String)
  /-- Two loops to be fused do not follow each other. -/
  | notAdjacent (outer inner : IterRef)
  /-- A workload does not have one value for each shape parameter. -/
  | workloadArity (expected found index : Nat)
  deriving DecidableEq, Repr

namespace StageError

/-- The text of an error. -/
def message : StageError → String
  | missingBinding pass subject =>
    pass.label ++ ": no binding for iteration variable '" ++ subject.name ++ "'"
  | inconsistentRange subject existing proposed =>
    "domain of '" ++ subject.name ++ "' already inferred as " ++ existing.render
      ++ ", cannot prove the extent equals " ++ proposed.render
  | nonzeroMin pass subject min =>
    pass.label ++ ": '" ++ subject.name ++ "' must start at zero, found min " ++ min.render
  | missingDomain subject =>
    "root iteration variable '" ++ subject.name ++ "' has no declared or supplied domain"
  | unknownIterVar id => "unknown iteration variable " ++ id.render
  | undefinedInput subject index =>
    "relation #" ++ toString index ++ " consumes '" ++ subject.name ++ "' before it is defined"
  | duplicateProducer subject =>
    "'" ++ subject.name ++ "' is produced by more than one relation"
  | notALeaf subject stage =>
    "'" ++ subject.name ++ "' is not a leaf of stage '" ++ stage ++ "'"
  | notAdjacent outer inner =>
    "cannot fuse '" ++ outer.name ++ "' and '" ++ inner.name
      ++ "': they are not adjacent leaves in that order"
  | workloadArity expected found index =>
    "workload instance #" ++ toString index ++ " has " ++ toString found
      ++ " values, expected " ++ toString expected

end StageError

end LoopNest
