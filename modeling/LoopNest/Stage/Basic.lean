/-
# Stages

A stage describes the loop nest that computes one buffer. It owns the iteration
variables and records how they are derived from each other: the roots one started
with, the relations in the order they were applied, and the leaves, which are the
loops of the nest from the outermost to the innermost. A leaf may be bound to a
thread coordinate, and a variable may be excluded from guards.

A stage may also carry shape parameters together with the concrete workloads they
will take.
-/

import LoopNest.Stage.Error
import LoopNest.Stage.IterMap
import LoopNest.Stage.Relation

namespace LoopNest

/-- The memory in which the buffer of a stage lives. -/
inductive StorageScope
  | globalMemory
  | sharedMemory
  | localMemory
  deriving DecidableEq, Repr, Inhabited

namespace StorageScope

/-- The written form of a memory. -/
def label : StorageScope → String
  | globalMemory => "global"
  | sharedMemory => "shared"
  | localMemory => "local"

end StorageScope

/-- Shape parameters and the workloads they take, each of which has one value for
every parameter, in order. -/
structure DynamicShape where
  params : List Var
  workloads : List (List Int)
  deriving DecidableEq, Repr, Inhabited

namespace DynamicShape

/-- The first workload, counted from `index`, that has not as many values as expected. -/
def arityError? (expected : Nat) : Nat → List (List Int) → Option StageError
  | _, [] => none
  | index, workload :: rest =>
    if workload.length = expected then arityError? expected (index + 1) rest
    else some (.workloadArity expected workload.length index)

/-- Collect workloads for shape parameters. -/
def ofWorkloads (params : List Var) (workloads : List (List Int)) :
    Except StageError DynamicShape :=
  match arityError? params.length 0 workloads with
  | some error => .error error
  | none => .ok ⟨params, workloads⟩

/-- For each workload, the parameters paired with their values. -/
def assignments (shape : DynamicShape) : List (List (Var × Int)) :=
  shape.workloads.map fun workload => shape.params.zip workload

end DynamicShape

/-- A loop nest together with how it was derived. -/
structure Stage where
  name : String
  scope : StorageScope
  iterVars : List IterVar
  roots : List IterId
  relations : List Relation
  leaves : List IterId
  threads : IterMap IterId
  skipped : List IterId
  shape : Option DynamicShape
  deriving DecidableEq, Repr, Inhabited

namespace Stage

/-- The stage without loops. -/
def empty (name : String) (scope : StorageScope) : Stage :=
  ⟨name, scope, [], [], [], [], .empty, [], none⟩

/-- The number of iteration variables. -/
def size (stage : Stage) : Nat :=
  stage.iterVars.length

/-- The iteration variable at a position, if there is one. -/
def iterVar? (stage : Stage) (id : IterId) : Option IterVar :=
  stage.iterVars[id.index]?

/-- The iteration variable at a position. -/
def iterVar (stage : Stage) (id : IterId) : Except StageError IterVar :=
  match stage.iterVar? id with
  | some iv => .ok iv
  | none => .error (.unknownIterVar id)

/-- Every iteration variable with its position, in order. -/
def entries (stage : Stage) : List (IterId × IterVar) :=
  stage.iterVars.zipIdx.map fun (iv, index) => (⟨index⟩, iv)

/-- The position of the first iteration variable that satisfies a test. -/
def findId? (stage : Stage) (test : IterVar → Bool) : Option IterId :=
  (stage.iterVars.findIdx? test).map IterId.mk

/-- The position of the first iteration variable with a name. -/
def find? (stage : Stage) (name : String) : Option IterId :=
  stage.findId? fun iv => iv.name = name

/-- An iteration variable as errors name it. -/
def ref (stage : Stage) (id : IterId) : IterRef :=
  ⟨id, match stage.iterVar? id with
    | some iv => iv.name
    | none => id.render⟩

/-- The thread that a leaf runs on, if it is bound to one. -/
def threadOf? (stage : Stage) (leaf : IterId) : Option IterId :=
  stage.threads.get? leaf

/-- Whether an iteration variable is excluded from guards. -/
def isSkipped (stage : Stage) (id : IterId) : Bool :=
  decide (id ∈ stage.skipped)

/-- The workloads under which guards are decided. -/
def workloads (stage : Stage) : List (List (Var × Int)) :=
  match stage.shape with
  | some shape => shape.assignments
  | none => []

end Stage

end LoopNest
