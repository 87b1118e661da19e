/-
# Validation

A stage is valid when everything it mentions exists, every relation consumes only
roots and what earlier relations made, and nothing is made twice or made although
it is a root. The first violation is reported: unknown variables among the roots,
the leaves and the thread bindings come first, then the relations in order, the
inputs of each before its outputs.
-/

import LoopNest.Stage.Basic

namespace LoopNest.Stage

variable (stage : Stage)

/-- Check that every iteration variable of a list exists. -/
def checkKnown : List IterId → Except StageError Unit
  | [] => return ()
  | id :: rest => do
    let _ ← stage.iterVar id
    checkKnown rest

/-- Check that the inputs of a relation exist and are defined. -/
def checkInputs (defined : List IterId) (index : Nat) : List IterId → Except StageError Unit
  | [] => return ()
  | id :: rest => do
    let _ ← stage.iterVar id
    if id ∈ defined then checkInputs defined index rest
    else throw (.undefinedInput (stage.ref id) index)

/-- Check that the outputs of a relation exist and are not yet defined, and define
them one by one. -/
def defineOutputs : List IterId → List IterId → Except StageError (List IterId)
  | defined, [] => return defined
  | defined, id :: rest => do
    let _ ← stage.iterVar id
    if id ∈ defined then throw (.duplicateProducer (stage.ref id))
    else defineOutputs (id :: defined) rest

/-- Check relations, the first of which has the given number. -/
def checkRelations : List IterId → Nat → List Relation → Except StageError Unit
  | _, _, [] => return ()
  | defined, index, relation :: rest => do
    stage.checkInputs defined index relation.inputs
    let extended ← stage.defineOutputs defined relation.outputs
    checkRelations extended (index + 1) rest

/-- Check that the relations are ordered and that every variable has one origin. -/
def validate : Except StageError Unit := do
  stage.checkKnown (stage.roots ++ stage.leaves ++ stage.threads.keys ++ stage.threads.values)
  stage.checkRelations stage.roots 0 stage.relations

end LoopNest.Stage
