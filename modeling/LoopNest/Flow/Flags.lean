/-
# Flag propagation

A variable may carry flags, the bits of a natural number. Flags flow along the
relations and are joined with those a variable has already. Upward a split joins
the flags of its two loops into the parent, downward a fusion joins those of the
loops it runs through; one of the two may be missing. A singleton comes from
nothing, so a downward pass resets its flags.
-/

import LoopNest.Flow.Basic

namespace LoopNest

/-- Join flags into those of a variable. -/
def IterMap.joinFlags (state : IterMap Nat) (id : IterId) (flags : Nat) : IterMap Nat :=
  match state.get? id with
  | some known => state.insert id (known ||| flags)
  | none => state.insert id flags

namespace Stage

variable (stage : Stage)

/-- The joined flags of two variables. When both are missing a lenient pass goes on
without them, and any other reports the variable it is told to. -/
def readEitherFlags? (pass : PassName) (lenient : Bool) (state : IterMap Nat)
    (first second reported : IterId) : Except StageError (Option Nat) :=
  if state.contains first || state.contains second then
    .ok (some (state.getDefault first ||| state.getDefault second))
  else if lenient then .ok none
  else .error (stage.missing pass reported)

/-- Join the flags of the outputs of a relation into its inputs. -/
def liftFlags (lenient : Bool) (state : IterMap Nat) (relation : Relation) :
    Except StageError (IterMap Nat) :=
  match relation with
  | .split parent outer inner _ => do
    let some flags ← stage.readEitherFlags? .upFlags lenient state outer inner inner
      | return state
    return state.joinFlags parent flags
  | .fuse outer inner fused => do
    let some flags ← stage.read? .upFlags lenient state fused
      | return state
    return (state.joinFlags outer flags).joinFlags inner flags
  | .rebase parent rebased => do
    let some flags ← stage.read? .upFlags lenient state rebased
      | return state
    return state.joinFlags parent flags
  | .singleton _ => return state

/-- Join the flags of the inputs of a relation into its outputs. -/
def lowerFlags (lenient : Bool) (state : IterMap Nat) (relation : Relation) :
    Except StageError (IterMap Nat) :=
  match relation with
  | .split parent outer inner _ => do
    let some flags ← stage.read? .downFlags lenient state parent
      | return state
    return (state.joinFlags outer flags).joinFlags inner flags
  | .fuse outer inner fused => do
    let some flags ← stage.readEitherFlags? .downFlags lenient state outer inner outer
      | return state
    return state.joinFlags fused flags
  | .rebase parent rebased => do
    let some flags ← stage.read? .downFlags lenient state parent
      | return state
    return state.joinFlags rebased flags
  | .singleton iter => return state.insert iter 0

/-- Let flags flow from the leaves to the roots. -/
def flagsUp (lenient : Bool) (state : IterMap Nat) : Except (Halt (IterMap Nat)) (IterMap Nat) :=
  stage.flowUp (Halt.atomically (stage.liftFlags lenient)) state

/-- Let flags flow from the roots to the leaves. -/
def flagsDown (lenient : Bool) (state : IterMap Nat) :
    Except (Halt (IterMap Nat)) (IterMap Nat) :=
  stage.flowDown (Halt.atomically (stage.lowerFlags lenient)) state

end Stage

end LoopNest
