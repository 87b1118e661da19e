/-
# Guards

A guard is a predicate `value < extent` that keeps an index inside its range.
Guards are generated for two reasons. A variable that overruns is guarded by its
inferred range unless its value provably stays below the extent. A root whose
inferred range is not provably the declared one is guarded by the declared range
in the same way. Lower ends need no guard, because derived loops start at zero.

Threads, unguarded loops and skipped variables are never guarded.
-/

import LoopNest.Guard.Overrun
import LoopNest.Guard.Policy
import LoopNest.Guard.Workload

namespace LoopNest

/-- What guards are decided from: the inferred ranges, the index of each variable
and the facts that the ranges amount to. -/
structure GuardContext where
  stage : Stage
  ranges : IterMap Range
  indices : IterMap Expr
  known : RangedFacts

namespace GuardContext

variable (context : GuardContext)

/-- Whether a variable may be guarded at all. -/
def mayGuard (id : IterId) : Bool :=
  match context.stage.iterVar? id with
  | some iv => !context.stage.isSkipped id && iv.kind.isGuarded
  | none => false

/-- Whether two ranges are provably equal. -/
def sameRange (left right : Range) : Bool :=
  left = right
    || context.known.facts.proves (left.min.eq right.min)
      && context.known.facts.proves (left.extent.eq right.extent)

/-- Whether a value provably stays below an extent: under the known workloads where
there are any, and in general otherwise. -/
def provablyBelow (value extent : Expr) : Except StageError Bool :=
  match context.known.upperEnd? value with
  | none => return false
  | some greatest =>
    if greatest.dtype ≠ value.dtype then return false
    else match context.stage.workloads with
      | [] => return context.known.facts.proves (greatest.lt extent)
      | workloads => context.stage.belowUnderWorkloads context.ranges value extent workloads

/-- The distance of the index of a variable from the start of a range. -/
def distanceFrom (id : IterId) (range : Range) : Except StageError Expr := do
  let index ← context.stage.require .guards context.indices id
  return index.sub range.min

/-- The inferred range of a variable. -/
def rangeOf (id : IterId) : Except StageError Range :=
  context.stage.require .guards context.ranges id

end GuardContext

/-- Whether the name of a variable is that of the outer loop, or of the outer loop
of the outer loop, of one that is guarded already. -/
def isCoveredBy (guarded : List String) (name : String) : Bool :=
  guarded.any fun parent => name = parent ++ ".outer" || name = parent ++ ".outer.outer"

/-- Whether characters contain the mark `.c` of a cache axis. -/
def hasCacheMark : List Char → Bool
  | '.' :: 'c' :: _ => true
  | _ :: rest => hasCacheMark rest
  | [] => false

/-- The guards generated so far and the names of the variables they belong to. -/
structure Guards where
  predicates : List Expr
  guarded : List String

namespace Guards

/-- Append a guard. -/
def push (guards : Guards) (predicate : Expr) (name : String) : Guards :=
  ⟨guards.predicates ++ [predicate], name :: guards.guarded⟩

end Guards

namespace GuardContext

variable (context : GuardContext) (policy : GuardPolicy)

/-- Guard a variable that overruns by its inferred range. -/
def guardOverrun (overruns : IterMap Bool) (guards : Guards) (entry : IterId × IterVar) :
    Except StageError Guards := do
  let (id, iv) := entry
  if !context.mayGuard id || !overruns.getDefault id then return guards
  else
    let range ← context.rangeOf id
    let value ← context.distanceFrom id range
    let below ← context.provablyBelow value range.extent
    if below || policy.elideRedundant && isCoveredBy guards.guarded iv.name then return guards
    else return guards.push (value.lt range.extent) iv.name

/-- Whether a root is a cache axis in local memory that goes unguarded. -/
def isUnguardedCache (iv : IterVar) : Bool :=
  context.stage.scope = .localMemory && hasCacheMark iv.name.toList && policy.elidesLocal

/-- Guard a root by its declared range. -/
def guardDeclared (predicates : List Expr) (root : IterId) : Except StageError (List Expr) := do
  if !context.mayGuard root then return predicates
  else
    let iv ← context.stage.iterVar root
    match iv.declared with
    | none => return predicates
    | some declared =>
      let range ← context.rangeOf root
      if context.sameRange range declared then return predicates
      else
        let value ← context.distanceFrom root declared
        let below ← context.provablyBelow value declared.extent
        if below || context.isUnguardedCache policy iv then return predicates
        else return predicates ++ [value.lt declared.extent]

end GuardContext

/-- Generate the guards that keep every index of a stage inside its range. -/
def Stage.guards (stage : Stage) (ranges : IterMap Range) (indices : IterMap Expr)
    (policy : GuardPolicy) : Except StageError (List Expr) := do
  let known ← stage.rangedFacts ranges fun _ range => range
  let overruns ←
    (stage.overrunsUp ranges known.facts stage.leafOverruns).mapError Halt.error
  let context : GuardContext := ⟨stage, ranges, indices, known⟩
  let guards ← stage.entries.foldlM (context.guardOverrun policy overruns) ⟨[], []⟩
  if policy.skipDeclared then return guards.predicates
  else stage.roots.foldlM (context.guardDeclared policy) guards.predicates

end LoopNest
