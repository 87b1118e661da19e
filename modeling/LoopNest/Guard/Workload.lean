/-
# Bounds under concrete workloads

When the shape parameters of a stage only take the values of known workloads, a
guard is unnecessary if it holds for each of them. The values of a workload are
put into every range, and the bound is proved anew from these ranges alone.
-/

import LoopNest.Expr.Substitute
import LoopNest.Facts.Values
import LoopNest.Flow.Basic

namespace LoopNest

namespace Substitution

/-- The substitution that gives shape parameters their values. The last value of a
parameter counts. -/
def ofValues (values : List (Var × Int)) : Substitution :=
  values.foldl (fun replacements (param, value) =>
    fun v => if v = param then some (.literal param.dtype value) else replacements v)
    fun _ => none

end Substitution

/-- Facts together with the sets that they say the variables range over. -/
structure RangedFacts where
  facts : Facts
  domains : Domains

namespace RangedFacts

/-- No variable has a range. -/
def empty : RangedFacts := ⟨.empty, .empty⟩

/-- Let a variable range over a range. -/
def insert (known : RangedFacts) (v : Var) (range : Range) : RangedFacts :=
  ⟨known.facts.bind v range, known.domains.insert v (.ofRange range)⟩

/-- The upper end of the values an expression can take. -/
def upperEnd? (known : RangedFacts) (e : Expr) : Option Expr :=
  (known.facts.values e known.domains).max?

end RangedFacts

namespace Stage

variable (stage : Stage)

/-- Let the variables of a stage range over their ranges, each transformed with the
help of the facts so far. -/
def rangedFacts (ranges : IterMap Range) (transform : Facts → Range → Range) :
    Except StageError RangedFacts :=
  ranges.toList.foldlM (fun known (id, range) => do
    let iv ← stage.iterVar id
    return known.insert iv.var (transform known.facts range)) RangedFacts.empty

/-- Whether a value provably stays below an extent under one workload. -/
def belowUnderWorkload (ranges : IterMap Range) (value extent : Expr)
    (workload : List (Var × Int)) : Except StageError Bool := do
  let replacements := Substitution.ofValues workload
  let known ← stage.rangedFacts ranges fun facts range =>
    ⟨facts.simplify (range.min.substitute replacements),
      facts.simplify (range.extent.substitute replacements)⟩
  let limit := known.facts.simplify (extent.substitute replacements)
  match known.upperEnd? (value.substitute replacements) with
  | some greatest => return known.facts.proves (greatest.lt limit)
  | none => return false

/-- Whether a value provably stays below an extent under every workload. -/
def belowUnderWorkloads (ranges : IterMap Range) (value extent : Expr) :
    List (List (Var × Int)) → Except StageError Bool
  | [] => return true
  | workload :: rest => do
    let holds ← stage.belowUnderWorkload ranges value extent workload
    if holds then belowUnderWorkloads ranges value extent rest else return false

end Stage

end LoopNest
