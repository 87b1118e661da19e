/-
# Guards under known workloads

When a stage lists the values that its parameters take, a guard is left out if it holds under
each of these workloads. So the guards that are left are enough under each of them: where they
are true, every loop that overruns stays below the end of its inferred range, and every root
below the end of a declared range that is not provably the inferred one. Whether a guard that
was left out would hold for other values of the parameters does not matter.

Nothing is assumed about how the stage was made, nor about the ranges and the indices that the
guards are generated from, except that the ranges become literal under the workload and that
the indices are made of variables with ranges.
-/

import LoopNest.Proofs.Guard.Inversion
import LoopNest.Proofs.Guard.Points
import LoopNest.Proofs.Guard.Specialized
import LoopNest.Stage.Edit

namespace LoopNest

namespace GuardContext

variable {context : GuardContext} {predicates : List Expr} {workload : List (Var × Int)}
  {assignment : Assignment} {id : IterId} {range : Range}

theorem belowUnderWorkload_of_provablyBelow {value extent : Expr}
    (h : context.provablyBelow value extent = .ok true)
    (hworkload : workload ∈ context.stage.workloads) :
    context.stage.belowUnderWorkload context.ranges value extent workload = .ok true := by
  unfold provablyBelow at h
  split at h
  · cases h
  · split at h
    · cases h
    · split at h
      · rename_i hnone
        rw [hnone] at hworkload
        cases hworkload
      · exact Stage.belowUnderWorkload_of_mem h hworkload

/-- Where the guards of a stage are true under one of its workloads, an index that is settled
stays below the end of the range. -/
theorem Settles.staysBelow (h : context.Settles predicates id range)
    (hworkload : workload ∈ context.stage.workloads)
    (hsettled : ∀ id range, context.ranges.get? id = some range →
      range.SettledBy (.ofValues workload))
    (hrange : range.SettledBy (.ofValues workload))
    (hindices : ∀ id index, context.indices.get? id = some index →
      context.stage.IsIndexUnder context.ranges workload index)
    (hat : context.stage.AtWorkload context.ranges workload assignment)
    (haccepts : Accepts predicates assignment) :
    ∃ index, context.indices.get? id = some index ∧
      (context.stage.ExactUnder context.ranges workload assignment index range →
        StaysBelow assignment index range) := by
  obtain ⟨index, hindex, hguard | hbelow⟩ := h
  · refine ⟨index, hindex, fun hexact x low extent hx hlow hextent => ?_⟩
    have hdistance := hexact.distance x low hx hlow
    obtain ⟨hleft, hright⟩ := hexact.compared _ extent hdistance hextent
    exact Expr.lt_of_eval_lt
      (Expr.formed_combine (hindices id index hindex).formed hrange.min_formed
        (fun hlogical => by cases hlogical))
      hrange.extent_formed hleft hright (haccepts _ hguard)
  · exact ⟨index, hindex, fun hexact => Stage.staysBelow_of_belowUnderWorkload hsettled hat
      (hindices id index hindex) hrange hexact
      (belowUnderWorkload_of_provablyBelow hbelow hworkload)⟩

/-- What the guards of a stage do under a workload. A loop that overruns stays below the end of
its inferred range, and a root whose declared range is not provably the inferred one below the
end of the declared one, wherever nothing wraps in what is computed about its index. -/
structure KeepsBelow (context : GuardContext) (overruns : IterMap Bool)
    (workload : List (Var × Int)) (assignment : Assignment) : Prop where
  inferred : ∀ id, context.mayGuard id = true → overruns.getDefault id = true →
    ∃ range index, context.ranges.get? id = some range ∧ context.indices.get? id = some index ∧
      (context.stage.ExactUnder context.ranges workload assignment index range →
        StaysBelow assignment index range)
  declared : ∀ root ∈ context.stage.roots, context.mayGuard root = true →
    ∀ iv declared, context.stage.iterVar? root = some iv → iv.declared = some declared →
      ∃ range, context.ranges.get? root = some range ∧
        (context.sameRange range declared = false →
          ∃ index, context.indices.get? root = some index ∧
            (context.stage.ExactUnder context.ranges workload assignment index declared →
              StaysBelow assignment index declared))

end GuardContext

namespace Stage

variable {stage : Stage} {ranges : IterMap Range} {indices : IterMap Expr}
  {workload : List (Var × Int)} {predicates : List Expr}

/-- Under a workload all ranges, the inferred and the declared ones, are literal, and indices
have only variables with ranges left. -/
structure SettledUnder (stage : Stage) (ranges : IterMap Range) (indices : IterMap Expr)
    (workload : List (Var × Int)) : Prop where
  inferred : ∀ id range, ranges.get? id = some range → range.SettledBy (.ofValues workload)
  declared : ∀ root ∈ stage.roots, ∀ iv declared, stage.iterVar? root = some iv →
    iv.declared = some declared → declared.SettledBy (.ofValues workload)
  indexed : ∀ id index, indices.get? id = some index → stage.IsIndexUnder ranges workload index

/-- If guards could be generated, everything that may be guarded is settled. -/
theorem guards_settle (h : stage.guards ranges indices .standard = .ok predicates) :
    ∃ known overruns, stage.rangedFacts ranges (fun _ range => range) = .ok known ∧
      stage.overrunsUp ranges known.facts stage.leafOverruns = .ok overruns ∧
      (∀ id, GuardContext.SettlesInferred ⟨stage, ranges, indices, known⟩ overruns predicates id) ∧
      ∀ root ∈ stage.roots,
        GuardContext.SettlesDeclared ⟨stage, ranges, indices, known⟩ predicates root := by
  obtain ⟨known, overruns, guards, hknown, hoverruns, hselected⟩ := guards_inv h
  exact ⟨known, overruns, hknown, hoverruns, hselected.settlesInferred rfl,
    hselected.declared rfl rfl⟩

/-- The guards of a stage are enough under each of its workloads. -/
theorem guards_keep_below (hguards : stage.guards ranges indices .standard = .ok predicates)
    (hworkload : workload ∈ stage.workloads)
    (hsettled : stage.SettledUnder ranges indices workload) :
    ∃ known overruns, stage.rangedFacts ranges (fun _ range => range) = .ok known ∧
      stage.overrunsUp ranges known.facts stage.leafOverruns = .ok overruns ∧
      ∀ assignment, stage.AtWorkload ranges workload assignment → Accepts predicates assignment →
        GuardContext.KeepsBelow ⟨stage, ranges, indices, known⟩ overruns workload assignment := by
  obtain ⟨known, overruns, hknown, hoverruns, hinferred, hdeclared⟩ := guards_settle hguards
  refine ⟨known, overruns, hknown, hoverruns, fun assignment hat haccepts => ⟨?_, ?_⟩⟩
  · intro id hguarded hflag
    obtain ⟨range, hrange, hsettles⟩ := hinferred id hguarded hflag
    obtain ⟨index, hindex, hbelow⟩ := hsettles.staysBelow hworkload hsettled.inferred
      (hsettled.inferred id range hrange) hsettled.indexed hat haccepts
    exact ⟨range, index, hrange, hindex, hbelow⟩
  · intro root hroot hguarded iv declared hiv hdecl
    obtain ⟨range, hrange, hsettles⟩ := hdeclared root hroot hguarded iv declared hiv hdecl
    exact ⟨range, hrange, fun hdifferent => (hsettles hdifferent).staysBelow hworkload
      hsettled.inferred (hsettled.declared root hroot iv declared hiv hdecl) hsettled.indexed hat
      haccepts⟩

/-- A parameter that gives both roots their extents. -/
def shapeParam : Var := ⟨.parameter 0, "n", .int32⟩

/-- Two roots, the first of which is split by a factor of its extent under both workloads. -/
def shapedStage : Stage := (Stage.empty "stage" .globalMemory).executeAll
  [.root "i" (.var shapeParam), .split ⟨0⟩ (.const .int32 32), .root "j" (.var shapeParam),
    .setShape ⟨[shapeParam], [[128], [256]]⟩]

/-- The ranges of the loops. The range of the second root is not the declared one. -/
def shapedRanges : IterMap Range :=
  .ofList [(⟨0⟩, .ofExtent (.var shapeParam)),
    (⟨1⟩, .ofExtent (((Expr.var shapeParam).add (.const .int32 31)).floorDiv (.const .int32 32))),
    (⟨2⟩, .ofExtent (.const .int32 32)), (⟨3⟩, .between .int32 0 200)]

/-- The index of the split root from its two loops, and the variables of all other loops. -/
def shapedIndices : IterMap Expr :=
  let outer := Expr.var ⟨.iteration 1, "i.outer", .int32⟩
  let inner := Expr.var ⟨.iteration 2, "i.inner", .int32⟩
  .ofList [(⟨0⟩, (outer.mul (.const .int32 32)).add inner), (⟨1⟩, outer), (⟨2⟩, inner),
    (⟨3⟩, .var ⟨.iteration 3, "j", .int32⟩)]

/-- The first workload. -/
def shapedWorkload : List (Var × Int) := [(shapeParam, 128)]

/-- The last iteration of both roots under the first workload. -/
def shapedPoint : Assignment := fun v =>
  [(VarId.parameter 0, 128), (.iteration 0, 127), (.iteration 1, 3), (.iteration 2, 31),
    (.iteration 3, 127)].lookup v.id

/-- The only guard that is left is the one of the second root. -/
def shapedGuard : Expr := (Expr.var ⟨.iteration 3, "j", .int32⟩).lt (.var shapeParam)

theorem shapedStage_settled :
    shapedStage.SettledUnder shapedRanges shapedIndices shapedWorkload := by
  refine ⟨fun id range hrange => ?_, ?_, fun id index hindex => ?_⟩
  · have hranges : ∀ entry ∈ shapedRanges.toList,
        entry.2.SettledBy (.ofValues shapedWorkload) := by
      change ∀ entry ∈ ([_, _, _, _] : List (IterId × Range)), _
      simp only [List.forall_mem_cons]
      refine ⟨?_, ?_, ?_, ?_, by simp⟩ <;>
        exact ⟨by decide, by decide, by decide, nofun, by decide, by decide⟩
    exact hranges (id, range) (IterMap.mem_toList.mpr hrange)
  · change ∀ root ∈ ([⟨0⟩, ⟨3⟩] : List IterId), _
    simp only [List.forall_mem_cons]
    refine ⟨?_, ?_, by simp⟩ <;>
    · rintro _ _ ⟨⟩ ⟨⟩
      exact ⟨by decide, by decide, by decide, nofun, by decide, by decide⟩
  · have hvariables : ∀ id ∈ ([⟨1⟩, ⟨2⟩, ⟨3⟩] : List IterId), ∀ iv,
        shapedStage.iterVar? id = some iv →
          shapedStage.IsIndexUnder shapedRanges shapedWorkload iv.expr := by
      simp only [List.forall_mem_cons]
      refine ⟨fun _ hiv => ?_, fun _ hiv => ?_, fun _ hiv => ?_, by simp⟩ <;>
        exact isIndexUnder_expr hiv rfl
    have houter := hvariables ⟨1⟩ (by decide) _ rfl
    have hinner := hvariables ⟨2⟩ (by decide) _ rfl
    have hindices : ∀ entry ∈ shapedIndices.toList,
        shapedStage.IsIndexUnder shapedRanges shapedWorkload entry.2 := by
      change ∀ entry ∈ ([_, _, _, _] : List (IterId × Expr)), _
      simp only [List.forall_mem_cons]
      exact ⟨.combine rfl (.combine rfl houter (isIndexUnder_const rfl)) hinner, houter, hinner,
        hvariables ⟨3⟩ (by decide) _ rfl, by simp⟩
    exact hindices (id, index) (IterMap.mem_toList.mpr hindex)

theorem shapedPoint_atWorkload :
    shapedStage.AtWorkload shapedRanges shapedWorkload shapedPoint := by
  refine ⟨by decide, fun id range iv hrange => ?_⟩
  have hinside : ∀ entry ∈ shapedRanges.toList, ∀ iv, shapedStage.iterVar? entry.1 = some iv →
      ∃ x low extent, (Expr.var iv.var).eval shapedPoint = .ok x ∧
        entry.2.min.eval shapedPoint = .ok low ∧ entry.2.extent.eval shapedPoint = .ok extent ∧
          low ≤ x ∧ x < low + extent := by
    change ∀ entry ∈ ([_, _, _, _] : List (IterId × Range)), _
    simp only [List.forall_mem_cons]
    refine ⟨?_, ?_, ?_, ?_, by simp⟩ <;>
    · rintro _ ⟨⟩
      exact ⟨_, _, _, rfl, rfl, rfl, by decide, by decide⟩
  exact hinside (id, range) (IterMap.mem_toList.mpr hrange) iv

/-- Nothing wraps where the indices of the roots are compared with their declared extents. -/
theorem shapedPoint_exactUnder : ∀ root ∈ shapedStage.roots,
    ∀ index ∈ shapedIndices.get? root, shapedStage.ExactUnder shapedRanges shapedWorkload
      shapedPoint index (.ofExtent (.var shapeParam)) := by
  change ∀ root ∈ ([⟨0⟩, ⟨3⟩] : List IterId), _
  simp only [List.forall_mem_cons]
  have hlasts : ∀ entry ∈ shapedRanges.toList,
      Expr.AllExact (entry.2.substitute (.ofValues shapedWorkload)).lastSums := by decide
  refine ⟨?_, ?_, by simp⟩ <;>
  · rintro _ ⟨⟩
    refine ⟨?_, ?_, by decide, fun id other hother => ?_, fun known hknown => ?_⟩
    · rintro _ _ ⟨⟩ ⟨⟩
      rfl
    · rintro _ _ ⟨⟩ ⟨⟩
      decide
    · exact hlasts (id, other) (IterMap.mem_toList.mpr hother)
    · obtain rfl := Except.ok.inj (Eq.trans (by rfl) hknown)
      decide

theorem guards_keep_below_of_shapedStage : ∃ known overruns,
    shapedStage.guards shapedRanges shapedIndices .standard = .ok [shapedGuard] ∧
      shapedWorkload ∈ shapedStage.workloads ∧
      shapedStage.SettledUnder shapedRanges shapedIndices shapedWorkload ∧
      shapedStage.rangedFacts shapedRanges (fun _ range => range) = .ok known ∧
      shapedStage.overrunsUp shapedRanges known.facts shapedStage.leafOverruns = .ok overruns ∧
      shapedStage.AtWorkload shapedRanges shapedWorkload shapedPoint ∧
      Accepts [shapedGuard] shapedPoint ∧ overruns.getDefault ⟨0⟩ = true ∧
      ∀ root ∈ shapedStage.roots, ∃ index, shapedIndices.get? root = some index ∧
        shapedStage.ExactUnder shapedRanges shapedWorkload shapedPoint index
          (.ofExtent (.var shapeParam)) ∧
        StaysBelow shapedPoint index (.ofExtent (.var shapeParam)) := by
  have hguards : shapedStage.guards shapedRanges shapedIndices .standard = .ok [shapedGuard] := rfl
  have hworkload : shapedWorkload ∈ shapedStage.workloads := by decide
  have haccepts : Accepts [shapedGuard] shapedPoint :=
    List.forall_mem_singleton.mpr (by decide)
  obtain ⟨known, overruns, hknown, hoverruns, hkeeps⟩ :=
    guards_keep_below hguards hworkload shapedStage_settled
  obtain ⟨hinferred, hdeclared⟩ := hkeeps shapedPoint shapedPoint_atWorkload haccepts
  have hknown' := Except.ok.inj (Eq.trans (by rfl) hknown)
  subst hknown'
  have hoverruns' := Except.ok.inj (Eq.trans (by rfl) hoverruns)
  subst hoverruns'
  refine ⟨_, _, hguards, hworkload, shapedStage_settled, hknown, hoverruns,
    shapedPoint_atWorkload, haccepts, by decide, ?_⟩
  change ∀ root ∈ ([⟨0⟩, ⟨3⟩] : List IterId), _
  simp only [List.forall_mem_cons]
  refine ⟨?_, ?_, by simp⟩
  · obtain ⟨_, index, ⟨⟩, hindex, hbelow⟩ := hinferred ⟨0⟩ (by decide) (by decide)
    have hexact := shapedPoint_exactUnder ⟨0⟩ (by decide) index hindex
    exact ⟨index, hindex, hexact, hbelow hexact⟩
  · obtain ⟨_, ⟨⟩, hdifferent⟩ := hdeclared ⟨3⟩ (by decide) (by decide) _ _ rfl rfl
    obtain ⟨index, hindex, hbelow⟩ := hdifferent (by decide)
    have hexact := shapedPoint_exactUnder ⟨3⟩ (by decide) index hindex
    exact ⟨index, hindex, hexact, hbelow hexact⟩

end Stage

end LoopNest
