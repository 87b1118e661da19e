/-
# Guards can always be generated

Guards are decided for loops that overrun and for roots. On a linked stage both have ranges
and indices, and whatever has a range is an iteration variable, so nothing that the
generation of guards looks up is missing. This is so for every policy and whatever the
workloads are, since proving a bound may fail to find a proof but has no error of its own.

The flags of loops that overrun are kept on defined loops only. A thread never has one, so
its index, which does not exist, is never asked for.
-/

import LoopNest.Guard.Predicates
import LoopNest.Proofs.Flow.Reconstruct

namespace LoopNest

namespace Stage

variable {stage : Stage} {ranges : IterMap Range} {relation : Relation}
  {state : IterMap Bool}

/-- Only iteration variables of the stage have ranges. -/
def RangesKnown (stage : Stage) (ranges : IterMap Range) : Prop :=
  ∀ id range, ranges.get? id = some range → ∃ iv, stage.iterVar? id = some iv

/-- Only loops have flags. -/
def FlagsOnLoops (stage : Stage) (flags : IterMap Bool) : Prop :=
  ∀ id, (flags.get? id).isSome = true → id ∈ stage.defined

theorem FlagsOnLoops.insert (h : stage.FlagsOnLoops state) {id : IterId}
    (hid : id ∈ stage.defined) (flag : Bool) : stage.FlagsOnLoops (state.insert id flag) := by
  intro other hother
  rw [IterMap.get?_insert] at hother
  split at hother
  · rename_i heq
    exact heq ▸ hid
  · exact h other hother

/-- The ranges amount to facts, whatever is done to them on the way. -/
theorem RangesKnown.rangedFacts_ok (h : stage.RangesKnown ranges)
    (transform : Facts → Range → Range) :
    ∃ known, stage.rangedFacts ranges transform = .ok known := by
  refine foldlM_total (fun known entry hentry => ?_) _
  obtain ⟨id, range⟩ := entry
  obtain ⟨iv, hiv⟩ := h id range (IterMap.mem_toList.mp hentry)
  refine ⟨known.insert iv.var (transform known.facts range), ?_⟩
  simp only [iterVar_eq_ok hiv, ok_bind]
  rfl

/-- A bound can be decided under any workloads. -/
theorem RangesKnown.belowUnderWorkloads_ok (h : stage.RangesKnown ranges) (value extent : Expr)
    (workloads : List (List (Var × Int))) :
    ∃ below, stage.belowUnderWorkloads ranges value extent workloads = .ok below := by
  induction workloads with
  | nil => exact ⟨true, rfl⟩
  | cons workload rest ih =>
      obtain ⟨holds, hholds⟩ : ∃ holds,
          stage.belowUnderWorkload ranges value extent workload = .ok holds := by
        obtain ⟨known, hknown⟩ := h.rangedFacts_ok fun facts range =>
          ⟨facts.simplify (range.min.substitute (.ofValues workload)),
            facts.simplify (range.extent.substitute (.ofValues workload))⟩
        simp only [belowUnderWorkload, hknown, ok_bind]
        split <;> exact ⟨_, rfl⟩
      rw [belowUnderWorkloads, hholds, ok_bind]
      cases holds with
      | true => exact ih
      | false => exact ⟨false, rfl⟩

/-- A loop whose outer loop overruns overruns, too. -/
def OverrunsRise (overruns : IterId → Option Bool) : Relation → Prop
  | .split parent outer _ _ => overruns outer = some true → overruns parent = some true
  | _ => True

theorem isLocal_overrunsRise : IsLocal OverrunsRise := by
  intro relation left right hsame hrise
  cases relation with
  | split parent outer inner size =>
      intro hflag
      rw [← hsame parent (by simp [Relation.inputs])]
      rw [← hsame outer (by simp [Relation.outputs])] at hflag
      exact hrise hflag
  | fuse | rebase | singleton => trivial

/-- One relation upward: flags are decided, and only for loops. -/
theorem Linked.liftOverrun_ok (h : stage.Linked) (hranges : stage.HasRanges ranges)
    (facts : Facts) (hrelation : relation ∈ stage.relations) (hstate : stage.FlagsOnLoops state)
    (hready : ∀ id ∈ relation.outputs, (state.get? id).isSome) :
    ∃ next, stage.liftOverrun ranges facts state relation = .ok next ∧
      Writes IterMap.get? stage.FlagsOnLoops OverrunsRise [relation] relation.inputs state
        next := by
  have hinput : ∀ id ∈ relation.inputs, id ∈ stage.defined :=
    fun id hid => h.mem_defined_of_mem_inputs hrelation hid
  simp only [Option.isSome_iff_exists] at hready
  cases relation with
  | split parent outer inner size =>
      simp only [Relation.inputs, Relation.outputs, List.mem_cons, List.not_mem_nil, or_false,
        forall_eq, forall_eq_or_imp] at hinput hready
      obtain ⟨⟨outerOverruns, houter⟩, innerOverruns, hinner⟩ := hready
      obtain ⟨parentRange, hparent⟩ := hranges parent hinput
      obtain ⟨exactly, hexactly⟩ : ∃ exactly,
          stage.coversExactly ranges facts parent outer inner = .ok exactly := by
        rw [coversExactly]
        split
        · exact ⟨_, by rw [require_eq_ok hparent, ok_bind]; rfl⟩
        · exact ⟨_, rfl⟩
      have hapart := h.apart _ hrelation parent (by simp [Relation.inputs])
      simp only [Relation.outputs, List.mem_cons, List.not_mem_nil, or_false, not_or] at hapart
      refine ⟨state.insert parent (outerOverruns || innerOverruns || !exactly), ?_,
        .insert (hstate.insert hinput _) rfl fun hflag => ?_⟩
      · simp only [liftOverrun, require_eq_ok houter, require_eq_ok hinner, hexactly, ok_bind]
        cases outerOverruns <;> cases innerOverruns <;> rfl
      · rw [IterMap.get?_insert, if_neg (Ne.symm hapart.1), houter, Option.some.injEq] at hflag
        rw [IterMap.get?_insert, if_pos rfl, hflag, Bool.true_or, Bool.true_or]
  | fuse outer inner fused =>
      simp only [Relation.inputs, Relation.outputs, List.mem_cons, List.not_mem_nil, or_false,
        forall_eq, forall_eq_or_imp] at hinput hready
      obtain ⟨overruns, hfused⟩ := hready
      refine ⟨(state.insert outer overruns).insert inner overruns, ?_,
        .insert_insert ((hstate.insert hinput.1 _).insert hinput.2 _) rfl trivial⟩
      simp only [liftOverrun, require_eq_ok hfused, ok_bind]
      rfl
  | rebase parent rebased =>
      simp only [Relation.inputs, Relation.outputs, List.mem_singleton, forall_eq]
        at hinput hready
      obtain ⟨overruns, hrebased⟩ := hready
      refine ⟨state.insert parent overruns, ?_, .insert (hstate.insert hinput _) rfl trivial⟩
      simp only [liftOverrun, require_eq_ok hrebased, ok_bind]
      rfl
  | singleton iter =>
      exact ⟨state, rfl, hstate, by simp [Relation.inputs], fun _ _ => rfl, by simp [OverrunsRise]⟩

/-- It can be decided for all loops whether they overrun, only loops do, and flags rise from
outer loops. -/
theorem Linked.overrunsUp_ok (h : stage.Linked) (hranges : stage.HasRanges ranges)
    (facts : Facts) :
    ∃ overruns, stage.overrunsUp ranges facts stage.leafOverruns = .ok overruns ∧
      stage.FlagsOnLoops overruns ∧
      ∀ relation ∈ stage.relations, OverrunsRise overruns.get? relation := by
  have hleaves : ∀ id, stage.leafOverruns.get? id = if id ∈ stage.leaves then some false
      else none := fun id => IterMap.get?_ofList_map _ _ _
  have hstart : stage.FlagsOnLoops stage.leafOverruns := by
    intro id hid
    rw [hleaves] at hid
    split at hid
    · exact h.mem_defined_of_mem_leaves ‹_›
    · cases hid
  have hstep : ∀ state, ∀ relation ∈ stage.relations, stage.FlagsOnLoops state →
      (∀ id ∈ relation.outputs, (state.get? id).isSome) →
      ∃ next, Halt.atomically (stage.liftOverrun ranges facts) state relation = .ok next ∧
        Writes IterMap.get? stage.FlagsOnLoops OverrunsRise [relation] relation.inputs state
          next := by
    intro state relation hrelation hstate hready
    obtain ⟨next, hnext, hwrites⟩ := h.liftOverrun_ok hranges facts hrelation hstate hready
    exact ⟨next, by rw [Halt.atomically, hnext, Halt.keeping_ok], hwrites⟩
  obtain ⟨overruns, hflow, hwrites⟩ := h.flowUp_ok isLocal_overrunsRise hstep hstart
    fun id hid => by rw [hleaves, if_pos hid]; rfl
  exact ⟨overruns, hflow, hwrites.invariant, hwrites.conditions⟩

end Stage

namespace GuardContext

variable (context : GuardContext)

theorem provablyBelow_total (h : context.stage.RangesKnown context.ranges)
    (value extent : Expr) : ∃ below, context.provablyBelow value extent = .ok below := by
  unfold provablyBelow
  split
  · exact ⟨_, rfl⟩
  · split
    · exact ⟨_, rfl⟩
    · split
      · exact ⟨_, rfl⟩
      · exact h.belowUnderWorkloads_ok value extent _

variable (h : context.stage.RangesKnown context.ranges)
  (hranges : context.stage.HasRanges context.ranges)
  (hindices : ∀ id ∈ context.stage.defined, ∃ index, context.indices.get? id = some index)
include h hranges hindices

/-- One variable: what is needed to guard it by its inferred range is there. -/
theorem guardOverrun_total (policy : GuardPolicy) {overruns : IterMap Bool}
    (hflags : context.stage.FlagsOnLoops overruns) (guards : Guards) (entry : IterId × IterVar) :
    ∃ next, context.guardOverrun policy overruns guards entry = .ok next := by
  obtain ⟨id, iv⟩ := entry
  simp only [guardOverrun]
  split
  · exact ⟨_, rfl⟩
  · rename_i hguarded
    have hflag : overruns.getDefault id = true := by simp at hguarded; exact hguarded.2
    have hloop : id ∈ context.stage.defined := by
      refine hflags id ?_
      rw [IterMap.getDefault] at hflag
      cases hget : overruns.get? id with
      | none => rw [hget] at hflag; cases hflag
      | some flag => rfl
    obtain ⟨range, hrange⟩ := hranges id hloop
    obtain ⟨index, hindex⟩ := hindices id hloop
    obtain ⟨below, hbelow⟩ := context.provablyBelow_total h (index.sub range.min) range.extent
    simp only [rangeOf, distanceFrom, Stage.require_eq_ok hrange, Stage.require_eq_ok hindex,
      hbelow, ok_bind, pure_bind]
    split <;> exact ⟨_, rfl⟩

/-- One root: what is needed to guard it by its declared range is there. -/
theorem guardDeclared_total (policy : GuardPolicy) (predicates : List Expr) {root : IterId}
    (hroot : root ∈ context.stage.roots) (hvars : context.stage.HasVars) :
    ∃ next, context.guardDeclared policy predicates root = .ok next := by
  have hloop := Stage.mem_defined_of_mem_roots hroot
  obtain ⟨iv, hiv⟩ := hvars root hloop
  obtain ⟨range, hrange⟩ := hranges root hloop
  obtain ⟨index, hindex⟩ := hindices root hloop
  simp only [guardDeclared]
  split
  · exact ⟨_, rfl⟩
  · simp only [Stage.iterVar_eq_ok hiv, ok_bind]
    split
    · exact ⟨_, rfl⟩
    · rename_i declared _
      obtain ⟨below, hbelow⟩ := context.provablyBelow_total h (index.sub declared.min) declared.extent
      simp only [rangeOf, distanceFrom, Stage.require_eq_ok hrange, Stage.require_eq_ok hindex,
        hbelow, ok_bind, pure_bind]
      split
      · exact ⟨_, rfl⟩
      · split <;> exact ⟨_, rfl⟩

end GuardContext

namespace Stage

variable {stage : Stage} {ranges : IterMap Range} {indices : IterMap Expr}

/-- Guards can be generated under every policy, once all loops have ranges and indices. -/
theorem Linked.guards_ok (h : stage.Linked) (hvars : stage.HasVars)
    (hranges : stage.HasRanges ranges) (hknown : stage.RangesKnown ranges)
    (hindices : ∀ id ∈ stage.defined, ∃ index, indices.get? id = some index)
    (policy : GuardPolicy) : ∃ predicates, stage.guards ranges indices policy = .ok predicates := by
  obtain ⟨known, hfacts⟩ := hknown.rangedFacts_ok fun _ range => range
  obtain ⟨overruns, hflow, hflags, -⟩ := h.overrunsUp_ok hranges known.facts
  let context : GuardContext := ⟨stage, ranges, indices, known⟩
  obtain ⟨guards, hguards⟩ := foldlM_total (fun guards entry (_ : entry ∈ stage.entries) =>
    context.guardOverrun_total hknown hranges hindices policy hflags guards entry) ⟨[], []⟩
  obtain ⟨predicates, hpredicates⟩ := foldlM_total (fun before root hroot =>
    context.guardDeclared_total hknown hranges hindices policy before hroot hvars)
    guards.predicates
  rw [Stage.guards, hfacts, ok_bind, hflow]
  simp only [Except.mapError, ok_bind]
  rw [hguards, ok_bind]
  split
  · exact ⟨_, rfl⟩
  · exact ⟨predicates, hpredicates⟩

end Stage

end LoopNest
