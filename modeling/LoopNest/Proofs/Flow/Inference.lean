/-
# Inferring ranges

On a linked stage whose roots have ranges, the inference of ranges goes through, whatever
the extents are: every loop gets its range from the one relation that makes it, and nothing
is inferred twice. The range is what the relation computes from the ranges it reads, under
facts that hold the constraints of the start and some ranges.

Threads come last. They may disagree with ranges that are known, and then the inference
fails; if it does not, no range that was known has changed.
-/

import LoopNest.Flow.Ranges
import LoopNest.Proofs.Flow.Passes
import LoopNest.Proofs.Stage.Operations

namespace LoopNest

namespace Inference

variable {state : Inference} {id other : IterId} {v : Var} {range : Range}

@[simp] theorem get?_insert :
    (state.insert id v range).ranges.get? other =
      if other = id then some range else state.ranges.get? other :=
  IterMap.get?_insert _ _ _ _

@[simp] theorem constraints_insert :
    (state.insert id v range).facts.constraints = state.facts.constraints := rfl

end Inference

namespace Stage

variable {stage : Stage} {state next inferred : Inference} {relation : Relation} {id : IterId}
  {iv : IterVar} {range : Range} {constraints : List Expr} {holds : Inference → Prop}

/-- Every loop is an iteration variable of the stage. -/
def HasVars (stage : Stage) : Prop :=
  ∀ id ∈ stage.defined, ∃ iv, stage.iterVar? id = some iv

/-- What a relation makes has the ranges that are inferred from those of what it consumes,
under facts with the given constraints. -/
def RangesInferred (stage : Stage) (constraints : List Expr) (ranges : IterId → Option Range) :
    Relation → Prop
  | .split parent outer inner size => ∀ parentRange, ranges parent = some parentRange →
    ∃ facts : Facts, facts.constraints = constraints ∧
      let loops := fixedAndDerived outer inner size
      let keep := parentRange.extent.isZero || stage.threadDominance.getDefault loops.1
      let made := splitRanges facts parentRange.extent size.extent keep
      ranges loops.1 = some made.1 ∧ ranges loops.2 = some made.2
  | .fuse outer inner fused => ∀ outerRange innerRange,
    ranges outer = some outerRange → ranges inner = some innerRange →
      ∃ facts : Facts, facts.constraints = constraints ∧
        ranges fused = some (.ofExtent (facts.simplify (outerRange.extent.mul innerRange.extent)))
  | .rebase parent rebased => ∀ parentRange, ranges parent = some parentRange →
    ranges rebased = some (.ofExtent parentRange.extent)
  | .singleton iter => ∃ iv, stage.iterVar? iter = some iv ∧
    ranges iter = some (.constant iv.dtype 1)

theorem isLocal_rangesInferred (stage : Stage) (constraints : List Expr) :
    IsLocal (stage.RangesInferred constraints) := by
  intro relation left right hsame hinferred
  have hread : ∀ id ∈ relation.inputs ++ relation.outputs, right id = left id :=
    fun id hid => (hsame id hid).symm
  cases relation with
  | split parent outer inner size =>
      simp only [Relation.inputs, Relation.outputs, List.cons_append, List.nil_append,
        List.forall_mem_cons] at hread
      cases size <;> simpa [RangesInferred, fixedAndDerived, hread] using hinferred
  | fuse | rebase =>
      simp only [Relation.inputs, Relation.outputs, List.cons_append, List.nil_append,
        List.forall_mem_cons] at hread
      simpa [RangesInferred, hread] using hinferred
  | singleton iter =>
      obtain ⟨iv, hiv, hrange⟩ := hinferred
      exact ⟨iv, hiv, (hread iter (by simp [Relation.outputs])).trans hrange⟩

section Split

/-- A split makes the loop whose extent is given and the loop whose extent follows. -/
theorem mem_outputs_split_iff (parent outer inner : IterId) (size : SplitSize) (id : IterId) :
    id ∈ (Relation.split parent outer inner size).outputs ↔
      id = (fixedAndDerived outer inner size).1 ∨ id = (fixedAndDerived outer inner size).2 := by
  cases size <;> simp [Relation.outputs, fixedAndDerived, or_comm]

theorem derived_ne_fixed {parent outer inner : IterId} {size : SplitSize}
    (hnodup : (Relation.split parent outer inner size).outputs.Nodup) :
    (fixedAndDerived outer inner size).2 ≠ (fixedAndDerived outer inner size).1 := by
  simp only [Relation.outputs, List.nodup_cons, List.mem_singleton] at hnodup
  cases size with
  | factor factor => exact hnodup.1
  | parts parts => exact Ne.symm hnodup.1

end Split

section Step

/-- A variable that has no range gets one. -/
theorem recordRange_new (hiv : stage.iterVar? id = some iv) (hnew : state.ranges.get? id = none) :
    stage.recordRange state id range = .ok (state.insert id iv.var range) := by
  rw [recordRange, hnew, iterVar_eq_ok hiv]
  rfl

/-- A property of inferences that new ranges keep. -/
def KeptByRanges (stage : Stage) (holds : Inference → Prop) : Prop :=
  ∀ {state id iv} (range : Range), holds state → stage.iterVar? id = some iv →
    state.ranges.get? id = none → holds (state.insert id iv.var range)

variable (hkept : stage.KeptByRanges holds)

/-- The constraints at the start, and a property that new ranges keep. -/
def Starts (constraints : List Expr) (holds : Inference → Prop) (state : Inference) : Prop :=
  state.facts.constraints = constraints ∧ holds state

include hkept

/-- A relation that makes one loop is dealt with by recording the range of the loop. -/
theorem writes_insert (hstate : Starts constraints holds state)
    (hiv : stage.iterVar? id = some iv) (hnew : state.ranges.get? id = none)
    (houtputs : relation.outputs = [id])
    (hinferred : stage.RangesInferred constraints (state.insert id iv.var range).ranges.get?
      relation) :
    Writes (fun state => state.ranges.get?) (Starts constraints holds)
      (stage.RangesInferred constraints) [relation] relation.outputs state
      (state.insert id iv.var range) := by
  refine ⟨⟨hstate.1, hkept range hstate.2 hiv hnew⟩, ?_, fun other hother => ?_,
    by simpa using hinferred⟩
  · rw [houtputs, List.forall_mem_singleton, Inference.get?_insert, if_pos rfl]
    rfl
  · rw [houtputs, List.mem_singleton] at hother
    rw [Inference.get?_insert, if_neg hother]

/-- One relation: what it makes gets its ranges. -/
theorem Linked.inferRanges_ok (h : stage.Linked) (hvars : stage.HasVars)
    (hrelation : relation ∈ stage.relations) (hstate : Starts constraints holds state)
    (hready : ∀ id ∈ relation.inputs, (state.ranges.get? id).isSome)
    (hnew : ∀ id ∈ relation.outputs, state.ranges.get? id = none) :
    ∃ next, stage.inferRanges stage.threadDominance false state relation = .ok next ∧
      Writes (fun state => state.ranges.get?) (Starts constraints holds)
        (stage.RangesInferred constraints) [relation] relation.outputs state next := by
  have hvar : ∀ id ∈ relation.outputs, ∃ iv, stage.iterVar? id = some iv :=
    fun id hid => hvars id (mem_defined_of_mem_outputs hrelation hid)
  have hapart := h.apart relation hrelation
  have hnodup := h.nodup_outputs hrelation
  cases relation with
  | split parent outer inner size =>
      have houtputs := mem_outputs_split_iff parent outer inner size
      have hne := derived_ne_fixed hnodup
      generalize hloops : fixedAndDerived outer inner size = loops at houtputs hne
      obtain ⟨fixed, derived⟩ := loops
      simp only [houtputs, forall_eq_or_imp, forall_eq, not_or, Relation.inputs,
        List.mem_singleton] at hnew hvar hapart hready
      obtain ⟨parentRange, hparent⟩ := Option.isSome_iff_exists.mp hready
      obtain ⟨⟨fixedVar, hfixed⟩, derivedVar, hderived⟩ := hvar
      let keep := parentRange.extent.isZero || stage.threadDominance.getDefault fixed
      let made := splitRanges state.facts parentRange.extent size.extent keep
      have hsecond : (state.insert fixed fixedVar.var made.1).ranges.get? derived = none := by
        rw [Inference.get?_insert, if_neg hne, hnew.2]
      refine ⟨(state.insert fixed fixedVar.var made.1).insert derived derivedVar.var made.2, ?_,
        ⟨hstate.1, hkept _ (hkept _ hstate.2 hfixed hnew.1) hderived hsecond⟩, fun id hid => ?_,
        fun other hother => ?_, ?_⟩
      · simp only [inferRanges, read?, hparent, Halt.keeping_ok, ok_bind, hloops, Bool.false_or]
        rw [recordRange_new hfixed hnew.1, Halt.keeping_ok, ok_bind,
          recordRange_new hderived hsecond, Halt.keeping_ok]
      · rcases (houtputs id).mp hid with rfl | rfl <;> simp [Ne.symm hne]
      · rw [houtputs, not_or] at hother
        rw [Inference.get?_insert, if_neg hother.2, Inference.get?_insert, if_neg hother.1]
      · rw [List.forall_mem_singleton]
        intro range hrange
        simp only [Inference.get?_insert, if_neg hapart.1, if_neg hapart.2, hparent,
          Option.some.injEq] at hrange
        subst hrange
        refine ⟨state.facts, hstate.1, ?_⟩
        simp [hloops, Ne.symm hne, made, keep]
  | fuse outer inner fused =>
      simp only [Relation.inputs, Relation.outputs, List.mem_cons, List.not_mem_nil, or_false,
        forall_eq, forall_eq_or_imp] at hnew hvar hapart hready
      obtain ⟨outerRange, houter⟩ := Option.isSome_iff_exists.mp hready.1
      obtain ⟨innerRange, hinner⟩ := Option.isSome_iff_exists.mp hready.2
      obtain ⟨iv, hiv⟩ := hvar
      let product := state.facts.simplify (outerRange.extent.mul innerRange.extent)
      refine ⟨state.insert fused iv.var (.ofExtent product), ?_,
        writes_insert hkept hstate hiv hnew rfl ?_⟩
      · simp only [inferRanges, readBoth?, houter, hinner, Halt.keeping, ok_bind,
          iterVar_eq_ok hiv]
        rfl
      · intro outerRange' innerRange' hfirst hsecond
        simp only [Inference.get?_insert, hapart, if_false, houter, hinner,
          Option.some.injEq] at hfirst hsecond
        subst hfirst hsecond
        exact ⟨state.facts, hstate.1, by simp [product]⟩
  | rebase parent rebased =>
      simp only [Relation.inputs, Relation.outputs, List.mem_singleton, forall_eq]
        at hnew hvar hapart hready
      obtain ⟨parentRange, hparent⟩ := Option.isSome_iff_exists.mp hready
      obtain ⟨iv, hiv⟩ := hvar
      refine ⟨state.insert rebased iv.var (.ofExtent parentRange.extent), ?_,
        writes_insert hkept hstate hiv hnew rfl ?_⟩
      · simp only [inferRanges, read?, hparent, Halt.keeping, ok_bind]
        exact congrArg (Except.mapError _) (recordRange_new hiv hnew)
      · intro range hrange
        simp only [Inference.get?_insert, hapart, if_false, hparent, Option.some.injEq] at hrange
        simp [hrange]
  | singleton iter =>
      simp only [Relation.outputs, List.mem_singleton, forall_eq] at hnew hvar
      obtain ⟨iv, hiv⟩ := hvar
      refine ⟨state.insert iter iv.var (.constant iv.dtype 1), ?_,
        writes_insert hkept hstate hiv hnew rfl ⟨iv, hiv, ?_⟩⟩
      · simp only [inferRanges, iterVar_eq_ok hiv, Halt.keeping, ok_bind]
        exact congrArg (Except.mapError _) (recordRange_new hiv hnew)
      · rw [Inference.get?_insert, if_pos rfl]

/-- All relations: every loop gets its range. -/
theorem Linked.inferFlow_ok (h : stage.Linked) (hvars : stage.HasVars)
    (hstate : Starts constraints holds state)
    (hroots : ∀ root ∈ stage.roots, (state.ranges.get? root).isSome)
    (hnew : ∀ id ∈ stage.relations.flatMap Relation.outputs, state.ranges.get? id = none) :
    ∃ flowed, stage.flowDown (stage.inferRanges stage.threadDominance false) state = .ok flowed ∧
      Writes (fun state => state.ranges.get?) (Starts constraints holds)
        (stage.RangesInferred constraints) stage.relations
        (stage.relations.flatMap Relation.outputs) state flowed :=
  h.flowDown_ok (isLocal_rangesInferred stage constraints)
    (fun _ _ hrelation hstate hready hnew =>
      h.inferRanges_ok hkept hvars hrelation hstate hready hnew) hstate hroots hnew

end Step

section Threads

/-- Recording a range changes no range that is known. -/
theorem recordRange_keeps (h : stage.recordRange state id range = .ok next) :
    next.facts.constraints = state.facts.constraints ∧
      ∀ other known, state.ranges.get? other = some known →
        next.ranges.get? other = some known := by
  unfold recordRange at h
  split at h
  · rename_i hnone
    obtain ⟨iv, -, hnext⟩ := bind_eq_ok.mp h
    obtain rfl := Except.ok.inj hnext
    refine ⟨rfl, fun other known hknown => ?_⟩
    rw [Inference.get?_insert, if_neg, hknown]
    rintro rfl
    rw [hnone] at hknown
    cases hknown
  · split at h
    · obtain rfl := Except.ok.inj h
      exact ⟨rfl, fun _ _ hknown => hknown⟩
    · cases h

theorem Halt.keeping_eq_ok {σ α : Type} {state : σ} {result : Except StageError α} {value : α} :
    Halt.keeping state result = .ok value ↔ result = .ok value := by
  cases result <;> simp [Halt.keeping, Except.mapError]

/-- Neither do the ranges of threads. The induction is on the bindings. -/
theorem foldlM_inferThreadRange_keeps {lenient : Bool} {bindings : List (IterId × IterId)}
    (h : bindings.foldlM (stage.inferThreadRange lenient) state = .ok inferred) :
    inferred.facts.constraints = state.facts.constraints ∧
      ∀ other known, state.ranges.get? other = some known →
        inferred.ranges.get? other = some known := by
  induction bindings generalizing state with
  | nil =>
      obtain rfl := Except.ok.inj h
      exact ⟨rfl, fun _ _ hknown => hknown⟩
  | cons binding rest ih =>
      rw [List.foldlM_cons, bind_eq_ok] at h
      obtain ⟨next, hnext, hrest⟩ := h
      obtain ⟨found, -, hfound⟩ := bind_eq_ok.mp (Halt.keeping_eq_ok.mp hnext)
      obtain ⟨hconstraints, hkeeps⟩ := ih hrest
      cases found with
      | none =>
          obtain rfl := Except.ok.inj hfound
          exact ⟨hconstraints, hkeeps⟩
      | some range =>
          obtain ⟨hconstraints', hkeeps'⟩ := recordRange_keeps hfound
          exact ⟨hconstraints.trans hconstraints', fun other known hknown =>
            hkeeps other known (hkeeps' other known hknown)⟩

end Threads

/-- What is known when the inference of ranges has succeeded. -/
structure InfersFrom (stage : Stage) (state inferred : Inference) : Prop where
  constraints : inferred.facts.constraints = state.facts.constraints
  known : ∀ id ∈ stage.defined, (inferred.ranges.get? id).isSome
  roots : ∀ root ∈ stage.roots, inferred.ranges.get? root = state.ranges.get? root
  relations : ∀ relation ∈ stage.relations,
    stage.RangesInferred state.facts.constraints inferred.ranges.get? relation

theorem Linked.infersFrom (h : stage.Linked) (hvars : stage.HasVars)
    (hroots : ∀ root ∈ stage.roots, (state.ranges.get? root).isSome)
    (hnew : ∀ id ∈ stage.relations.flatMap Relation.outputs, state.ranges.get? id = none)
    (hdown : stage.rangesDown false state = .ok inferred) : stage.InfersFrom state inferred := by
  have hkept : stage.KeptByRanges fun _ => True := fun _ _ _ _ => trivial
  obtain ⟨flowed, hflow, hwrites⟩ := h.inferFlow_ok hkept hvars ⟨rfl, trivial⟩ hroots hnew
  rw [rangesDown, hflow, ok_bind] at hdown
  obtain ⟨hconstraints, hkeeps⟩ := foldlM_inferThreadRange_keeps hdown
  have hroot : ∀ root ∈ stage.roots, flowed.ranges.get? root = state.ranges.get? root :=
    fun root hroot => hwrites.frame root fun hmade => by
      obtain ⟨relation, hrelation, houtput⟩ := List.mem_flatMap.mp hmade
      exact h.not_mem_roots_of_mem_outputs hrelation houtput hroot
  have hknown : ∀ id ∈ stage.defined, (flowed.ranges.get? id).isSome := by
    intro id hid
    rcases List.mem_append.mp hid with hid | hid
    · rw [hroot id hid]
      exact hroots id hid
    · exact hwrites.known id hid
  have hsame : ∀ id ∈ stage.defined, inferred.ranges.get? id = flowed.ranges.get? id := by
    intro id hid
    obtain ⟨range, hrange⟩ := Option.isSome_iff_exists.mp (hknown id hid)
    rw [hkeeps id range hrange, hrange]
  refine ⟨hconstraints.trans hwrites.invariant.1, fun id hid => ?_, fun root hid => ?_,
    fun relation hrelation => ?_⟩
  · rw [hsame id hid]
    exact hknown id hid
  · rw [hsame root (mem_defined_of_mem_roots hid), hroot root hid]
  · exact isLocal_rangesInferred stage _ relation
      (fun id hid => (hsame id (h.mem_defined_of_mem_relation hrelation hid)).symm)
      (hwrites.conditions relation hrelation)

end Stage

end LoopNest
