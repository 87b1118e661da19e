/-
# Lifting sets

On a linked stage the pass upward over sets goes through once every leaf has a set, whatever
the sets are. Each relation finds sets for what it consumes from those of what it makes: the
whole range where these fill their ranges, and otherwise the set that interval arithmetic or
the projection onto rows gives. As for indices, what the pass has written is described by one
equation for each relation.
-/

import LoopNest.Flow.Accesses
import LoopNest.Proofs.Flow.Reconstruct

namespace LoopNest

/-- The index of a split loop over the variables of the two loops that are made of it. -/
def splitIndex (outer inner : Var) (innerRange parentRange : Range) : Expr :=
  (((Expr.var outer).mul innerRange.extent).add (.var inner)).add parentRange.min

namespace Stage

variable {stage : Stage} {ranges : IterMap Range} {relation : Relation} {facts : Facts}
  {state : Accesses}

section Pass

/-- What a relation consumes has the sets that are found from those of what it makes. -/
def AccessesLifted (stage : Stage) (ranges : IterMap Range) (facts : Facts)
    (sets : IterId → Option ValueSet) : Relation → Prop
  | .split parent outer inner _ =>
    ∀ outerSet innerSet outerRange innerRange parentRange outerVar innerVar,
      sets outer = some outerSet → sets inner = some innerSet →
      ranges.get? outer = some outerRange → ranges.get? inner = some innerRange →
      ranges.get? parent = some parentRange →
      stage.iterVar? outer = some outerVar → stage.iterVar? inner = some innerVar →
        sets parent = some
          (if outerSet.fills outerRange facts && innerSet.fills innerRange facts then
            .ofRange parentRange
          else facts.values (splitIndex outerVar.var innerVar.var innerRange parentRange)
            ((Domains.empty.insert outerVar.var outerSet).insert innerVar.var innerSet))
  | .fuse outer inner fused => ∀ fusedSet outerRange innerRange fusedRange,
    sets fused = some fusedSet → ranges.get? outer = some outerRange →
      ranges.get? inner = some innerRange → ranges.get? fused = some fusedRange →
        sets outer = some (if fusedSet.fills fusedRange facts then .ofRange outerRange
            else (facts.projectFused fusedSet outerRange innerRange).outer) ∧
          sets inner = some (if fusedSet.fills fusedRange facts then .ofRange innerRange
            else (facts.projectFused fusedSet outerRange innerRange).inner)
  | .rebase parent rebased => ∀ rebasedSet rebasedRange parentRange rebasedVar,
    sets rebased = some rebasedSet → ranges.get? rebased = some rebasedRange →
      ranges.get? parent = some parentRange → stage.iterVar? rebased = some rebasedVar →
        sets parent = some (if rebasedSet.fills rebasedRange facts then .ofRange parentRange
          else facts.values ((Expr.var rebasedVar.var).add parentRange.min)
            (Domains.empty.insert rebasedVar.var rebasedSet))
  | .singleton _ => True

theorem isLocal_accessesLifted (stage : Stage) (ranges : IterMap Range) (facts : Facts) :
    IsLocal (stage.AccessesLifted ranges facts) := by
  intro relation left right hsame hlifted
  have hread : ∀ id ∈ relation.inputs ++ relation.outputs, right id = left id :=
    fun id hid => (hsame id hid).symm
  cases relation with
  | split | fuse | rebase =>
      simp only [Relation.inputs, Relation.outputs, List.cons_append, List.nil_append,
        List.forall_mem_cons] at hread
      simpa only [AccessesLifted, hread] using hlifted
  | singleton iter => trivial

/-- A step that writes sets only. -/
theorem Writes.ofSets {targets : List IterId} {next : Accesses}
    {condition : (IterId → Option ValueSet) → Relation → Prop}
    (h : Writes IterMap.get? (fun _ => True) condition [relation] targets state.sets next.sets) :
    Writes (fun state => state.sets.get?) (fun _ => True) condition [relation] targets state
      next :=
  ⟨trivial, h.known, h.frame, h.conditions⟩

/-- One relation upward. -/
theorem Linked.liftAccesses_ok (h : stage.Linked) (hvars : stage.HasVars)
    (hranges : stage.HasRanges ranges) (facts : Facts) (hrelation : relation ∈ stage.relations)
    (hready : ∀ id ∈ relation.outputs, (state.sets.get? id).isSome) :
    ∃ next, stage.liftAccesses ranges facts state relation = .ok next ∧
      Writes (fun state => state.sets.get?) (fun _ => True) (stage.AccessesLifted ranges facts)
        [relation] relation.inputs state next := by
  have hvar : ∀ id ∈ relation.outputs, ∃ iv, stage.iterVar? id = some iv :=
    fun id hid => hvars id (mem_defined_of_mem_outputs hrelation hid)
  have hinput : ∀ id ∈ relation.inputs, ∃ range, ranges.get? id = some range :=
    fun id hid => hranges id (h.mem_defined_of_mem_inputs hrelation hid)
  have houtput : ∀ id ∈ relation.outputs, ∃ range, ranges.get? id = some range :=
    fun id hid => hranges id (mem_defined_of_mem_outputs hrelation hid)
  have hapart := h.apart relation hrelation
  have hnodup := h.nodup_inputs hrelation
  cases relation with
  | split parent outer inner size =>
      simp only [Relation.inputs, Relation.outputs, List.mem_cons, List.not_mem_nil, or_false,
        not_or, forall_eq, forall_eq_or_imp, Option.isSome_iff_exists] at *
      obtain ⟨⟨outerSet, houterSet⟩, innerSet, hinnerSet⟩ := hready
      obtain ⟨⟨outerVar, houterVar⟩, innerVar, hinnerVar⟩ := hvar
      obtain ⟨parentRange, hparent⟩ := hinput
      obtain ⟨⟨outerRange, houter⟩, innerRange, hinner⟩ := houtput
      let set := if outerSet.fills outerRange facts && innerSet.fills innerRange facts then
          ValueSet.ofRange parentRange
        else facts.values (splitIndex outerVar.var innerVar.var innerRange parentRange)
          ((Domains.empty.insert outerVar.var outerSet).insert innerVar.var innerSet)
      refine ⟨state.insert parent set, ?_, .ofSets (.insert trivial rfl ?_)⟩
      · simp only [liftAccesses, require_eq_ok houterSet, require_eq_ok hinnerSet,
          require_eq_ok houter, require_eq_ok hinner, require_eq_ok hparent,
          iterVar_eq_ok houterVar, iterVar_eq_ok hinnerVar, ok_bind, set]
        split <;> rfl
      · intro outerSet' innerSet' outerRange' innerRange' parentRange' outerVar' innerVar'
        simp only [IterMap.get?_insert, Ne.symm hapart.1, Ne.symm hapart.2, if_false, if_true,
          houterSet, hinnerSet, houter, hinner, hparent, houterVar, hinnerVar, Option.some.injEq]
        rintro rfl rfl rfl rfl rfl rfl rfl
        rfl
  | fuse outer inner fused =>
      simp only [Relation.inputs, Relation.outputs, List.mem_cons, List.not_mem_nil, or_false,
        forall_eq, forall_eq_or_imp, List.nodup_cons, Option.isSome_iff_exists] at *
      obtain ⟨fusedSet, hfusedSet⟩ := hready
      obtain ⟨⟨outerRange, houter⟩, innerRange, hinner⟩ := hinput
      obtain ⟨fusedRange, hfused⟩ := houtput
      let projection := if fusedSet.fills fusedRange facts then
          ⟨.ofRange outerRange, .ofRange innerRange, false⟩
        else facts.projectFused fusedSet outerRange innerRange
      let counted : Accesses :=
        { state with misaligned := state.misaligned + projection.misaligned.toNat }
      refine ⟨(counted.insert outer projection.outer).insert inner projection.inner, ?_,
        .ofSets (.insert_insert trivial rfl ?_)⟩
      · simp only [liftAccesses, require_eq_ok hfusedSet, require_eq_ok houter,
          require_eq_ok hinner, require_eq_ok hfused, ok_bind]
        rfl
      · intro fusedSet' outerRange' innerRange' fusedRange'
        simp only [IterMap.get?_insert, hnodup, Ne.symm hapart.1, Ne.symm hapart.2, if_false,
          if_true, hfusedSet, houter, hinner, hfused, Option.some.injEq]
        rintro rfl rfl rfl rfl
        simp only [projection]
        split <;> exact ⟨rfl, rfl⟩
  | rebase parent rebased =>
      simp only [Relation.inputs, Relation.outputs, List.mem_cons, List.not_mem_nil, or_false,
        forall_eq, Option.isSome_iff_exists] at *
      obtain ⟨rebasedSet, hset⟩ := hready
      obtain ⟨rebasedVar, hrebasedVar⟩ := hvar
      obtain ⟨parentRange, hparent⟩ := hinput
      obtain ⟨rebasedRange, hrebased⟩ := houtput
      let set := if rebasedSet.fills rebasedRange facts then ValueSet.ofRange parentRange
        else facts.values ((Expr.var rebasedVar.var).add parentRange.min)
          (Domains.empty.insert rebasedVar.var rebasedSet)
      refine ⟨state.insert parent set, ?_, .ofSets (.insert trivial rfl ?_)⟩
      · simp only [liftAccesses, require_eq_ok hset, require_eq_ok hrebased,
          require_eq_ok hparent, iterVar_eq_ok hrebasedVar, ok_bind, set]
        split <;> rfl
      · intro rebasedSet' rebasedRange' parentRange' rebasedVar'
        simp only [IterMap.get?_insert, Ne.symm hapart, if_false, if_true, hset, hrebased,
          hparent, hrebasedVar, Option.some.injEq]
        rintro rfl rfl rfl rfl
        rfl
  | singleton iter =>
      refine ⟨state, rfl, trivial, by simp [Relation.inputs], fun _ _ => rfl, ?_⟩
      rw [List.forall_mem_singleton]
      trivial

/-- All relations upward: every loop gets a set, and the leaves keep theirs. -/
theorem Linked.accessesUp_ok (h : stage.Linked) (hvars : stage.HasVars)
    (hranges : stage.HasRanges ranges) (facts : Facts)
    (hleaves : ∀ leaf ∈ stage.leaves, (state.sets.get? leaf).isSome) :
    ∃ final, stage.accessesUp ranges facts state = .ok final ∧
      (∀ leaf ∈ stage.leaves, final.sets.get? leaf = state.sets.get? leaf) ∧
      ∀ relation ∈ stage.relations, stage.AccessesLifted ranges facts final.sets.get? relation := by
  have hstep : ∀ state, ∀ relation ∈ stage.relations, True →
      (∀ id ∈ relation.outputs, (state.sets.get? id).isSome) →
      ∃ next, Halt.atomically (stage.liftAccesses ranges facts) state relation = .ok next ∧
        Writes (fun state => state.sets.get?) (fun _ => True) (stage.AccessesLifted ranges facts)
          [relation] relation.inputs state next := by
    intro state relation hrelation _ hready
    obtain ⟨next, hnext, hwrites⟩ := h.liftAccesses_ok hvars hranges facts hrelation hready
    exact ⟨next, by rw [Halt.atomically, hnext, Halt.keeping_ok], hwrites⟩
  obtain ⟨final, hflow, hwrites⟩ := h.flowUp_ok (isLocal_accessesLifted stage ranges facts) hstep
    trivial hleaves
  refine ⟨final, hflow, fun leaf hleaf => hwrites.frame leaf fun hused => ?_, hwrites.conditions⟩
  have hnodup := h.fate.nodup_iff.mpr h.origin
  exact (List.nodup_append'.mp hnodup).2.2 hleaf hused

end Pass

end Stage

end LoopNest
