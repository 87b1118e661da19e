/-
# Ancestry

A loop is derived from another when a chain of relations leads from the other one down to it.
A chain can be taken apart at either end: at the upper one by the relation that consumes where it
starts, at the lower one by the relation that makes where it ends.

In a valid stage the relations are in order, so all that consume what a relation makes come after
it, and no two relations make the same loop. A loop may be consumed by any number of relations,
and nothing here supposes that it is consumed once.
-/

import Mathlib.Data.List.Pairwise
import LoopNest.Proofs.Stage.Validate

namespace LoopNest

namespace Stage

variable {stage : Stage} {before after : List Relation} {relation : Relation}
  {id made used leaf : IterId}

/-- A loop is derived from another when a chain of relations leads down to it. -/
inductive DerivesFrom (stage : Stage) (leaf : IterId) : IterId → Prop
  | refl : DerivesFrom stage leaf leaf
  | step {id made : IterId} (relation : Relation) (mem : relation ∈ stage.relations)
      (consumed : id ∈ relation.inputs) (produced : made ∈ relation.outputs)
      (rest : DerivesFrom stage leaf made) : DerivesFrom stage leaf id

/-- A chain of relations whose first one is among those given leads down to a loop, or the loop
is where it starts. -/
def DerivesThrough (stage : Stage) (relations : List Relation) (id leaf : IterId) : Prop :=
  leaf = id ∨
    ∃ relation ∈ relations, id ∈ relation.inputs ∧ ∃ made ∈ relation.outputs,
      stage.DerivesFrom leaf made

/-- What is derived from a loop is what chains through some relation of the stage lead to. -/
theorem derivesThrough_relations_iff :
    stage.DerivesThrough stage.relations id leaf ↔ stage.DerivesFrom leaf id := by
  constructor
  · rintro (rfl | ⟨relation, hrelation, hused, made, hmade, hrest⟩)
    · exact .refl
    · exact .step relation hrelation hused hmade hrest
  · rintro (_ | ⟨relation, hrelation, hused, hmade, hrest⟩)
    · exact .inl rfl
    · exact .inr ⟨relation, hrelation, hused, _, hmade, hrest⟩

theorem derivesThrough_cons_iff :
    stage.DerivesThrough (relation :: after) id leaf ↔
      stage.DerivesThrough after id leaf ∨
        id ∈ relation.inputs ∧ ∃ made ∈ relation.outputs, stage.DerivesFrom leaf made := by
  rw [DerivesThrough, List.exists_mem_cons_iff, or_left_comm, or_comm]
  rfl

/-- A chain that ends in a loop goes on with any relation that consumes the loop. -/
theorem DerivesFrom.extend (h : stage.DerivesFrom used id) (hrelation : relation ∈ stage.relations)
    (hused : used ∈ relation.inputs) (hmade : made ∈ relation.outputs) :
    stage.DerivesFrom made id := by
  induction h with
  | refl => exact .step relation hrelation hused hmade .refl
  | step first hfirst hconsumed hproduced _ ih => exact .step first hfirst hconsumed hproduced ih

/-- A chain that does not end where it starts has a last relation. -/
theorem DerivesFrom.eq_or_exists_last (h : stage.DerivesFrom leaf id) :
    leaf = id ∨ ∃ relation ∈ stage.relations, leaf ∈ relation.outputs ∧
      ∃ used ∈ relation.inputs, stage.DerivesFrom used id := by
  induction h with
  | refl => exact .inl rfl
  | step first hfirst hconsumed hproduced _ ih =>
      rcases ih with rfl | ⟨last, hlast, hleaf, used, hused, hrest⟩
      · exact .inr ⟨first, hfirst, hproduced, _, hconsumed, .refl⟩
      · exact .inr ⟨last, hlast, hleaf, used, hused,
          .step first hfirst hconsumed hproduced hrest⟩

namespace Ordered

/-- Nothing is made both before a place among the relations and after it. -/
theorem disjoint_outputs (h : stage.Ordered) (hsplit : stage.relations = before ++ after) :
    (before.flatMap Relation.outputs).Disjoint (after.flatMap Relation.outputs) := by
  have hnodup := h.nodup
  rw [hsplit, List.flatMap_append, List.nodup_append'] at hnodup
  exact hnodup.2.2

/-- A relation consumes nothing that it or a later relation makes. -/
theorem not_mem_outputs_of_mem_inputs (h : stage.Ordered)
    (hsplit : stage.relations = before ++ relation :: after) (hid : id ∈ relation.inputs) :
    id ∉ (relation :: after).flatMap Relation.outputs := by
  intro hlater
  rcases (h.inputs before relation after hsplit id hid).2 with hroot | hearlier
  · refine (h.outputs id ?_).2 hroot
    rw [hsplit, List.flatMap_append]
    exact List.mem_append_right _ hlater
  · exact h.disjoint_outputs hsplit hearlier hlater

/-- What a relation makes is consumed by later relations only. -/
theorem mem_after_of_mem_inputs (h : stage.Ordered)
    (hsplit : stage.relations = before ++ relation :: after) (hmade : made ∈ relation.outputs)
    {user : Relation} (huser : user ∈ stage.relations) (hused : made ∈ user.inputs) :
    user ∈ after := by
  rw [hsplit, List.mem_append, List.mem_cons] at huser
  rcases huser with hearlier | rfl | hlater
  · obtain ⟨first, rest, rfl⟩ := List.append_of_mem hearlier
    have hunmade : made ∉ (user :: (rest ++ relation :: after)).flatMap Relation.outputs :=
      h.not_mem_outputs_of_mem_inputs (by rw [hsplit, List.append_assoc, List.cons_append]) hused
    exact absurd (List.mem_flatMap.mpr ⟨relation, by simp, hmade⟩) hunmade
  · exact absurd (List.mem_flatMap.mpr ⟨user, List.mem_cons_self, hmade⟩)
      (h.not_mem_outputs_of_mem_inputs hsplit hused)
  · exact hlater

/-- No two relations make the same loop. -/
theorem eq_of_mem_outputs (h : stage.Ordered) {maker : Relation} (hmaker : maker ∈ stage.relations)
    (hid : id ∈ maker.outputs) (hrelation : relation ∈ stage.relations)
    (hid' : id ∈ relation.outputs) : maker = relation := by
  by_contra hne
  have : Std.Symm (Function.onFun List.Disjoint Relation.outputs) :=
    ⟨fun _ _ hapart => List.disjoint_symm hapart⟩
  exact (List.nodup_flatMap.mp h.nodup).2.forall hmaker hrelation hne hid hid'

/-- All that is derived from what a relation makes is derived through later relations. -/
theorem derivesThrough_after_iff (h : stage.Ordered)
    (hsplit : stage.relations = before ++ relation :: after) (hmade : made ∈ relation.outputs) :
    stage.DerivesThrough after made leaf ↔ stage.DerivesFrom leaf made := by
  rw [← derivesThrough_relations_iff]
  refine or_congr_right (exists_congr fun user => ⟨fun ⟨huser, hrest⟩ => ⟨?_, hrest⟩,
    fun ⟨huser, hrest⟩ => ⟨h.mem_after_of_mem_inputs hsplit hmade huser hrest.1, hrest⟩⟩)
  rw [hsplit]
  exact List.mem_append_right _ (List.mem_cons_of_mem _ huser)

/-- What a relation makes is derived from what the relation consumes, and from what that is
derived from. -/
theorem derivesFrom_output_iff (h : stage.Ordered) (hrelation : relation ∈ stage.relations)
    (hmade : made ∈ relation.outputs) :
    stage.DerivesFrom made id ↔
      made = id ∨ ∃ used ∈ relation.inputs, stage.DerivesFrom used id := by
  constructor
  · intro hchain
    rcases hchain.eq_or_exists_last with heq | ⟨last, hlast, hmade', used, hused, hrest⟩
    · exact .inl heq
    · obtain rfl := h.eq_of_mem_outputs hlast hmade' hrelation hmade
      exact .inr ⟨used, hused, hrest⟩
  · rintro (rfl | ⟨used, hused, hrest⟩)
    · exact .refl
    · exact hrest.extend hrelation hused hmade

end Ordered

/-- What no relation makes is derived from nothing else. -/
theorem derivesFrom_iff_eq_of_not_mem_outputs
    (hleaf : leaf ∉ stage.relations.flatMap Relation.outputs) :
    stage.DerivesFrom leaf id ↔ leaf = id := by
  constructor
  · intro hchain
    refine hchain.eq_or_exists_last.resolve_right fun ⟨last, hlast, hmade, _⟩ => ?_
    exact hleaf (List.mem_flatMap.mpr ⟨last, hlast, hmade⟩)
  · rintro rfl
    exact .refl

end Stage

end LoopNest
