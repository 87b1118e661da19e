/-
# Linked stages

A stage is linked when every loop that it defines has one origin, which is a root or the
relation that makes it, and one fate, which is a leaf or the relation that consumes it.
No relation consumes what it or a later relation makes, so each relation may be taken to
come after its inputs and before its outputs.

Everything that flows through a stage uses no more than that. A property passes from the
leaves to all loops when every relation passes it up, and from the roots to all loops
when every relation passes it down.
-/

import Mathlib.Data.List.Induction
import Mathlib.Data.List.Nodup
import Mathlib.Data.List.Perm.Basic
import LoopNest.Stage.Basic

namespace LoopNest

namespace Stage

variable {stage : Stage} {before after : List Relation} {relation : Relation} {id : IterId}

/-- The loops of a stage: its roots and what its relations make. -/
def defined (stage : Stage) : List IterId :=
  stage.roots ++ stage.relations.flatMap Relation.outputs

/-- The loops that the relations of a stage consume. -/
def consumed (stage : Stage) : List IterId :=
  stage.relations.flatMap Relation.inputs

theorem mem_defined_of_mem_roots (hroot : id ∈ stage.roots) : id ∈ stage.defined :=
  List.mem_append_left _ hroot

theorem mem_defined_of_mem_outputs (hrelation : relation ∈ stage.relations)
    (hid : id ∈ relation.outputs) : id ∈ stage.defined :=
  List.mem_append_right _ (List.mem_flatMap.mpr ⟨relation, hrelation, hid⟩)

theorem mem_consumed_of_mem_inputs (hrelation : relation ∈ stage.relations)
    (hid : id ∈ relation.inputs) : id ∈ stage.consumed :=
  List.mem_flatMap.mpr ⟨relation, hrelation, hid⟩

/-- Every loop has one origin and one fate, and relations are in order. -/
structure Linked (stage : Stage) : Prop where
  origin : stage.defined.Nodup
  fate : (stage.leaves ++ stage.consumed).Perm stage.defined
  ordered : stage.relations.Pairwise fun earlier later => ∀ id ∈ earlier.inputs, id ∉ later.outputs
  apart : ∀ relation ∈ stage.relations, ∀ id ∈ relation.inputs, id ∉ relation.outputs

namespace Linked

theorem nodup_fate (h : stage.Linked) : (stage.leaves ++ stage.consumed).Nodup :=
  h.fate.nodup_iff.mpr h.origin

theorem mem_defined_of_mem_leaves (h : stage.Linked) (hleaf : id ∈ stage.leaves) :
    id ∈ stage.defined :=
  h.fate.subset (List.mem_append_left _ hleaf)

theorem mem_defined_of_mem_inputs (h : stage.Linked) (hrelation : relation ∈ stage.relations)
    (hid : id ∈ relation.inputs) : id ∈ stage.defined :=
  h.fate.subset (List.mem_append_right _ (mem_consumed_of_mem_inputs hrelation hid))

theorem mem_defined_of_mem_relation (h : stage.Linked) (hrelation : relation ∈ stage.relations)
    (hid : id ∈ relation.inputs ++ relation.outputs) : id ∈ stage.defined :=
  (List.mem_append.mp hid).elim (h.mem_defined_of_mem_inputs hrelation)
    (mem_defined_of_mem_outputs hrelation)

theorem nodup_roots (h : stage.Linked) : stage.roots.Nodup :=
  (List.nodup_append.mp h.origin).1

theorem nodup_leaves (h : stage.Linked) : stage.leaves.Nodup :=
  (List.nodup_append.mp h.nodup_fate).1

theorem nodup_consumed (h : stage.Linked) : stage.consumed.Nodup :=
  (List.nodup_append.mp h.nodup_fate).2.1

theorem nodup_outputs (h : stage.Linked) (hrelation : relation ∈ stage.relations) :
    relation.outputs.Nodup :=
  (List.nodup_flatMap.mp (List.nodup_append.mp h.origin).2.1).1 relation hrelation

theorem nodup_inputs (h : stage.Linked) (hrelation : relation ∈ stage.relations) :
    relation.inputs.Nodup :=
  (List.nodup_flatMap.mp h.nodup_consumed).1 relation hrelation

/-- A leaf is not consumed. -/
theorem not_mem_consumed_of_mem_leaves (h : stage.Linked) (hleaf : id ∈ stage.leaves) :
    id ∉ stage.consumed :=
  fun hused => (List.nodup_append'.mp h.nodup_fate).2.2 hleaf hused

/-- The leaves are the loops that are not consumed. -/
theorem mem_leaves_iff (h : stage.Linked) :
    id ∈ stage.leaves ↔ id ∈ stage.defined ∧ id ∉ stage.consumed := by
  constructor
  · exact fun hleaf => ⟨h.mem_defined_of_mem_leaves hleaf, h.not_mem_consumed_of_mem_leaves hleaf⟩
  · rintro ⟨hdefined, hunused⟩
    exact (List.mem_append.mp (h.fate.symm.subset hdefined)).resolve_right hunused

/-- A root is not made by a relation. -/
theorem not_mem_roots_of_mem_outputs (h : stage.Linked) (hrelation : relation ∈ stage.relations)
    (hid : id ∈ relation.outputs) : id ∉ stage.roots := by
  intro hroot
  exact (List.nodup_append'.mp h.origin).2.2 hroot (List.mem_flatMap.mpr ⟨relation, hrelation, hid⟩)

/-- What a relation makes is new: no earlier relation makes it. -/
theorem not_mem_outputs_before (h : stage.Linked)
    (hsplit : stage.relations = before ++ relation :: after) (hid : id ∈ relation.outputs) :
    id ∉ before.flatMap Relation.outputs := by
  have hnodup := h.origin
  rw [defined, List.nodup_append', hsplit, List.flatMap_append, List.flatMap_cons,
    List.nodup_append'] at hnodup
  intro hmem
  exact hnodup.2.1.2.2 hmem (List.mem_append_left _ hid)

/-- What a relation consumes no later relation consumes, and it is no leaf. -/
theorem not_mem_fate_after (h : stage.Linked)
    (hsplit : stage.relations = before ++ relation :: after) (hid : id ∈ relation.inputs) :
    id ∉ stage.leaves ∧ id ∉ after.flatMap Relation.inputs := by
  have hnodup := h.nodup_fate
  rw [consumed, List.nodup_append', hsplit, List.flatMap_append, List.flatMap_cons,
    List.nodup_append', List.nodup_append'] at hnodup
  refine ⟨fun hleaf => hnodup.2.2 hleaf ?_, fun hafter => hnodup.2.1.2.1.2.2 hid hafter⟩
  exact List.mem_append_right _ (List.mem_append_left _ hid)

/-- What a relation consumes is a root or made by an earlier relation. -/
theorem mem_origin_before (h : stage.Linked)
    (hsplit : stage.relations = before ++ relation :: after) (hid : id ∈ relation.inputs) :
    id ∈ stage.roots ∨ id ∈ before.flatMap Relation.outputs := by
  have hrelation : relation ∈ stage.relations := by rw [hsplit]; simp
  have horigin := h.mem_defined_of_mem_inputs hrelation hid
  have hordered := h.ordered
  rw [defined, hsplit] at horigin
  rw [hsplit, List.pairwise_append, List.pairwise_cons] at hordered
  simp only [List.flatMap_append, List.flatMap_cons, List.mem_append] at horigin
  rcases horigin with hroot | hbefore | hself | hafter
  · exact .inl hroot
  · exact .inr hbefore
  · exact absurd hself (h.apart relation hrelation id hid)
  · obtain ⟨later, hlater, hmade⟩ := List.mem_flatMap.mp hafter
    exact absurd hmade (hordered.2.1.1 later hlater id hid)

/-- What a relation makes is a leaf or consumed by a later relation. -/
theorem mem_fate_after (h : stage.Linked)
    (hsplit : stage.relations = before ++ relation :: after) (hid : id ∈ relation.outputs) :
    id ∈ stage.leaves ∨ id ∈ after.flatMap Relation.inputs := by
  have hrelation : relation ∈ stage.relations := by rw [hsplit]; simp
  have hfate := h.fate.symm.subset (mem_defined_of_mem_outputs hrelation hid)
  have hordered := h.ordered
  rw [consumed, hsplit] at hfate
  rw [hsplit, List.pairwise_append] at hordered
  simp only [List.flatMap_append, List.flatMap_cons, List.mem_append] at hfate
  rcases hfate with hleaf | hbefore | hself | hafter
  · exact .inl hleaf
  · obtain ⟨earlier, hearlier, hused⟩ := List.mem_flatMap.mp hbefore
    exact absurd hid (hordered.2.2 earlier hearlier relation List.mem_cons_self id hused)
  · exact absurd hid (h.apart relation hrelation id hself)
  · exact .inr hafter

/-- A property of all leaves that every relation passes up holds of all loops. The
induction is on the relations that still have to be undone. -/
theorem induction_up {holds : IterId → Prop} (h : stage.Linked)
    (hleaves : ∀ id ∈ stage.leaves, holds id)
    (hstep : ∀ relation ∈ stage.relations, (∀ id ∈ relation.outputs, holds id) →
      ∀ id ∈ relation.inputs, holds id) :
    ∀ id ∈ stage.defined, holds id := by
  have hafter : ∀ after before, stage.relations = before ++ after →
      ∀ id ∈ after.flatMap Relation.inputs, holds id := by
    intro after
    induction after with
    | nil => simp
    | cons relation rest ih =>
        intro before hsplit
        have hrest := ih (before ++ [relation]) (by rw [hsplit]; simp)
        rw [List.flatMap_cons]
        intro id hid
        rcases List.mem_append.mp hid with hself | hlater
        · refine hstep relation (by rw [hsplit]; simp) (fun made hmade => ?_) id hself
          rcases h.mem_fate_after hsplit hmade with hleaf | hused
          · exact hleaves made hleaf
          · exact hrest made hused
        · exact hrest id hlater
  intro id hid
  rcases List.mem_append.mp (h.fate.symm.subset hid) with hleaf | hused
  · exact hleaves id hleaf
  · exact hafter stage.relations [] rfl id hused

/-- A property of all roots that every relation passes down holds of all loops. The
induction is on the relations that were applied so far. -/
theorem induction_down {holds : IterId → Prop} (h : stage.Linked)
    (hroots : ∀ id ∈ stage.roots, holds id)
    (hstep : ∀ relation ∈ stage.relations, (∀ id ∈ relation.inputs, holds id) →
      ∀ id ∈ relation.outputs, holds id) :
    ∀ id ∈ stage.defined, holds id := by
  have hbefore : ∀ before after, stage.relations = before ++ after →
      ∀ id ∈ before.flatMap Relation.outputs, holds id := by
    intro before
    induction before using List.reverseRecOn with
    | nil => simp
    | append_singleton rest relation ih =>
        intro after hsplit
        have hrest := ih (relation :: after) (by rw [hsplit]; simp)
        intro id hid
        rw [List.flatMap_append, List.flatMap_singleton] at hid
        rcases List.mem_append.mp hid with hearlier | hself
        · exact hrest id hearlier
        · refine hstep relation (by rw [hsplit]; simp) (fun used hused => ?_) id hself
          have hsplit' : stage.relations = rest ++ relation :: after := by rw [hsplit]; simp
          rcases h.mem_origin_before hsplit' hused with hroot | hmade
          · exact hroots used hroot
          · exact hrest used hmade
  intro id hid
  rcases List.mem_append.mp hid with hroot | hmade
  · exact hroots id hroot
  · exact hbefore stage.relations [] (by simp) id hmade

end Linked

section Growth

variable {nest : Stage} {added : List IterId} {relation? : Option Relation}

/-- The loops that come with new roots and at most one new relation. -/
def newLoops (added : List IterId) (relation? : Option Relation) : List IterId :=
  added ++ relation?.toList.flatMap Relation.outputs

/-- One stage is another with more loops: new roots, which are leaves, and at most one new
relation, which puts what it makes among the leaves and takes away what it consumes. -/
structure Grows (stage nest : Stage) (added : List IterId) (relation? : Option Relation) :
    Prop where
  roots : nest.roots = stage.roots ++ added
  relations : nest.relations = stage.relations ++ relation?.toList
  inputs : ∀ relation ∈ relation?, ∀ id ∈ relation.inputs, id ∈ stage.leaves
  leaves : (nest.leaves ++ relation?.toList.flatMap Relation.inputs).Perm
    (stage.leaves ++ newLoops added relation?)

theorem Grows.perm_defined (h : Grows stage nest added relation?) :
    nest.defined.Perm (stage.defined ++ newLoops added relation?) := by
  rw [List.perm_iff_count]
  intro id
  simp only [defined, newLoops, h.roots, h.relations, List.flatMap_append, List.count_append]
  omega

theorem Grows.consumed (h : Grows stage nest added relation?) :
    nest.consumed = stage.consumed ++ relation?.toList.flatMap Relation.inputs := by
  rw [Stage.consumed, h.relations, List.flatMap_append, Stage.consumed]

/-- A linked stage stays so when it grows by loops that it does not have. -/
theorem Linked.grows (h : stage.Linked) (hgrows : Grows stage nest added relation?)
    (hfresh : (stage.defined ++ newLoops added relation?).Nodup) : nest.Linked := by
  have hnew : ∀ relation ∈ relation?, ∀ id ∈ stage.defined, id ∉ relation.outputs := by
    intro relation hrelation id hdefined hid
    apply (List.nodup_append'.mp hfresh).2.2 hdefined
    apply List.mem_append_right
    exact List.mem_flatMap.mpr ⟨relation, Option.mem_toList.mpr hrelation, hid⟩
  refine ⟨hgrows.perm_defined.nodup_iff.mpr hfresh, ?_, ?_, ?_⟩
  · rw [hgrows.consumed]
    have hfate := h.fate
    have hleaves := hgrows.leaves
    have hdefined := hgrows.perm_defined
    rw [List.perm_iff_count] at hfate hleaves hdefined ⊢
    intro id
    have hcount := hfate id
    have hcount' := hleaves id
    have hcount'' := hdefined id
    simp only [List.count_append] at hcount hcount' hcount'' ⊢
    omega
  · rw [hgrows.relations, List.pairwise_append]
    refine ⟨h.ordered, by cases relation? <;> simp, fun earlier hearlier later hlater id hid => ?_⟩
    exact hnew later (Option.mem_toList.mp hlater) id (h.mem_defined_of_mem_inputs hearlier hid)
  · rw [hgrows.relations, List.forall_mem_append]
    refine ⟨h.apart, fun relation hrelation id hid => ?_⟩
    rw [Option.mem_toList] at hrelation
    exact hnew relation hrelation id
      (h.mem_defined_of_mem_leaves (hgrows.inputs relation hrelation id hid))

end Growth

end Stage

end LoopNest
