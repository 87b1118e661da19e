/-
# Nests

Whatever is derived from loops by scheduling stays a nest: it is linked, and its loops
are exactly the iteration variables that are not threads.
-/

import LoopNest.Proofs.Stage.Linked
import LoopNest.Stage.Schedule

namespace LoopNest

namespace Stage

variable {stage : Stage} {relation : Relation} {id : IterId}

/-- The iteration variables of a stage that are loops and not threads, in order. -/
def loops (stage : Stage) : List IterId :=
  (stage.entries.filter fun entry => decide (entry.2.kind ≠ .thread)).map Prod.fst

theorem mem_entries {entry : IterId × IterVar} :
    entry ∈ stage.entries ↔ stage.iterVar? entry.1 = some entry.2 := by
  obtain ⟨⟨index⟩, iv⟩ := entry
  simp only [entries, List.mem_map, Prod.mk.injEq, Prod.exists, iterVar?]
  constructor
  · rintro ⟨other, position, hmem, hindex, rfl⟩
    obtain rfl : position = index := congrArg IterId.index hindex
    exact List.mem_zipIdx_iff_getElem?.mp hmem
  · intro h
    exact ⟨iv, index, List.mem_zipIdx_iff_getElem?.mpr h, rfl, rfl⟩

theorem mem_loops : id ∈ stage.loops ↔ ∃ iv, stage.iterVar? id = some iv ∧ iv.kind ≠ .thread := by
  simp only [loops, List.mem_map, List.mem_filter, mem_entries, decide_eq_true_eq, Prod.exists]
  constructor
  · rintro ⟨other, iv, ⟨hget, hkind⟩, rfl⟩
    exact ⟨iv, hget, hkind⟩
  · rintro ⟨iv, hget, hkind⟩
    exact ⟨id, iv, ⟨hget, hkind⟩, rfl⟩

theorem nodup_loops (stage : Stage) : stage.loops.Nodup := by
  have hentries : (stage.entries.map Prod.fst).Nodup := by
    have hpositions : (stage.iterVars.zipIdx.map Prod.snd).Nodup := by
      rw [List.zipIdx_map_snd]
      exact List.nodup_range'
    have heq : stage.entries.map Prod.fst = (stage.iterVars.zipIdx.map Prod.snd).map IterId.mk := by
      simp only [entries, List.map_map]
      rfl
    rw [heq]
    exact hpositions.map fun _ _ h => congrArg IterId.index h
  exact hentries.sublist ((List.filter_sublist).map _)

/-- Every loop has one origin and one fate, and relations are in order. -/
structure Nested (stage : Stage) : Prop where
  origin : (stage.roots ++ stage.relations.flatMap Relation.outputs).Perm stage.loops
  fate : (stage.leaves ++ stage.relations.flatMap Relation.inputs).Perm stage.loops
  ordered : stage.relations.Pairwise fun earlier later => ∀ id ∈ earlier.inputs, id ∉ later.outputs
  apart : ∀ relation ∈ stage.relations, ∀ id ∈ relation.inputs, id ∉ relation.outputs

namespace Nested

theorem mem_loops_of_mem_roots (h : stage.Nested) (hroot : id ∈ stage.roots) :
    id ∈ stage.loops :=
  h.origin.subset (List.mem_append_left _ hroot)

theorem mem_loops_of_mem_leaves (h : stage.Nested) (hleaf : id ∈ stage.leaves) :
    id ∈ stage.loops :=
  h.fate.subset (List.mem_append_left _ hleaf)

theorem mem_loops_of_mem_inputs (h : stage.Nested) (hrelation : relation ∈ stage.relations)
    (hid : id ∈ relation.inputs) : id ∈ stage.loops :=
  h.fate.subset (List.mem_append_right _ (List.mem_flatMap.mpr ⟨relation, hrelation, hid⟩))

theorem mem_loops_of_mem_outputs (h : stage.Nested) (hrelation : relation ∈ stage.relations)
    (hid : id ∈ relation.outputs) : id ∈ stage.loops :=
  h.origin.subset (List.mem_append_right _ (List.mem_flatMap.mpr ⟨relation, hrelation, hid⟩))

/-- A nest is linked, and the loops that it defines are those that are not threads. -/
theorem linked (h : stage.Nested) : stage.Linked where
  origin := h.origin.nodup_iff.mpr stage.nodup_loops
  fate := h.fate.trans h.origin.symm
  ordered := h.ordered
  apart := h.apart

/-- The loops of a nest are those that it defines. -/
theorem mem_defined_iff (h : stage.Nested) : id ∈ stage.defined ↔ id ∈ stage.loops :=
  h.origin.mem_iff

/-- A property of all leaves that every relation passes up holds of all loops. -/
theorem induction_up {holds : IterId → Prop} (h : stage.Nested)
    (hleaves : ∀ id ∈ stage.leaves, holds id)
    (hstep : ∀ relation ∈ stage.relations, (∀ id ∈ relation.outputs, holds id) →
      ∀ id ∈ relation.inputs, holds id) :
    ∀ id ∈ stage.loops, holds id :=
  fun id hid => h.linked.induction_up hleaves hstep id (h.origin.symm.subset hid)

/-- A property of all roots that every relation passes down holds of all loops. -/
theorem induction_down {holds : IterId → Prop} (h : stage.Nested)
    (hroots : ∀ id ∈ stage.roots, holds id)
    (hstep : ∀ relation ∈ stage.relations, (∀ id ∈ relation.inputs, holds id) →
      ∀ id ∈ relation.outputs, holds id) :
    ∀ id ∈ stage.loops, holds id :=
  fun id hid => h.linked.induction_down hroots hstep id (h.origin.symm.subset hid)

end Nested

end Stage

end LoopNest
