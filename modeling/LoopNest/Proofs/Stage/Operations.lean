/-
# What operations do

An operation that succeeds appends iteration variables and nothing else to the list of
them, and the stage grows by the loops among these. The lemmas here take an operation apart
once and for all: what was read, what the new stage is, and which loops it gained.
-/

import LoopNest.Proofs.Flow.Passes
import LoopNest.Stage.Schedule

namespace LoopNest

namespace Stage

variable {stage nest : Stage}

section Lookup

variable {id : IterId} {iv : IterVar}

theorem iterVar?_eq_some (h : stage.iterVar id = .ok iv) : stage.iterVar? id = some iv := by
  unfold iterVar at h
  split at h
  · exact Except.ok.inj h ▸ ‹_›
  · cases h

theorem iterVar_eq_ok (h : stage.iterVar? id = some iv) : stage.iterVar id = .ok iv := by
  rw [iterVar, h]

theorem index_lt_size (h : stage.iterVar? id = some iv) : id.index < stage.size :=
  (List.getElem?_eq_some_iff.mp h).1

theorem iterVar?_append {added : List IterVar} (hvars : nest.iterVars = stage.iterVars ++ added)
    (h : stage.iterVar? id = some iv) : nest.iterVar? id = some iv := by
  rw [iterVar?, hvars, List.getElem?_append_left (index_lt_size h)]
  exact h

/-- The positions of a stage, in order. -/
def ids (stage : Stage) : List IterId :=
  (List.range stage.size).map IterId.mk

theorem mem_ids : id ∈ stage.ids ↔ id.index < stage.size := by
  simp only [ids, List.mem_map, List.mem_range]
  constructor
  · rintro ⟨index, hindex, rfl⟩
    exact hindex
  · exact fun hindex => ⟨id.index, hindex, rfl⟩

theorem nodup_ids (stage : Stage) : stage.ids.Nodup :=
  List.nodup_range.map fun _ _ h => congrArg IterId.index h

theorem exists_iterVar_iff : (∃ iv, stage.iterVar id = .ok iv) ↔ id ∈ stage.ids := by
  rw [mem_ids, iterVar, iterVar?, size]
  by_cases hlt : id.index < stage.iterVars.length
  · simp [hlt]
  · simp [hlt]

@[simp] theorem length_ids (stage : Stage) : stage.ids.length = stage.size := by
  rw [ids, List.length_map, List.length_range]

/-- One more variable has the next position. -/
theorem ids_of_append (hvars : nest.iterVars = stage.iterVars ++ [iv]) :
    nest.ids = stage.ids ++ [⟨stage.size⟩] := by
  rw [ids, size, hvars, List.length_append, List.length_singleton, List.range_succ,
    List.map_append, List.map_singleton]
  rfl

/-- The positions are those of before and the new ones. -/
theorem ids_eq_append_drop {added : List IterVar}
    (hvars : nest.iterVars = stage.iterVars ++ added) :
    nest.ids = stage.ids ++ nest.ids.drop stage.size := by
  have hprefix : stage.ids <+: nest.ids := by
    rw [ids, ids, size, size, hvars, List.length_append, List.range_add, List.map_append]
    exact List.prefix_append _ _
  rw [← length_ids]
  exact List.prefix_iff_eq_append.mp hprefix |>.symm

end Lookup

section Leaves

/-- A leaf has a place among the leaves. -/
theorem leaves_eq_of_leafPosition {leaf : IterId} {position : Nat}
    (h : stage.leafPosition leaf = .ok position) :
    leaf ∈ stage.leaves ∧
      stage.leaves = stage.leaves.take position ++ leaf :: stage.leaves.drop (position + 1) := by
  rw [leafPosition, bind_eq_ok] at h
  obtain ⟨iv, -, h⟩ := h
  split at h
  · rename_i found hfound
    obtain rfl : found = position := Except.ok.inj h
    obtain ⟨hlt, hleaf, -⟩ := List.findIdx?_eq_some_iff_getElem.mp hfound
    obtain rfl := of_decide_eq_true hleaf
    refine ⟨List.getElem_mem hlt, ?_⟩
    rw [List.getElem_cons_drop, List.take_append_drop]
  · cases h

/-- Loops that are put into the place of consecutive leaves take their place as a whole. -/
theorem perm_replaceLeaves {position count : Nat} (consumed : List IterId) {made : List IterId}
    (hleaves : stage.leaves =
      stage.leaves.take position ++ (consumed ++ stage.leaves.drop (position + count))) :
    ((stage.replaceLeaves position count made).leaves ++ consumed).Perm
      (stage.leaves ++ made) := by
  conv_rhs => rw [hleaves]
  rw [List.perm_iff_count]
  intro id
  simp only [replaceLeaves, List.count_append]
  omega

end Leaves

section Operations

variable {parent outer inner fused rebased leaf thread : IterId} {size : SplitSize}
  {loops : IterId × IterId} {tag : String}

theorem splitBy_inv (h : stage.splitBy parent size = .ok (loops, nest)) :
    ∃ iv, stage.iterVar? parent = some iv ∧
      let withOuter := (stage.addDerived (iv.name ++ ".outer") iv.dtype iv.kind).2
      let relation := Relation.split parent ⟨stage.size⟩ ⟨withOuter.size⟩ size
      parent ∈ stage.leaves ∧ Grows stage nest [] (some relation) ∧ ∃ position,
        nest = ((withOuter.addDerived (iv.name ++ ".inner") iv.dtype iv.kind).2.replaceLeaves
          position 1 relation.outputs).pushRelation relation := by
  simp only [Stage.splitBy, bind_eq_ok] at h
  obtain ⟨position, hposition, iv, hiv, hnest⟩ := h
  obtain ⟨hleaf, hleaves⟩ := leaves_eq_of_leafPosition hposition
  obtain ⟨-, rfl⟩ := Prod.mk.inj (Except.ok.inj hnest)
  refine ⟨iv, iterVar?_eq_some hiv, hleaf, ⟨?_, rfl, ?_, ?_⟩, position, rfl⟩
  · exact (List.append_nil _).symm
  · simpa [Relation.inputs] using hleaf
  · exact perm_replaceLeaves [parent] hleaves

theorem fuse_inv (h : stage.fuse outer inner = .ok (fused, nest)) :
    ∃ outerVar innerVar, stage.iterVar? outer = some outerVar ∧
      stage.iterVar? inner = some innerVar ∧ outer ∈ stage.leaves ∧ inner ∈ stage.leaves ∧
      let relation := Relation.fuse outer inner ⟨stage.size⟩
      Grows stage nest [] (some relation) ∧ ∃ position,
        nest = ((stage.addDerived (outerVar.name ++ "." ++ innerVar.name ++ ".fused")
          (outerVar.dtype.join innerVar.dtype) (outerVar.kind.fuse innerVar.kind)).2.replaceLeaves
            position 2 relation.outputs).pushRelation relation := by
  simp only [Stage.fuse, bind_eq_ok] at h
  obtain ⟨position, hposition, other, hother, hnest⟩ := h
  obtain ⟨hleaf, hleaves⟩ := leaves_eq_of_leafPosition hposition
  obtain ⟨hleaf', -⟩ := leaves_eq_of_leafPosition hother
  split at hnest
  · rename_i hnext
    simp only [bind_eq_ok] at hnest
    obtain ⟨outerVar, houter, innerVar, hinner, hnest⟩ := hnest
    obtain ⟨-, rfl⟩ := Prod.mk.inj (Except.ok.inj hnest)
    refine ⟨outerVar, innerVar, iterVar?_eq_some houter, iterVar?_eq_some hinner, hleaf, hleaf',
      ⟨?_, rfl, ?_, ?_⟩, position, rfl⟩
    · exact (List.append_nil _).symm
    · simpa [Relation.inputs] using ⟨hleaf, hleaf'⟩
    · obtain ⟨hlt, hget⟩ := List.getElem?_eq_some_iff.mp hnext
      rw [List.drop_eq_getElem_cons hlt, hget] at hleaves
      exact perm_replaceLeaves [outer, inner] hleaves
  · cases hnest

theorem rebase_inv (h : stage.rebase parent = .ok (rebased, nest)) :
    ∃ iv, stage.iterVar? parent = some iv ∧ parent ∈ stage.leaves ∧
      let relation := Relation.rebase parent ⟨stage.size⟩
      Grows stage nest [] (some relation) ∧ ∃ position,
        nest = ((stage.addDerived (iv.name ++ ".rebased") iv.dtype iv.kind).2.replaceLeaves
          position 1 relation.outputs).pushRelation relation := by
  simp only [Stage.rebase, bind_eq_ok] at h
  obtain ⟨position, hposition, iv, hiv, hnest⟩ := h
  obtain ⟨hleaf, hleaves⟩ := leaves_eq_of_leafPosition hposition
  obtain ⟨-, rfl⟩ := Prod.mk.inj (Except.ok.inj hnest)
  refine ⟨iv, iterVar?_eq_some hiv, hleaf, ⟨?_, rfl, ?_, ?_⟩, position, rfl⟩
  · exact (List.append_nil _).symm
  · simpa [Relation.inputs] using hleaf
  · exact perm_replaceLeaves [parent] hleaves

theorem grows_singleton (stage : Stage) (name : String) :
    Grows stage (stage.singleton name).2 [] (some (.singleton ⟨stage.size⟩)) := by
  refine ⟨(List.append_nil _).symm, rfl, by simp [Relation.inputs], ?_⟩
  change ((_ :: stage.leaves) ++ []).Perm (stage.leaves ++ [_])
  rw [List.append_nil]
  exact (List.perm_append_singleton _ _).symm

theorem grows_addRootVar (stage : Stage) (iv : IterVar) :
    Grows stage (stage.addRootVar iv).2 [⟨stage.size⟩] none :=
  ⟨rfl, (List.append_nil _).symm, by simp, by rw [newLoops]; simp [addRootVar, addIterVar]⟩

/-- A change that leaves the loops alone. -/
theorem grows_nothing (hroots : nest.roots = stage.roots)
    (hrelations : nest.relations = stage.relations)
    (hleaves : nest.leaves = stage.leaves) : Grows stage nest [] none := by
  refine ⟨?_, ?_, by simp, ?_⟩ <;> simp [*, newLoops]

/-- A thread coordinate is found or appended, and nothing else happens. -/
theorem threadAxis_spec (stage : Stage) (tag : String) (declared : Option Range) (dtype : DType) :
    ∃ thread vars, stage.threadAxis tag declared dtype =
      (thread, { stage with iterVars := stage.iterVars ++ vars }) ∧
        thread.index < stage.size + vars.length := by
  rw [threadAxis]
  split
  · rename_i thread hthread
    obtain ⟨index, hindex, rfl⟩ := Option.map_eq_some_iff.mp hthread
    refine ⟨⟨index⟩, [], ?_, (List.findIdx?_eq_some_iff_getElem.mp hindex).1⟩
    rw [List.append_nil]
  · exact ⟨_, [_], rfl, Nat.lt_succ_self _⟩

theorem bindThread_inv (h : stage.bindThread leaf tag = .ok (thread, nest)) :
    ∃ iv, stage.iterVar? leaf = some iv ∧ leaf ∈ stage.leaves ∧
      thread = (stage.threadAxis tag none iv.dtype).1 ∧
      nest = (stage.threadAxis tag none iv.dtype).2.setThread leaf thread := by
  simp only [Stage.bindThread, bind_eq_ok] at h
  obtain ⟨iv, hiv, position, hposition, hnest⟩ := h
  obtain ⟨hleaf, -⟩ := leaves_eq_of_leafPosition hposition
  obtain ⟨rfl, rfl⟩ := Prod.mk.inj (Except.ok.inj hnest)
  exact ⟨iv, iterVar?_eq_some hiv, hleaf, rfl, rfl⟩

theorem bindTo_inv (h : stage.bindTo leaf thread = .ok nest) :
    thread ∈ stage.ids ∧ leaf ∈ stage.leaves ∧ nest = stage.setThread leaf thread := by
  simp only [Stage.bindTo, bind_eq_ok] at h
  obtain ⟨iv, hiv, position, hposition, hnest⟩ := h
  obtain ⟨hleaf, -⟩ := leaves_eq_of_leafPosition hposition
  obtain rfl := Except.ok.inj hnest
  exact ⟨exists_iterVar_iff.mp ⟨iv, hiv⟩, hleaf, rfl⟩

end Operations

end Stage

end LoopNest
