/-
# Dominance by threads

The flag that a loop carries after it was passed up from the leaves says that some leaf which
runs on a thread is derived from the loop, in any number of steps. This is what the flag is
for, said without the pass that computes it.

A step upward overwrites the flag of what its relation consumes and joins nothing into it. That
is right because no loop is consumed twice and leaves are not consumed, so whatever is
overwritten had no flag before.
-/

import LoopNest.Flow.Threads
import LoopNest.Proofs.Flow.Passes
import LoopNest.Proofs.Stage.Ancestry
import LoopNest.Proofs.Stage.IterMap
import LoopNest.Proofs.Stage.WellFormed

namespace LoopNest

namespace Stage

variable {stage : Stage} {relation : Relation} {id leaf : IterId} {flags : IterMap Bool}

/-- Some leaf that is derived from a loop runs on a thread. -/
def FeedsThread (stage : Stage) (id : IterId) : Prop :=
  ∃ leaf ∈ stage.leaves, (stage.threadOf? leaf).isSome = true ∧ stage.DerivesFrom leaf id

/-- What a relation consumes has the flag if something does that the relation makes. -/
def FlagsInherited (flags : IterId → Option Bool) (relation : Relation) : Prop :=
  ∀ id ∈ relation.inputs, flags id = some (relation.outputs.any fun made =>
    (flags made).getD false)

theorem isLocal_flagsInherited : IsLocal FlagsInherited := by
  intro relation left right hsame hinherited id hid
  rw [← hsame id (List.mem_append_left _ hid), hinherited id hid]
  congr 1
  rw [Bool.eq_iff_iff, List.any_eq_true, List.any_eq_true]
  exact exists_congr fun made => and_congr_right fun hmade => by
    rw [hsame made (List.mem_append_right _ hmade)]

/-- One relation upward. -/
theorem Linked.inheritThreads_writes (h : stage.Linked) (hrelation : relation ∈ stage.relations) :
    Writes IterMap.get? (fun _ => True) FlagsInherited [relation] relation.inputs flags
      (inheritThreads flags relation) := by
  have hapart := h.apart relation hrelation
  cases relation with
  | split parent outer inner size =>
      simp only [Relation.inputs, Relation.outputs, List.mem_cons, List.not_mem_nil, or_false,
        forall_eq, not_or] at hapart
      refine .insert trivial rfl ?_
      simp only [FlagsInherited, Relation.inputs, Relation.outputs, List.forall_mem_singleton,
        IterMap.get?_insert, Ne.symm hapart.1, Ne.symm hapart.2, if_true, if_false,
        List.any_cons, List.any_nil, Bool.or_false, IterMap.getDefault]
      rw [Bool.or_comm]
      rfl
  | fuse outer inner fused =>
      simp only [Relation.inputs, Relation.outputs, List.mem_cons, List.not_mem_nil, or_false,
        forall_eq, forall_eq_or_imp] at hapart
      refine .insert_insert trivial rfl ?_
      simp only [FlagsInherited, Relation.inputs, Relation.outputs, List.forall_mem_cons,
        IterMap.get?_insert, Ne.symm hapart.1, Ne.symm hapart.2, if_true, if_false,
        List.any_cons, List.any_nil, Bool.or_false, IterMap.getDefault]
      exact ⟨by split <;> rfl, rfl, by simp⟩
  | rebase parent rebased =>
      simp only [Relation.inputs, Relation.outputs, List.mem_singleton, forall_eq] at hapart
      refine .insert trivial rfl ?_
      simp only [FlagsInherited, Relation.inputs, Relation.outputs, List.forall_mem_singleton,
        IterMap.get?_insert, Ne.symm hapart, if_true, if_false,
        List.any_cons, List.any_nil, Bool.or_false, IterMap.getDefault]
      rfl
  | singleton iter =>
      exact ⟨trivial, by simp [Relation.inputs], fun _ _ => rfl,
        by simp [FlagsInherited, Relation.inputs]⟩

theorem get?_leafThreads (stage : Stage) (id : IterId) : stage.leafThreads.get? id =
    if id ∈ stage.leaves then some (stage.threadOf? id).isSome else none :=
  IterMap.get?_ofList_map _ _ _

/-- The pass writes to what relations consume and to nothing else. -/
theorem Linked.threadDominance_writes (h : stage.Linked) :
    Writes IterMap.get? (fun _ => True) FlagsInherited stage.relations stage.consumed
      stage.leafThreads stage.threadDominance := by
  obtain ⟨flags, hflow, hwrites⟩ := h.flowUp_ok isLocal_flagsInherited
    (fun flags relation hrelation _ _ =>
      ⟨inheritThreads flags relation, rfl, h.inheritThreads_writes hrelation⟩) trivial
    (fun leaf hleaf => by rw [get?_leafThreads, if_pos hleaf]; rfl)
  have hflags : stage.threadDominance = flags :=
    Except.ok.inj (List.foldlM_pure.symm.trans hflow)
  rw [hflags]
  exact hwrites

/-- The flags agree with the relations, and those of the leaves say what runs on a thread. -/
theorem Linked.threadDominance_spec (h : stage.Linked) :
    (∀ relation ∈ stage.relations, FlagsInherited stage.threadDominance.get? relation) ∧
      ∀ leaf ∈ stage.leaves,
        stage.threadDominance.get? leaf = some (stage.threadOf? leaf).isSome := by
  have hwrites := h.threadDominance_writes
  refine ⟨hwrites.conditions, fun leaf hleaf => ?_⟩
  rw [hwrites.frame leaf (h.not_mem_consumed_of_mem_leaves hleaf), get?_leafThreads, if_pos hleaf]

/-- A loop has the flag if and only if a leaf on a thread is derived from it. -/
theorem Linked.threadDominance_iff (h : stage.Linked) (hid : id ∈ stage.defined) :
    stage.threadDominance.getDefault id = true ↔ stage.FeedsThread id := by
  obtain ⟨hinherited, hleaves⟩ := h.threadDominance_spec
  constructor
  · suffices hup : ∀ id ∈ stage.defined, stage.threadDominance.getDefault id = true →
        stage.FeedsThread id from hup id hid
    refine h.induction_up (fun leaf hleaf hflag => ?_)
      (fun relation hrelation hmade id hid hflag => ?_)
    · rw [IterMap.getDefault, hleaves leaf hleaf] at hflag
      exact ⟨leaf, hleaf, hflag, .refl⟩
    · rw [IterMap.getDefault, hinherited relation hrelation id hid, Option.getD_some,
        List.any_eq_true] at hflag
      obtain ⟨made, houtput, hmadeFlag⟩ := hflag
      obtain ⟨leaf, hleaf, hthread, hderives⟩ := hmade made houtput hmadeFlag
      exact ⟨leaf, hleaf, hthread, .step relation hrelation hid houtput hderives⟩
  · rintro ⟨leaf, hleaf, hthread, hderives⟩
    clear hid
    induction hderives with
    | refl => rw [IterMap.getDefault, hleaves leaf hleaf, hthread]; rfl
    | step relation hrelation hconsumed hproduced _ ih =>
        rw [IterMap.getDefault, hinherited relation hrelation _ hconsumed, Option.getD_some,
          List.any_eq_true]
        exact ⟨_, hproduced, ih⟩

/-- What has an entry is a leaf or consumed by a relation. -/
theorem Linked.contains_threadDominance_iff (h : stage.Linked) :
    stage.threadDominance.contains id = true ↔ id ∈ stage.leaves ∨ id ∈ stage.consumed := by
  have hwrites := h.threadDominance_writes
  rw [IterMap.contains]
  by_cases hused : id ∈ stage.consumed
  · simp [hwrites.known id hused, hused]
  · rw [hwrites.frame id hused, get?_leafThreads]
    by_cases hleaf : id ∈ stage.leaves <;> simp [hleaf, hused]

/-- Leaves are derived from loops only. -/
theorem Linked.mem_defined_of_feedsThread (h : stage.Linked) (hfeeds : stage.FeedsThread id) :
    id ∈ stage.defined := by
  obtain ⟨leaf, hleaf, -, hderives⟩ := hfeeds
  cases hderives with
  | refl => exact h.mem_defined_of_mem_leaves hleaf
  | step relation hrelation hconsumed _ _ => exact h.mem_defined_of_mem_inputs hrelation hconsumed

/-- What has no entry reads as a loop that is not dominated, which is right: an iteration variable
aside from the loops feeds no leaf. -/
theorem Linked.getDefault_threadDominance_iff (h : stage.Linked) :
    stage.threadDominance.getDefault id = true ↔ stage.FeedsThread id := by
  by_cases hid : id ∈ stage.defined
  · exact h.threadDominance_iff hid
  · have hnone : stage.threadDominance.contains id = false := by
      rw [← Bool.not_eq_true, h.contains_threadDominance_iff, ← List.mem_append, h.fate.mem_iff]
      exact hid
    rw [IterMap.contains, Option.isSome_eq_false_iff, Option.isNone_iff_eq_none] at hnone
    refine iff_of_false ?_ fun hfeeds => hid (h.mem_defined_of_feedsThread hfeeds)
    simp [IterMap.getDefault, hnone]

/-- Whatever commands are given, and whenever loops are bound, the pass ends with exactly what it is
for: a variable reads as dominated if and only if it is a leaf that runs on a thread or such a leaf
is derived from it, and the entries are those of the leaves and of what relations consume. The pass
looks nothing up that could be missing, so it has no way to fail. A binding that was left behind on
a loop that is no leaf counts for nothing. -/
theorem commands_dominated_iff_feedsThread (name : String) (scope : StorageScope)
    (commands : List Command) :
    let stage := (Stage.empty name scope).executeAll commands
    (∀ id, stage.threadDominance.getDefault id = true ↔ stage.FeedsThread id) ∧
      ∀ id, stage.threadDominance.contains id = true ↔
        id ∈ stage.leaves ∨ id ∈ stage.consumed := by
  intro stage
  have hlinked : stage.Linked := ((Assembled.empty name scope).executeAll commands).toLinked
  exact ⟨fun _ => hlinked.getDefault_threadDominance_iff,
    fun _ => hlinked.contains_threadDominance_iff⟩

/-- A root that was bound before it was split is dominated only once one of its parts is bound. -/
example :
    let bound := (Stage.empty "stage" .globalMemory).executeAll
      [.root "i" (.const .int32 64), .bindThread ⟨0⟩ "threadIdx.x", .split ⟨0⟩ (.const .int32 8)]
    bound.threadDominance.getDefault ⟨0⟩ = false ∧
      (bound.execute (.bindThread ⟨3⟩ "threadIdx.y")).threadDominance.getDefault ⟨0⟩ = true := by
  decide

end Stage

end LoopNest
