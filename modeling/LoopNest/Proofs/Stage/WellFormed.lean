/-
# Well formed stages

Whatever commands are given to an empty stage, with whatever arguments, the stage that they
leave behind is valid, its leaves are the loops that no relation consumes, no loop is
consumed twice, and every iteration variable is either a loop with one origin or was
registered aside from the loops. Commands that fail leave no trace.

The invariant is `Assembled`. Each effect of a command keeps it, and the induction is on the
commands that are still to come.
-/

import LoopNest.Proofs.Stage.Commands
import LoopNest.Proofs.Stage.IterMap
import LoopNest.Proofs.Stage.Validate

namespace LoopNest

namespace Stage

variable {stage next : Stage} {aside : List IterId} {command : Command} {added : List IterId}
  {relation? : Option Relation}

section Execution

theorem execute_eq (stage : Stage) (command : Command) :
    stage.execute command = match command.outcome stage with
      | .ok (_, next) => next
      | .error _ => stage := by
  rw [execute, command.perform_eq, Edit.transaction]
  rcases command.outcome stage with error | ⟨answer, next⟩ <;> rfl

/-- A command fails and does nothing, or it has its effect. -/
theorem execute_cases (stage : Stage) (command : Command) :
    (∃ error, command.perform stage = .error error stage) ∧ stage.execute command = stage ∨
      (∃ answer, command.perform stage = .ok answer (stage.execute command)) ∧
        ∃ added relation?, command.Effect stage (stage.execute command) added relation? := by
  rw [execute_eq, command.perform_eq, Edit.transaction]
  rcases houtcome : command.outcome stage with error | ⟨answer, next⟩
  · exact .inl ⟨⟨error, rfl⟩, rfl⟩
  · exact .inr ⟨⟨answer, rfl⟩, Command.outcome_effect houtcome⟩

theorem executeAll_cons (stage : Stage) (command : Command) (rest : List Command) :
    stage.executeAll (command :: rest) = (stage.execute command).executeAll rest := rfl

/-- The iteration variables that commands add without making them loops. -/
def setAside : Stage → List Command → List IterId
  | _, [] => []
  | stage, command :: rest =>
    command.registers stage (stage.execute command) ++ (stage.execute command).setAside rest

end Execution

/-- A stage as commands put it together, with the iteration variables that are no loops. -/
structure Assembled (stage : Stage) (aside : List IterId) : Prop extends stage.Linked where
  counted : (stage.defined ++ aside).Perm stage.ids
  bound : ∀ {leaf thread : IterId}, stage.threads.get? leaf = some thread →
    leaf ∈ stage.defined ∧ thread ∈ stage.ids

namespace Assembled

theorem empty (name : String) (scope : StorageScope) : (Stage.empty name scope).Assembled [] where
  origin := .nil
  fate := .nil
  ordered := .nil
  apart := by simp [Stage.empty]
  counted := .nil
  bound := by simp [Stage.empty]

theorem mem_ids_of_mem_defined (h : stage.Assembled aside) {id : IterId}
    (hdefined : id ∈ stage.defined) : id ∈ stage.ids :=
  h.counted.subset (List.mem_append_left _ hdefined)

/-- What a command does to an assembled stage. -/
theorem effect (h : stage.Assembled aside) (heffect : command.Effect stage next added relation?) :
    next.Assembled (aside ++ command.registers stage next) := by
  have hids : next.ids.Perm ((stage.defined ++ newLoops added relation?) ++
      (aside ++ command.registers stage next)) := by
    rw [heffect.ids]
    refine (h.counted.symm.append_right _).trans ?_
    rw [List.perm_iff_count]
    intro id
    simp only [List.count_append]
    omega
  have hfresh : (stage.defined ++ newLoops added relation?).Nodup :=
    (List.nodup_append.mp (hids.nodup_iff.mp next.nodup_ids)).1
  have hdefined := heffect.perm_defined
  have hkept : ∀ id ∈ stage.ids, id ∈ next.ids := by
    rw [heffect.ids]
    exact fun id hid => List.mem_append_left _ hid
  refine ⟨h.toLinked.grows heffect.toGrows hfresh, (hdefined.append_right _).trans hids.symm, ?_⟩
  intro leaf thread hget
  have hold : stage.threads.get? leaf = some thread → leaf ∈ next.defined ∧ thread ∈ next.ids :=
    fun hget => ⟨hdefined.symm.subset (List.mem_append_left _ (h.bound hget).1),
      hkept thread (h.bound hget).2⟩
  rcases heffect.threads with hsame | ⟨-, -, bound, hbound, axis, haxis, hinsert⟩
  · exact hold (hsame ▸ hget)
  · rw [hinsert, IterMap.get?_insert] at hget
    split at hget
    · rename_i heq
      obtain rfl := Option.some.inj hget
      have hleaf := h.mem_defined_of_mem_leaves hbound
      exact ⟨hdefined.symm.subset (List.mem_append_left _ (heq ▸ hleaf)), haxis⟩
    · exact hold hget

/-- One command keeps a stage assembled, whether it fails or not. -/
theorem execute (h : stage.Assembled aside) (command : Command) :
    (stage.execute command).Assembled
      (aside ++ command.registers stage (stage.execute command)) := by
  rcases stage.execute_cases command with ⟨-, hsame⟩ | ⟨-, added, relation?, heffect⟩
  · have hnone : command.registers stage stage = [] := by
      cases command <;> simp [Command.registers]
    rw [hsame, hnone, List.append_nil]
    exact h
  · exact h.effect heffect

theorem executeAll (h : stage.Assembled aside) (commands : List Command) :
    (stage.executeAll commands).Assembled (aside ++ stage.setAside commands) := by
  induction commands generalizing stage aside with
  | nil => simpa [Stage.executeAll, setAside] using h
  | cons command rest ih =>
      rw [executeAll_cons, setAside, ← List.append_assoc]
      exact ih (h.execute command)

/-- An assembled stage is valid. -/
theorem ordered_stage (h : stage.Assembled aside) : stage.Ordered where
  known id hid := by
    have hget : ∀ entry ∈ stage.threads.toList, entry.1 ∈ stage.ids ∧ entry.2 ∈ stage.ids :=
      fun entry hentry => (h.bound (IterMap.mem_toList.mp hentry)).imp_left h.mem_ids_of_mem_defined
    simp only [List.mem_append, IterMap.keys, IterMap.values, List.mem_map] at hid
    rcases hid with ((hroot | hleaf) | ⟨entry, hentry, rfl⟩) | ⟨entry, hentry, rfl⟩
    · exact h.mem_ids_of_mem_defined (mem_defined_of_mem_roots hroot)
    · exact h.mem_ids_of_mem_defined (h.mem_defined_of_mem_leaves hleaf)
    · exact (hget entry hentry).1
    · exact (hget entry hentry).2
  inputs before relation after hsplit id hid := by
    have hrelation : relation ∈ stage.relations := by simp [hsplit]
    exact ⟨h.mem_ids_of_mem_defined (h.mem_defined_of_mem_inputs hrelation hid),
      h.mem_origin_before hsplit hid⟩
  outputs id hid :=
    ⟨h.mem_ids_of_mem_defined (List.mem_append_right _ hid),
      fun hroot => (List.nodup_append'.mp h.origin).2.2 hroot hid⟩
  nodup := (List.nodup_append'.mp h.origin).2.1

end Assembled

/-- A stage is well formed, given the iteration variables that are meant to be no loops. -/
structure WellFormed (stage : Stage) (aside : List IterId) : Prop where
  valid : stage.validate = .ok ()
  nodup_leaves : stage.leaves.Nodup
  mem_leaves_iff : ∀ id, id ∈ stage.leaves ↔ id ∈ stage.defined ∧ id ∉ stage.consumed
  nodup_consumed : stage.consumed.Nodup
  counted : (stage.defined ++ aside).Perm stage.ids

theorem Assembled.wellFormed (h : stage.Assembled aside) : stage.WellFormed aside where
  valid := validate_eq_ok_iff.mpr h.ordered_stage
  nodup_leaves := h.toLinked.nodup_leaves
  mem_leaves_iff _ := h.toLinked.mem_leaves_iff
  nodup_consumed := h.toLinked.nodup_consumed
  counted := h.counted

/-- Commands keep a stage well formed, and those that fail leave it as it is. -/
theorem commands_keep_wellFormed (name : String) (scope : StorageScope) (commands : List Command) :
    let stage := (Stage.empty name scope).executeAll commands
    stage.WellFormed ((Stage.empty name scope).setAside commands) ∧
      ∀ command : Command, (∃ answer next, command.perform stage = .ok answer next) ∨
        ∃ error, command.perform stage = .error error stage := by
  intro stage
  refine ⟨((Assembled.empty name scope).executeAll commands).wellFormed, fun command => ?_⟩
  rcases stage.execute_cases command with ⟨hfails, -⟩ | ⟨⟨answer, hdone⟩, -⟩
  · exact .inr hfails
  · exact .inl ⟨answer, _, hdone⟩

/-- A thread coordinate is neither a root nor made by a relation. -/
theorem threadAxis_not_defined :
    let stage :=
      (Stage.empty "stage" .globalMemory).executeAll [.threadAxis "threadIdx.x" none .int32]
    ∃ id ∈ stage.ids, id ∉ stage.defined := by
  decide

end Stage

end LoopNest
