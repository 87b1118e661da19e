/-
# Bindings of loops that were transformed

A loop is a leaf when it is bound to a thread. The binding stays when the loop is transformed
afterwards, although the loop is then no leaf and runs on no thread. Such a loop is
stranded. These are the only bindings that are not bindings of leaves.
-/

import LoopNest.Proofs.Stage.WellFormed

namespace LoopNest

/-- The bound loops that a command replaces by others. -/
def Command.strands (stage : Stage) (command : Command) : List IterId :=
  match command.perform stage with
  | .ok _ _ => command.transforms.filter fun id => stage.threads.contains id
  | .error _ _ => []

namespace Stage

variable {stage next : Stage} {aside : List IterId} {command : Command} {id : IterId}

/-- The loops that commands strand, in the order in which they do. -/
def stranded : Stage → List Command → List IterId
  | _, [] => []
  | stage, command :: rest => command.strands stage ++ (stage.execute command).stranded rest

/-- A binding of a loop that some relation has consumed. -/
def IsStranded (stage : Stage) (id : IterId) : Prop :=
  stage.threads.contains id = true ∧ id ∈ stage.consumed

/-- One command strands loops by consuming them, and never by binding them. -/
theorem Assembled.isStranded_execute (h : stage.Assembled aside) :
    (stage.execute command).IsStranded id ↔ stage.IsStranded id ∨ id ∈ command.strands stage := by
  rcases stage.execute_cases command with
    ⟨⟨error, hfails⟩, hsame⟩ | ⟨⟨answer, hdone⟩, added, relation?, heffect⟩
  · rw [hsame, Command.strands, hfails]
    simp
  · rw [Command.strands, hdone, IsStranded, IsStranded, heffect.consumed, heffect.transforms,
      List.mem_append, List.mem_filter]
    rcases heffect.threads with hsame | ⟨hnone, -, leaf, hleaf, thread, -, hinsert⟩
    · rw [hsame]
      tauto
    · have hunused := h.not_mem_consumed_of_mem_leaves hleaf
      rw [hnone, hinsert, IterMap.contains, IterMap.get?_insert]
      by_cases heq : id = leaf
      · simp [heq, hunused]
      · simp [heq, IterMap.contains]

/-- The induction is on the commands that are still to come. -/
theorem Assembled.isStranded_executeAll (h : stage.Assembled aside) (commands : List Command) :
    (stage.executeAll commands).IsStranded id ↔
      stage.IsStranded id ∨ id ∈ stage.stranded commands := by
  induction commands generalizing stage aside with
  | nil => simp [Stage.executeAll, stranded]
  | cons command rest ih =>
      rw [executeAll_cons, ih (h.execute command), h.isStranded_execute, stranded, List.mem_append,
        or_assoc]

/-- A bound loop is a leaf unless it is stranded. -/
theorem Assembled.mem_leaves_iff_of_bound (h : stage.Assembled aside) {thread : IterId}
    (hbound : stage.threads.get? id = some thread) : id ∈ stage.leaves ↔ ¬ stage.IsStranded id := by
  rw [h.toLinked.mem_leaves_iff, IsStranded, IterMap.contains, hbound]
  simp [(h.bound hbound).1]

/-- Every binding is a binding of a leaf, and every thread runs some leaf, exactly if no
command has replaced a bound loop. -/
theorem bindings_on_leaves_iff (name : String) (scope : StorageScope) (commands : List Command) :
    let stage := (Stage.empty name scope).executeAll commands
    (∀ binding ∈ stage.threads.toList, binding.1 ∈ stage.leaves ∧
        binding.2 ∈ stage.leaves.filterMap stage.threadOf?) ↔
      (Stage.empty name scope).stranded commands = [] := by
  intro stage
  have hempty := Assembled.empty name scope
  have hstage : stage.Assembled _ := hempty.executeAll commands
  have hstranded : ∀ id, stage.IsStranded id ↔ id ∈ (Stage.empty name scope).stranded commands := by
    intro id
    rw [hempty.isStranded_executeAll commands]
    simp [IsStranded, Stage.empty, IterMap.contains]
  constructor
  · intro hleaves
    refine List.eq_nil_iff_forall_not_mem.mpr fun id hid => ?_
    have hbad := (hstranded id).mpr hid
    obtain ⟨thread, hbound⟩ := Option.isSome_iff_exists.mp hbad.1
    have hleaf := (hleaves (id, thread) (IterMap.mem_toList.mpr hbound)).1
    exact (hstage.mem_leaves_iff_of_bound hbound).mp hleaf hbad
  · rintro hnone ⟨id, thread⟩ hbinding
    have hbound := IterMap.mem_toList.mp hbinding
    have hleaf : id ∈ stage.leaves := by
      rw [hstage.mem_leaves_iff_of_bound hbound, hstranded, hnone]
      exact List.not_mem_nil
    exact ⟨hleaf, List.mem_filterMap.mpr ⟨id, hleaf, hbound⟩⟩

/-- Splitting a bound loop strands it. -/
example : (Stage.empty "stage" .globalMemory).stranded
    [.root "i" (.const .int32 64), .bindThread ⟨0⟩ "threadIdx.x", .split ⟨0⟩ (.const .int32 8)] =
      [⟨0⟩] := by
  decide

end Stage

end LoopNest
