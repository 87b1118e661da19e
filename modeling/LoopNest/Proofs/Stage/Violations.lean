/-
# What validation reports

The violations of a stage can be listed without running the check. Each is judged by what comes
before it: an input by the roots and by what earlier relations make, an output also by the
outputs before it in its own relation. Listed in the order in which a stage is read, the first
violation is the error that validation reports, and validation accepts a stage exactly when there
is none.

An accepted stage has no cycles. What a relation makes leads to what later relations make and to
nothing else, so no chain of relations comes back to what the relation consumes.
-/

import Mathlib.Logic.Relation
import LoopNest.Proofs.Stage.Ancestry

namespace LoopNest

namespace Stage

variable {stage : Stage} {before after : List Relation} {relation : Relation}
  {id made leaf : IterId}

section Cycles

/-- One loop is derived from another by a single relation. -/
def Feeds (stage : Stage) (id made : IterId) : Prop :=
  ∃ relation ∈ stage.relations, id ∈ relation.inputs ∧ made ∈ relation.outputs

theorem derivesFrom_of_reflTransGen (h : Relation.ReflTransGen stage.Feeds id leaf) :
    stage.DerivesFrom leaf id := by
  induction h with
  | refl => exact .refl
  | tail _ hfeeds ih =>
      obtain ⟨relation, hrelation, hused, hmade⟩ := hfeeds
      exact ih.extend hrelation hused hmade

/-- What is derived from a loop that a relation makes is that loop, or made by a later relation.
The induction is on the chain, for all places among the relations. -/
theorem Ordered.eq_or_mem_outputs_after (h : stage.Ordered)
    (hsplit : stage.relations = before ++ relation :: after) (hmade : made ∈ relation.outputs)
    (hderives : stage.DerivesFrom leaf made) :
    leaf = made ∨ leaf ∈ after.flatMap Relation.outputs := by
  induction hderives generalizing before relation after with
  | refl => exact .inl rfl
  | step user huser hused hproduced _ ih =>
      have hlater := h.mem_after_of_mem_inputs hsplit hmade huser hused
      obtain ⟨between, rest, rfl⟩ := List.append_of_mem hlater
      have hsplit' : stage.relations = (before ++ relation :: between) ++ user :: rest := by
        rw [hsplit, List.append_assoc, List.cons_append]
      rw [List.flatMap_append, List.flatMap_cons]
      refine .inr (List.mem_append_right _ (List.mem_append.mpr ?_))
      rcases ih hsplit' hproduced with rfl | hrest
      · exact .inl hproduced
      · exact .inr hrest

/-- No loop is derived from itself by one relation or more. -/
theorem Ordered.acyclic (h : stage.Ordered) (id : IterId) :
    ¬ Relation.TransGen stage.Feeds id id := by
  intro hcycle
  obtain ⟨made, ⟨relation, hrelation, hused, hmade⟩, hback⟩ :=
    Relation.TransGen.head'_iff.mp hcycle
  obtain ⟨before, after, hsplit⟩ := List.append_of_mem hrelation
  refine h.not_mem_outputs_of_mem_inputs hsplit hused ?_
  rw [List.flatMap_cons, List.mem_append]
  rcases h.eq_or_mem_outputs_after hsplit hmade (derivesFrom_of_reflTransGen hback) with
    rfl | hlater
  · exact .inl hmade
  · exact .inr hlater

end Cycles

section Violations

variable (stage)

/-- The violation of mentioning an iteration variable that does not exist. -/
def unknownViolations (id : IterId) : List StageError :=
  if id ∈ stage.ids then [] else [.unknownIterVar id]

/-- What the roots and the first relations define. -/
def definedBefore (count : Nat) : List IterId :=
  stage.roots ++ (stage.relations.take count).flatMap Relation.outputs

/-- The violations among the inputs of a relation, which roots or earlier relations have to
define. -/
def inputViolations (index : Nat) (inputs : List IterId) : List StageError :=
  inputs.flatMap fun id => stage.unknownViolations id ++
    if id ∈ stage.definedBefore index then [] else [.undefinedInput (stage.ref id) index]

/-- The violations among the outputs of a relation. None may be defined before, be it by an earlier
output of the same relation. -/
def outputViolations (index : Nat) (outputs : List IterId) : List StageError :=
  outputs.zipIdx.flatMap fun (id, place) => stage.unknownViolations id ++
    if id ∈ stage.definedBefore index ++ outputs.take place then
      [.duplicateProducer (stage.ref id)]
    else []

/-- The violations of a relation, those among its inputs first. -/
def relationViolations (index : Nat) (relation : Relation) : List StageError :=
  stage.inputViolations index relation.inputs ++ stage.outputViolations index relation.outputs

/-- All violations of a stage, in the order in which it is read. -/
def violations : List StageError :=
  (stage.roots ++ stage.leaves ++ stage.threads.keys ++ stage.threads.values).flatMap
      stage.unknownViolations ++
    stage.relations.zipIdx.flatMap fun (relation, index) => stage.relationViolations index relation

end Violations

section Verdict

variable {defined ids earlier later inputs : List IterId} {index : Nat}
  {first second : List StageError}

/-- Reporting the first of some violations, if there is one. -/
def verdict : List StageError → Except StageError Unit
  | [] => .ok ()
  | first :: _ => .error first

theorem verdict_append :
    verdict (first ++ second) = (verdict first >>= fun _ => verdict second) := by
  cases first <;> rfl

theorem verdict_eq_error_iff {error : StageError} :
    verdict first = .error error ↔ first.head? = some error := by
  cases first <;> simp [verdict]

theorem verdict_flatMap_cons {α : Type} (item : α) (rest : List α) (f : α → List StageError) :
    verdict ((item :: rest).flatMap f) =
      (verdict (f item) >>= fun _ => verdict (rest.flatMap f)) := by
  rw [List.flatMap_cons, verdict_append]

/-- Looking an iteration variable up fails as a mention of it does. -/
theorem iterVar_bind_eq {α : Type} (id : IterId) (next : Except StageError α) :
    (stage.iterVar id >>= fun _ => next) =
      (verdict (stage.unknownViolations id) >>= fun _ => next) := by
  by_cases hid : id ∈ stage.ids
  · obtain ⟨iv, hiv⟩ := exists_iterVar_iff.mpr hid
    rw [hiv, unknownViolations, if_pos hid]
    rfl
  · have hnone : stage.iterVar? id = none := by
      cases hiv : stage.iterVar? id with
      | none => rfl
      | some iv => exact absurd (exists_iterVar_iff.mp ⟨iv, iterVar_eq_ok hiv⟩) hid
    rw [iterVar, hnone, unknownViolations, if_neg hid]
    rfl

theorem checkKnown_eq_verdict (ids : List IterId) :
    stage.checkKnown ids = verdict (ids.flatMap stage.unknownViolations) := by
  induction ids with
  | nil => rfl
  | cons first rest ih => rw [checkKnown, iterVar_bind_eq, verdict_flatMap_cons, ih]

theorem checkInputs_eq_verdict (hdefined : ∀ id, id ∈ defined ↔ id ∈ stage.definedBefore index)
    (inputs : List IterId) :
    stage.checkInputs defined index inputs = verdict (stage.inputViolations index inputs) := by
  induction inputs with
  | nil => rfl
  | cons first rest ih =>
      rw [checkInputs, iterVar_bind_eq, inputViolations, verdict_flatMap_cons, verdict_append,
        bind_assoc, ← inputViolations]
      congr 1
      funext _
      by_cases hfirst : first ∈ defined
      · rw [if_pos hfirst, if_pos ((hdefined first).mp hfirst), ih]
        rfl
      · rw [if_neg hfirst, if_neg fun hmem => hfirst ((hdefined first).mpr hmem)]
        rfl

/-- The induction is on the outputs that are still to come, for any outputs before them. -/
theorem defineOutputs_eq_verdict
    (hdefined : ∀ id, id ∈ defined ↔ id ∈ stage.definedBefore index ++ earlier) :
    stage.defineOutputs defined later =
      (verdict ((later.zipIdx earlier.length).flatMap fun (id, place) =>
        stage.unknownViolations id ++
          if id ∈ stage.definedBefore index ++ (earlier ++ later).take place then
            [.duplicateProducer (stage.ref id)]
          else []) >>= fun _ => .ok (later.reverse ++ defined)) := by
  induction later generalizing defined earlier with
  | nil => rfl
  | cons first rest ih =>
      rw [defineOutputs, iterVar_bind_eq, List.zipIdx_cons, verdict_flatMap_cons, verdict_append,
        bind_assoc, bind_assoc]
      congr 1
      funext _
      rw [List.take_left]
      by_cases hfirst : first ∈ defined
      · rw [if_pos hfirst, if_pos ((hdefined first).mp hfirst)]
        rfl
      · have hgrown : ∀ id, id ∈ first :: defined ↔
            id ∈ stage.definedBefore index ++ (earlier ++ [first]) := by
          intro id
          rw [List.mem_cons, hdefined, ← List.append_assoc, List.mem_append (t := [first]),
            List.mem_singleton, or_comm]
        rw [if_neg hfirst, if_neg fun hmem => hfirst ((hdefined first).mpr hmem), ih hgrown]
        simp only [List.append_assoc, List.singleton_append, List.length_append,
          List.length_singleton, List.reverse_cons]
        rfl

/-- The induction is on the relations that are still to be checked. What is defined by then is what
the roots and the relations before them define, in some order. -/
theorem checkRelations_eq_verdict (hsplit : stage.relations = before ++ after)
    (hdefined : ∀ id, id ∈ defined ↔ id ∈ stage.definedBefore before.length) :
    stage.checkRelations defined before.length after =
      verdict ((after.zipIdx before.length).flatMap fun (relation, index) =>
        stage.relationViolations index relation) := by
  induction after generalizing before defined with
  | nil => rfl
  | cons first rest ih =>
      have hsplit' : stage.relations = (before ++ [first]) ++ rest := by simp [hsplit]
      have hdefined' : ∀ id, id ∈ defined ↔ id ∈ stage.definedBefore before.length ++ [] := by
        simpa using hdefined
      have houtputs : stage.defineOutputs defined first.outputs = _ :=
        defineOutputs_eq_verdict hdefined'
      have hgrown : ∀ id, id ∈ first.outputs.reverse ++ defined ↔
          id ∈ stage.definedBefore (before ++ [first]).length := by
        intro id
        rw [definedBefore, hsplit', List.take_left, List.flatMap_append, List.flatMap_singleton,
          List.mem_append, List.mem_reverse, hdefined, definedBefore, hsplit, List.take_left]
        simp only [List.mem_append]
        tauto
      rw [checkRelations, checkInputs_eq_verdict hdefined, houtputs, List.zipIdx_cons,
        verdict_flatMap_cons]
      dsimp only
      rw [relationViolations, verdict_append, bind_assoc, bind_assoc]
      congr 1
      funext _
      congr 1
      funext _
      have hrest := ih hsplit' hgrown
      rw [List.length_append, List.length_singleton] at hrest
      exact hrest

/-- Validation reports the first violation. -/
theorem validate_eq_verdict (stage : Stage) : stage.validate = verdict stage.violations := by
  rw [validate, checkKnown_eq_verdict, violations, verdict_append]
  congr 1
  funext _
  have hnone : stage.relations = [] ++ stage.relations := rfl
  exact checkRelations_eq_verdict hnone (by simp [definedBefore])

end Verdict

/-- Validation accepts exactly the stages in which everything that is mentioned exists, every
relation consumes roots and what earlier relations make, and nothing is made twice or made although
it is a root. No loop of such a stage is derived from itself. Of any other stage it reports the
first violation in the order in which the stage is read. -/
theorem validate_accepts_ordered (stage : Stage) :
    (stage.validate = .ok () ↔ stage.Ordered) ∧
      (stage.validate = .ok () → ∀ id, ¬ Relation.TransGen stage.Feeds id id) ∧
      ∀ error, stage.validate = .error error ↔ stage.violations.head? = some error := by
  refine ⟨validate_eq_ok_iff, fun hvalid => (validate_eq_ok_iff.mp hvalid).acyclic, fun error => ?_⟩
  rw [validate_eq_verdict, verdict_eq_error_iff]

/-- A relation that consumes what it makes itself is out of order, and a split whose loops coincide
makes a loop twice. The first of the two is reported. -/
example :
    let stage : Stage :=
      { empty "tangled" .globalMemory with
        iterVars := ["i", "j", "k"].zipIdx.map fun (name, index) =>
          ⟨⟨.iteration index, name, .int32⟩, none, .parallel⟩
        roots := [⟨0⟩]
        relations := [.rebase ⟨1⟩ ⟨1⟩, .split ⟨0⟩ ⟨2⟩ ⟨2⟩ (.factor (.const .int32 4))] }
    stage.violations = [.undefinedInput ⟨⟨1⟩, "j"⟩ 0, .duplicateProducer ⟨⟨2⟩, "k"⟩] ∧
      stage.validate = .error (.undefinedInput ⟨⟨1⟩, "j"⟩ 0) := by
  decide

end Stage

end LoopNest
