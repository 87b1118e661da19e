/-
# Valid stages

Validation accepts a stage exactly when it is ordered: everything that the stage mentions
exists, every relation consumes only roots and what earlier relations made, and nothing is
made twice or made although it is a root.

The check goes through the relations with the list of what is defined so far. Each of its
parts is characterized for an arbitrary such list, and the induction on the relations
carries the list along.
-/

import Mathlib.Data.List.Nodup
import LoopNest.Proofs.Stage.Operations
import LoopNest.Stage.Validate

namespace LoopNest

namespace Stage

variable {stage : Stage} {id : IterId}

/-- What a valid stage satisfies. -/
structure Ordered (stage : Stage) : Prop where
  known : ∀ id ∈ stage.roots ++ stage.leaves ++ stage.threads.keys ++ stage.threads.values,
    id ∈ stage.ids
  inputs : ∀ before relation after, stage.relations = before ++ relation :: after →
    ∀ id ∈ relation.inputs,
      id ∈ stage.ids ∧ (id ∈ stage.roots ∨ id ∈ before.flatMap Relation.outputs)
  outputs : ∀ id ∈ stage.relations.flatMap Relation.outputs, id ∈ stage.ids ∧ id ∉ stage.roots
  nodup : (stage.relations.flatMap Relation.outputs).Nodup

theorem checkKnown_eq_ok_iff {ids : List IterId} :
    stage.checkKnown ids = .ok () ↔ ∀ id ∈ ids, id ∈ stage.ids := by
  induction ids with
  | nil => simp [checkKnown, pure, Except.pure]
  | cons first rest ih =>
      rw [checkKnown, bind_eq_ok, List.forall_mem_cons, ← exists_iterVar_iff, ← ih]
      simp

theorem checkInputs_eq_ok_iff {defined : List IterId} {index : Nat} {inputs : List IterId} :
    stage.checkInputs defined index inputs = .ok () ↔
      ∀ id ∈ inputs, id ∈ stage.ids ∧ id ∈ defined := by
  induction inputs with
  | nil => simp [checkInputs, pure, Except.pure]
  | cons first rest ih =>
      rw [checkInputs, bind_eq_ok, List.forall_mem_cons, ← exists_iterVar_iff, ← ih]
      by_cases hdefined : first ∈ defined
      · simp [hdefined]
      · simp [hdefined, throw, throwThe, MonadExceptOf.throw]

theorem defineOutputs_eq_ok_iff {defined outputs extended : List IterId} :
    stage.defineOutputs defined outputs = .ok extended ↔
      (∀ id ∈ outputs, id ∈ stage.ids ∧ id ∉ defined) ∧ outputs.Nodup ∧
        extended = outputs.reverse ++ defined := by
  induction outputs generalizing defined with
  | nil => simp [defineOutputs, pure, Except.pure, eq_comm]
  | cons first rest ih =>
      rw [defineOutputs, bind_eq_ok, List.forall_mem_cons, ← exists_iterVar_iff, List.nodup_cons,
        List.reverse_cons, List.append_assoc, List.singleton_append]
      by_cases hdefined : first ∈ defined
      · simp [hdefined, throw, throwThe, MonadExceptOf.throw]
      · simp only [hdefined, if_false, ih, List.mem_cons, not_or]
        grind

/-- The induction is on the relations, for any list of what is defined before them. -/
theorem checkRelations_eq_ok_iff {defined : List IterId} {index : Nat} {relations : List Relation} :
    stage.checkRelations defined index relations = .ok () ↔
      (∀ before relation after, relations = before ++ relation :: after →
        ∀ id ∈ relation.inputs,
          id ∈ stage.ids ∧ (id ∈ defined ∨ id ∈ before.flatMap Relation.outputs)) ∧
      (∀ id ∈ relations.flatMap Relation.outputs, id ∈ stage.ids ∧ id ∉ defined) ∧
      (relations.flatMap Relation.outputs).Nodup := by
  induction relations generalizing defined index with
  | nil => simp [checkRelations, pure, Except.pure]
  | cons first rest ih =>
      rw [checkRelations, bind_eq_ok, List.flatMap_cons, List.forall_mem_append,
        List.nodup_append']
      constructor
      · rintro ⟨⟨⟩, hfirst, hrest⟩
        rw [checkInputs_eq_ok_iff] at hfirst
        obtain ⟨extended, houtputs, hrest⟩ := bind_eq_ok.mp hrest
        obtain ⟨hnew, hnodup, rfl⟩ := defineOutputs_eq_ok_iff.mp houtputs
        obtain ⟨hinputs, hlater, hothers⟩ := ih.mp hrest
        simp only [List.mem_append, List.mem_reverse, not_or] at hinputs hlater
        refine ⟨fun before relation after hsplit id hid => ?_,
          ⟨hnew, fun id hid => ⟨(hlater id hid).1, (hlater id hid).2.2⟩⟩, hnodup, hothers,
          fun id hself hid => (hlater id hid).2.1 hself⟩
        rcases List.cons_eq_append_iff.mp hsplit with ⟨rfl, heq⟩ | ⟨before', rfl, hrest⟩
        · obtain ⟨rfl, -⟩ := List.cons.inj heq
          exact ⟨(hfirst id hid).1, .inl (hfirst id hid).2⟩
        · have hinput := hinputs before' relation after hrest id hid
          rw [List.flatMap_cons, List.mem_append]
          tauto
      · rintro ⟨hinputs, ⟨hnew, hlater⟩, hnodup, hothers, hapart⟩
        have hfirst := hinputs [] first rest rfl
        simp only [List.flatMap_nil, List.not_mem_nil, or_false] at hfirst
        refine ⟨(), checkInputs_eq_ok_iff.mpr hfirst, bind_eq_ok.mpr ⟨_,
          defineOutputs_eq_ok_iff.mpr ⟨hnew, hnodup, rfl⟩, ih.mpr ⟨?_, ?_, hothers⟩⟩⟩
        · intro before relation after hsplit id hid
          have hinput := hinputs (first :: before) relation after (by rw [hsplit]; rfl) id hid
          rw [List.flatMap_cons, List.mem_append] at hinput
          rw [List.mem_append, List.mem_reverse]
          tauto
        · intro id hid
          rw [List.mem_append, List.mem_reverse, not_or]
          exact ⟨(hlater id hid).1, fun hself => hapart hself hid, (hlater id hid).2⟩

/-- Validation accepts the ordered stages and no others. -/
theorem validate_eq_ok_iff : stage.validate = .ok () ↔ stage.Ordered := by
  rw [validate, bind_eq_ok]
  constructor
  · rintro ⟨⟨⟩, hknown, hrelations⟩
    obtain ⟨hinputs, houtputs, hnodup⟩ := checkRelations_eq_ok_iff.mp hrelations
    exact ⟨checkKnown_eq_ok_iff.mp hknown, hinputs, houtputs, hnodup⟩
  · intro h
    exact ⟨(), checkKnown_eq_ok_iff.mpr h.known,
      checkRelations_eq_ok_iff.mpr ⟨h.inputs, h.outputs, h.nodup⟩⟩

end Stage

end LoopNest
