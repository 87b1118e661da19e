/-
# Derived loops

Only a command that makes a relation makes derived loops, and it gives each of them a symbol
of its own, a type and no declared range. The type is that of the loop it was derived from,
a fused loop has the type in which the two types meet, and a singleton is an `int32`.
-/

import LoopNest.Proofs.Stage.WellFormed

namespace LoopNest

namespace Stage

variable {stage nest : Stage} {id : IterId} {iv : IterVar} {dtype : DType} {relation : Relation}
  {added : List IterVar}

/-- A loop with a symbol of its own and a type, whose range is left to inference. -/
def IsDerived (stage : Stage) (dtype : DType) (id : IterId) : Prop :=
  ∃ iv, stage.iterVar? id = some iv ∧ iv.var.id = .iteration id.index ∧ iv.declared = none ∧
    iv.dtype = dtype

/-- What a relation makes is derived from what it consumes. -/
def Introduces (stage : Stage) : Relation → Prop
  | .split parent outer inner _ => ∃ iv, stage.iterVar? parent = some iv ∧
    stage.IsDerived iv.dtype outer ∧ stage.IsDerived iv.dtype inner
  | .fuse outer inner fused => ∃ outerVar innerVar, stage.iterVar? outer = some outerVar ∧
    stage.iterVar? inner = some innerVar ∧
      stage.IsDerived (outerVar.dtype.join innerVar.dtype) fused
  | .rebase parent rebased => ∃ iv, stage.iterVar? parent = some iv ∧
    stage.IsDerived iv.dtype rebased
  | .singleton iter => stage.IsDerived .int32 iter

theorem IsDerived.undeclared (h : stage.IsDerived dtype id) (hiv : stage.iterVar? id = some iv) :
    iv.declared = none := by
  obtain ⟨found, hfound, -, hnone, -⟩ := h
  obtain rfl := Option.some.inj (hfound.symm.trans hiv)
  exact hnone

/-- Derived loops with the same variable are the same. -/
theorem IsDerived.eq_of_var_eq {id' : IterId} {dtype' : DType} {iv' : IterVar}
    (h : stage.IsDerived dtype id) (h' : stage.IsDerived dtype' id')
    (hiv : stage.iterVar? id = some iv) (hiv' : stage.iterVar? id' = some iv')
    (hsame : iv.var = iv'.var) : id = id' := by
  obtain ⟨_, hfound, hid, -⟩ := h
  obtain ⟨_, hfound', hid', -⟩ := h'
  obtain rfl := Option.some.inj (hfound.symm.trans hiv)
  obtain rfl := Option.some.inj (hfound'.symm.trans hiv')
  rw [hsame, hid', VarId.iteration.injEq] at hid
  cases id
  cases id'
  exact congrArg IterId.mk hid.symm

/-- Every loop that a relation makes is derived. -/
theorem Introduces.isDerived (h : stage.Introduces relation) (hid : id ∈ relation.outputs) :
    ∃ dtype, stage.IsDerived dtype id := by
  cases relation with
  | split parent outer inner size =>
      obtain ⟨iv, -, houter, hinner⟩ := h
      rcases List.mem_pair.mp hid with rfl | rfl
      · exact ⟨_, houter⟩
      · exact ⟨_, hinner⟩
  | fuse outer inner fused =>
      obtain ⟨_, _, -, -, hfused⟩ := h
      exact ⟨_, List.mem_singleton.mp hid ▸ hfused⟩
  | rebase parent rebased =>
      obtain ⟨_, -, hrebased⟩ := h
      exact ⟨_, List.mem_singleton.mp hid ▸ hrebased⟩
  | singleton iter => exact ⟨_, List.mem_singleton.mp hid ▸ h⟩

section Growth

theorem IsDerived.append (h : stage.IsDerived dtype id)
    (hvars : nest.iterVars = stage.iterVars ++ added) : nest.IsDerived dtype id := by
  obtain ⟨iv, hiv, hderived⟩ := h
  exact ⟨iv, iterVar?_append hvars hiv, hderived⟩

/-- More iteration variables change nothing for the loops there are. -/
theorem Introduces.append (h : stage.Introduces relation)
    (hvars : nest.iterVars = stage.iterVars ++ added) : nest.Introduces relation := by
  cases relation with
  | split parent outer inner size =>
      obtain ⟨iv, hiv, houter, hinner⟩ := h
      exact ⟨iv, iterVar?_append hvars hiv, houter.append hvars, hinner.append hvars⟩
  | fuse outer inner fused =>
      obtain ⟨outerVar, innerVar, houter, hinner, hfused⟩ := h
      exact ⟨outerVar, innerVar, iterVar?_append hvars houter, iterVar?_append hvars hinner,
        hfused.append hvars⟩
  | rebase parent rebased =>
      obtain ⟨iv, hiv, hrebased⟩ := h
      exact ⟨iv, iterVar?_append hvars hiv, hrebased.append hvars⟩
  | singleton iter => exact IsDerived.append h hvars

/-- The loop that a stage derives next. -/
theorem isDerived_addDerived (stage : Stage) (name : String) (dtype : DType) (kind : IterKind) :
    (stage.addDerived name dtype kind).2.IsDerived dtype ⟨stage.size⟩ :=
  ⟨⟨stage.freshVar name dtype, none, kind⟩,
    by simp [iterVar?, addDerived, addIterVar, size], rfl, rfl, rfl⟩

end Growth

end Stage

namespace Command

variable {stage next : Stage} {command : Command} {answer : List IterId}

/-- A command appends iteration variables and at most one relation, which introduces loops
that are derived. -/
structure Extends (stage next : Stage) (relation? : Option Relation) : Prop where
  vars : ∃ added, next.iterVars = stage.iterVars ++ added
  relations : next.relations = stage.relations ++ relation?.toList
  introduces : ∀ relation ∈ relation?, next.Introduces relation

theorem Extends.of_registers (hvars : ∃ added, next.iterVars = stage.iterVars ++ added)
    (hrelations : next.relations = stage.relations) : Extends stage next none :=
  ⟨hvars, by rw [hrelations]; exact (List.append_nil _).symm, by simp⟩

theorem Extends.of_splitBy {parent : IterId} {size : SplitSize} {loops : IterId × IterId}
    (h : stage.splitBy parent size = .ok (loops, next)) :
    ∃ relation?, Extends stage next relation? := by
  obtain ⟨iv, hiv, -, -, position, rfl⟩ := Stage.splitBy_inv h
  let withOuter := (stage.addDerived (iv.name ++ ".outer") iv.dtype iv.kind).2
  let withInner := (withOuter.addDerived (iv.name ++ ".inner") iv.dtype iv.kind).2
  have houter : withInner.IsDerived iv.dtype ⟨stage.size⟩ :=
    (stage.isDerived_addDerived (iv.name ++ ".outer") iv.dtype iv.kind).append rfl
  have hinner := withOuter.isDerived_addDerived (iv.name ++ ".inner") iv.dtype iv.kind
  refine ⟨some _, ⟨_, List.append_assoc _ _ _⟩, rfl, ?_⟩
  simp only [Option.mem_def, Option.some.injEq, forall_eq']
  exact ⟨iv, Stage.iterVar?_append (List.append_assoc _ _ _) hiv, houter, hinner⟩

/-- Every command that succeeds extends the stage. -/
theorem outcome_extends (h : command.outcome stage = .ok (answer, next)) :
    ∃ relation?, Extends stage next relation? := by
  cases command with
  | root | rootVar | iterVar =>
      obtain ⟨-, rfl⟩ := Prod.mk.inj (Except.ok.inj h)
      exact ⟨none, .of_registers ⟨_, rfl⟩ rfl⟩
  | split parent factor | splitIntoParts parent parts =>
      obtain ⟨⟨loops, nest⟩, hsuccess, heq⟩ := map_eq_ok.mp h
      obtain ⟨-, rfl⟩ := Prod.mk.inj heq
      exact Extends.of_splitBy hsuccess
  | fuse outer inner =>
      obtain ⟨⟨fused, nest⟩, hsuccess, heq⟩ := map_eq_ok.mp h
      obtain ⟨-, rfl⟩ := Prod.mk.inj heq
      obtain ⟨outerVar, innerVar, houter, hinner, -, -, -, position, rfl⟩ :=
        Stage.fuse_inv hsuccess
      refine ⟨some _, ⟨_, rfl⟩, rfl, ?_⟩
      simp only [Option.mem_def, Option.some.injEq, forall_eq']
      exact ⟨outerVar, innerVar, Stage.iterVar?_append rfl houter,
        Stage.iterVar?_append rfl hinner, stage.isDerived_addDerived _ _ _⟩
  | rebase parent =>
      obtain ⟨⟨rebased, nest⟩, hsuccess, heq⟩ := map_eq_ok.mp h
      obtain ⟨-, rfl⟩ := Prod.mk.inj heq
      obtain ⟨iv, hiv, -, -, position, rfl⟩ := Stage.rebase_inv hsuccess
      refine ⟨some _, ⟨_, rfl⟩, rfl, ?_⟩
      simp only [Option.mem_def, Option.some.injEq, forall_eq']
      exact ⟨iv, Stage.iterVar?_append rfl hiv, stage.isDerived_addDerived _ _ _⟩
  | singleton name =>
      obtain ⟨-, rfl⟩ := Prod.mk.inj (Except.ok.inj h)
      refine ⟨some (.singleton ⟨stage.size⟩), ⟨_, rfl⟩, rfl, ?_⟩
      simp only [Option.mem_def, Option.some.injEq, forall_eq']
      exact stage.isDerived_addDerived name .int32 .parallel
  | threadAxis tag declared dtype =>
      obtain ⟨thread, vars, haxis, -⟩ := stage.threadAxis_spec tag declared dtype
      rw [outcome, haxis] at h
      obtain ⟨-, rfl⟩ := Prod.mk.inj (Except.ok.inj h)
      exact ⟨none, .of_registers ⟨vars, rfl⟩ rfl⟩
  | bindThread leaf tag =>
      obtain ⟨⟨thread, nest⟩, hsuccess, heq⟩ := map_eq_ok.mp h
      obtain ⟨-, rfl⟩ := Prod.mk.inj heq
      obtain ⟨iv, -, -, -, rfl⟩ := Stage.bindThread_inv hsuccess
      obtain ⟨axis, vars, haxis, -⟩ := stage.threadAxis_spec tag none iv.dtype
      rw [haxis]
      exact ⟨none, .of_registers ⟨vars, rfl⟩ rfl⟩
  | bindTo leaf thread =>
      obtain ⟨nest, hsuccess, heq⟩ := map_eq_ok.mp h
      obtain ⟨-, rfl⟩ := Prod.mk.inj heq
      obtain ⟨-, -, rfl⟩ := Stage.bindTo_inv hsuccess
      exact ⟨none, .of_registers ⟨[], (List.append_nil _).symm⟩ rfl⟩
  | skip id =>
      obtain ⟨nest, hsuccess, heq⟩ := map_eq_ok.mp h
      obtain ⟨-, rfl⟩ := Prod.mk.inj heq
      obtain ⟨-, -, hnext⟩ := bind_eq_ok.mp hsuccess
      obtain rfl := Except.ok.inj hnext
      exact ⟨none, .of_registers ⟨[], (List.append_nil _).symm⟩ rfl⟩
  | setShape shape =>
      obtain ⟨-, rfl⟩ := Prod.mk.inj (Except.ok.inj h)
      exact ⟨none, .of_registers ⟨[], (List.append_nil _).symm⟩ rfl⟩

end Command

namespace Stage

variable {stage : Stage}

/-- One command leaves derived loops derived, whether it fails or not. -/
theorem introduces_execute (h : ∀ relation ∈ stage.relations, stage.Introduces relation)
    (command : Command) :
    ∀ relation ∈ (stage.execute command).relations,
      (stage.execute command).Introduces relation := by
  rw [execute_eq]
  rcases houtcome : command.outcome stage with error | ⟨answer, next⟩
  · exact h
  · obtain ⟨relation?, ⟨added, hvars⟩, hrelations, hnew⟩ := Command.outcome_extends houtcome
    intro relation hrelation
    rw [hrelations] at hrelation
    rcases List.mem_append.mp hrelation with hold | hmade
    · exact (h relation hold).append hvars
    · exact hnew relation (Option.mem_toList.mp hmade)

/-- Whatever commands are given, what relations make is derived. -/
theorem introduces_executeAll (h : ∀ relation ∈ stage.relations, stage.Introduces relation)
    (commands : List Command) :
    ∀ relation ∈ (stage.executeAll commands).relations,
      (stage.executeAll commands).Introduces relation := by
  induction commands generalizing stage with
  | nil => exact h
  | cons command rest ih => exact ih (introduces_execute h command)

end Stage

end LoopNest
