/-
# Names of loops

A loop that is derived from others is named after them. Splitting a loop `i` makes `i.outer`
and `i.inner`, rebasing it makes `i.rebased`, and fusing it with `j` makes `i.j.fused`. Roots
and singletons have names of their own, and nothing prevents these from looking derived.
-/

import LoopNest.Proofs.Stage.Scheduled

namespace LoopNest

/-- Endings of one length are told apart. -/
theorem ending_eq_of_append_eq {first second ending ending' : String}
    (h : first ++ ending = second ++ ending') (hlength : ending.length = ending'.length) :
    ending = ending' := by
  have hlists : first.toList ++ ending.toList = second.toList ++ ending'.toList := by
    rw [← String.toList_append, ← String.toList_append, h]
  refine String.toList_inj.mp (List.append_inj_right' hlists ?_)
  rwa [String.length_toList, String.length_toList]

namespace Stage

variable {stage nest : Stage} {id : IterId} {iv : IterVar} {name : String} {relation : Relation}
  {added : List IterVar}

/-- An iteration variable has a name. -/
def IsNamed (stage : Stage) (id : IterId) (name : String) : Prop :=
  ∃ iv, stage.iterVar? id = some iv ∧ iv.name = name

/-- What a relation makes is named after what it consumes. -/
def NamesOutputs (stage : Stage) : Relation → Prop
  | .split parent outer inner _ => ∃ name, stage.IsNamed parent name ∧
    stage.IsNamed outer (name ++ ".outer") ∧ stage.IsNamed inner (name ++ ".inner")
  | .fuse outer inner fused => ∃ name name', stage.IsNamed outer name ∧
    stage.IsNamed inner name' ∧ stage.IsNamed fused (name ++ "." ++ name' ++ ".fused")
  | .rebase parent rebased => ∃ name, stage.IsNamed parent name ∧
    stage.IsNamed rebased (name ++ ".rebased")
  | .singleton _ => True

theorem IsNamed.name_eq (h : stage.IsNamed id name) (hiv : stage.iterVar? id = some iv) :
    iv.name = name := by
  obtain ⟨found, hfound, rfl⟩ := h
  rw [Option.some.inj (hiv.symm.trans hfound)]

theorem IsNamed.append (h : stage.IsNamed id name)
    (hvars : nest.iterVars = stage.iterVars ++ added) : nest.IsNamed id name := by
  obtain ⟨iv, hiv, rfl⟩ := h
  exact ⟨iv, iterVar?_append hvars hiv, rfl⟩

/-- More iteration variables change no names. -/
theorem NamesOutputs.append (h : stage.NamesOutputs relation)
    (hvars : nest.iterVars = stage.iterVars ++ added) : nest.NamesOutputs relation := by
  cases relation with
  | split parent outer inner size =>
      obtain ⟨name, hparent, houter, hinner⟩ := h
      exact ⟨name, hparent.append hvars, houter.append hvars, hinner.append hvars⟩
  | fuse outer inner fused =>
      obtain ⟨name, name', houter, hinner, hfused⟩ := h
      exact ⟨name, name', houter.append hvars, hinner.append hvars, hfused.append hvars⟩
  | rebase parent rebased =>
      obtain ⟨name, hparent, hrebased⟩ := h
      exact ⟨name, hparent.append hvars, hrebased.append hvars⟩
  | singleton iter => trivial

theorem isNamed_addDerived (stage : Stage) (name : String) (dtype : DType) (kind : IterKind) :
    (stage.addDerived name dtype kind).2.IsNamed ⟨stage.size⟩ name :=
  ⟨⟨stage.freshVar name dtype, none, kind⟩,
    by simp [iterVar?, addDerived, addIterVar, size], rfl⟩

/-- One more relation, with more iteration variables that it names. -/
theorem namesOutputs_of_push (h : ∀ relation ∈ stage.relations, stage.NamesOutputs relation)
    (hvars : nest.iterVars = stage.iterVars ++ added)
    (hrelations : nest.relations = stage.relations ++ [relation])
    (hnames : nest.NamesOutputs relation) :
    ∀ relation ∈ nest.relations, nest.NamesOutputs relation := by
  rw [hrelations, List.forall_mem_append, List.forall_mem_singleton]
  exact ⟨fun earlier hearlier => (h earlier hearlier).append hvars, hnames⟩

/-- All derived loops of a scheduled stage are named after what they are derived from. -/
theorem Scheduled.namesOutputs (h : Scheduled stage) :
    ∀ relation ∈ stage.relations, stage.NamesOutputs relation := by
  induction h with
  | empty name scope => simp [Stage.empty]
  | root iv _ _ _ _ _ ih => exact fun relation hrelation => (ih relation hrelation).append rfl
  | @split stage nest parent size loops _ hsuccess _ ih =>
      obtain ⟨iv, hiv, -, -, position, rfl⟩ := splitBy_inv hsuccess
      let withOuter := (stage.addDerived (iv.name ++ ".outer") iv.dtype iv.kind).2
      have hvars := List.append_assoc stage.iterVars
        [⟨stage.freshVar (iv.name ++ ".outer") iv.dtype, none, iv.kind⟩]
        [⟨withOuter.freshVar (iv.name ++ ".inner") iv.dtype, none, iv.kind⟩]
      refine namesOutputs_of_push ih hvars rfl ⟨iv.name, ?_, ?_, ?_⟩
      · exact IsNamed.append ⟨iv, hiv, rfl⟩ hvars
      · exact (stage.isNamed_addDerived (iv.name ++ ".outer") iv.dtype iv.kind).append rfl
      · exact withOuter.isNamed_addDerived (iv.name ++ ".inner") iv.dtype iv.kind
  | @fuse stage nest outer inner fused hsuccess _ ih =>
      obtain ⟨outerVar, innerVar, houter, hinner, -, -, -, position, rfl⟩ := fuse_inv hsuccess
      refine namesOutputs_of_push ih rfl rfl ⟨outerVar.name, innerVar.name, ?_, ?_, ?_⟩
      · exact IsNamed.append ⟨outerVar, houter, rfl⟩ rfl
      · exact IsNamed.append ⟨innerVar, hinner, rfl⟩ rfl
      · exact stage.isNamed_addDerived _ _ _
  | @rebase stage nest parent rebased hsuccess _ ih =>
      obtain ⟨iv, hiv, -, -, position, rfl⟩ := rebase_inv hsuccess
      refine namesOutputs_of_push ih rfl rfl ⟨iv.name, ?_, ?_⟩
      · exact IsNamed.append ⟨iv, hiv, rfl⟩ rfl
      · exact stage.isNamed_addDerived _ _ _
  | singleton name _ ih => exact namesOutputs_of_push ih rfl rfl trivial
  | @bind stage nest leaf thread tag _ hsuccess _ ih =>
      obtain ⟨iv, -, -, rfl, rfl⟩ := bindThread_inv hsuccess
      obtain ⟨axis, vars, haxis, -⟩ := stage.threadAxis_spec tag none iv.dtype
      rw [haxis]
      exact fun relation hrelation => (ih relation hrelation).append rfl

end Stage

end LoopNest
