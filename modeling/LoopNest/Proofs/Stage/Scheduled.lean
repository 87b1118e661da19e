/-
# Scheduled stages

A stage is scheduled when it comes from an empty one by the operations of a
schedule: adding roots, splitting, fusing, rebasing, making singletons and binding
leaves to threads, in any order and number. Roots declare literal ranges and have
symbols of their own, split sizes are positive literals, and each binding uses a new
thread.

`Regular` is what all of them keep.
-/

import LoopNest.Proofs.Stage.IterMap
import LoopNest.Proofs.Stage.Nested
import LoopNest.Proofs.Stage.Operations

namespace LoopNest

namespace Range

/-- A range between literals. -/
def ofInts (low extent : Int) : Range :=
  ⟨.const .int32 low, .const .int32 extent⟩

/-- A literal range with at least one value. -/
structure IsLiteral (range : Range) (low extent : Int) : Prop where
  eq : range = ofInts low extent
  low_contains : DType.int32.contains low = true
  extent_contains : DType.int32.contains extent = true
  pos : 1 ≤ extent

end Range

namespace SplitSize

/-- A split by a positive literal. -/
structure IsLiteral (size : SplitSize) (given : Int) : Prop where
  eq : size.extent = .const .int32 given
  contains : DType.int32.contains given = true
  pos : 1 ≤ given

end SplitSize

/-- The sizes of splits are positive literals. -/
def Relation.HasLiteralSize : Relation → Prop
  | .split _ _ _ size => ∃ given, size.IsLiteral given
  | _ => True

namespace Stage

variable {stage nest : Stage}

/-- A symbol that no iteration variable has or will get: the next one of the stage, or a
parameter that is not in use. -/
def IsUnused (stage : Stage) (v : Var) : Prop :=
  v.id = .iteration stage.size ∨
    (∃ number, v.id = .parameter number) ∧ v ∉ stage.iterVars.map IterVar.var

/-- The stages that the operations of a schedule lead to. -/
inductive Scheduled : Stage → Prop
  | empty (name : String) (scope : StorageScope) : Scheduled (.empty name scope)
  | root {stage : Stage} (iv : IterVar) (typed : iv.dtype = .int32)
      (guarded : iv.kind.isGuarded = true) (unused : stage.IsUnused iv.var)
      (declared : ∃ range ∈ iv.declared, ∃ low extent, range.IsLiteral low extent)
      (before : Scheduled stage) : Scheduled (stage.addRootVar iv).2
  | split {stage nest : Stage} {parent : IterId} {size : SplitSize} {loops : IterId × IterId}
      (literal : ∃ given, size.IsLiteral given)
      (success : stage.splitBy parent size = .ok (loops, nest))
      (before : Scheduled stage) : Scheduled nest
  | fuse {stage nest : Stage} {outer inner fused : IterId}
      (success : stage.fuse outer inner = .ok (fused, nest))
      (before : Scheduled stage) : Scheduled nest
  | rebase {stage nest : Stage} {parent rebased : IterId}
      (success : stage.rebase parent = .ok (rebased, nest))
      (before : Scheduled stage) : Scheduled nest
  | singleton {stage : Stage} (name : String) (before : Scheduled stage) :
      Scheduled (stage.singleton name).2
  | bind {stage nest : Stage} {leaf thread : IterId} {tag : String}
      (fresh : ∀ iv ∈ stage.iterVars, iv.kind = .thread → iv.name ≠ tag)
      (success : stage.bindThread leaf tag = .ok (thread, nest))
      (before : Scheduled stage) : Scheduled nest

/-- What holds of the iteration variables of a scheduled stage. A symbol that a stage has
made carries the position it was made for. -/
structure Labelled (iterVars : List IterVar) : Prop where
  typed : ∀ iv ∈ iterVars, iv.dtype = .int32
  guarded : ∀ iv ∈ iterVars, iv.kind ≠ .thread → iv.kind.isGuarded = true
  undeclared : ∀ iv ∈ iterVars, iv.kind = .thread → iv.declared = none
  positions : ∀ {index : Nat} {iv : IterVar}, iterVars[index]? = some iv →
    ∀ {position : Nat}, iv.var.id = .iteration position → position = index
  symbols : (iterVars.map IterVar.var).Nodup

/-- What every operation of a schedule keeps. -/
structure Regular (stage : Stage) : Prop extends stage.Nested where
  labelled : Labelled stage.iterVars
  declared : ∀ root ∈ stage.roots, ∃ iv, stage.iterVar? root = some iv ∧
    ∃ range ∈ iv.declared, ∃ low extent, range.IsLiteral low extent
  sizes : ∀ relation ∈ stage.relations, relation.HasLiteralSize
  unskipped : stage.skipped = []
  unshaped : stage.shape = none
  threads : ∀ {leaf thread : IterId}, stage.threads.get? leaf = some thread →
    leaf ∈ stage.loops ∧ ∃ iv, stage.iterVar? thread = some iv ∧ iv.kind = .thread
  distinct : ∀ {leaf leaf' thread : IterId}, stage.threads.get? leaf = some thread →
    stage.threads.get? leaf' = some thread → leaf = leaf'

/-- A variable of a scheduled stage is a 32-bit integer. -/
theorem Regular.dtype_eq (h : stage.Regular) {id : IterId} {iv : IterVar}
    (hiv : stage.iterVar? id = some iv) : iv.dtype = .int32 :=
  h.labelled.typed iv (List.mem_of_getElem? hiv)

/-- A thread is no loop. -/
theorem Regular.thread_notMem_loops (h : stage.Regular) {leaf thread : IterId}
    (hget : stage.threads.get? leaf = some thread) : thread ∉ stage.loops := by
  intro hloop
  obtain ⟨-, iv, hiv, hkind⟩ := h.threads hget
  obtain ⟨other, hother, hne⟩ := mem_loops.mp hloop
  exact hne (Option.some.inj (hiv.symm.trans hother) ▸ hkind)

/-- No thread is bound twice. -/
theorem Regular.nodup_threads (h : stage.Regular) :
    (stage.threads.toList.map Prod.snd).Nodup := by
  refine (stage.threads.nodup_keys.of_map _).map_on fun first hfirst second hsecond hsame => ?_
  have hleaf : first.1 = second.1 :=
    h.distinct (IterMap.mem_toList.mp hfirst) (hsame ▸ IterMap.mem_toList.mp hsecond)
  exact Prod.ext hleaf hsame

/-- A new symbol is not in use. -/
theorem isUnused_freshVar (stage : Stage) (name : String) (dtype : DType) :
    stage.IsUnused (stage.freshVar name dtype) :=
  .inl rfl

/-- The loops of a stage are found in its list of iteration variables, and one more
variable is one more loop unless it is a thread. -/
theorem loops_of_append (stage nest : Stage) (iv : IterVar)
    (hvars : nest.iterVars = stage.iterVars ++ [iv]) :
    nest.loops = stage.loops ++ if iv.kind = .thread then [] else [⟨stage.size⟩] := by
  simp only [loops, entries, hvars, List.zipIdx_append, List.map_append, List.filter_append]
  by_cases hkind : iv.kind = .thread <;> simp [hkind, size]

/-- A labelled list stays so when a variable with an unused symbol is appended. -/
theorem Labelled.push (h : Labelled stage.iterVars) {iv : IterVar} (htyped : iv.dtype = .int32)
    (hguarded : iv.kind ≠ .thread → iv.kind.isGuarded = true)
    (hundeclared : iv.kind = .thread → iv.declared = none) (hunused : stage.IsUnused iv.var) :
    Labelled (stage.iterVars ++ [iv]) := by
  refine ⟨?_, ?_, ?_, ?_, ?_⟩
  · rw [List.forall_mem_append, List.forall_mem_singleton]
    exact ⟨h.typed, htyped⟩
  · rw [List.forall_mem_append, List.forall_mem_singleton]
    exact ⟨h.guarded, hguarded⟩
  · rw [List.forall_mem_append, List.forall_mem_singleton]
    exact ⟨h.undeclared, hundeclared⟩
  · intro index other hget position hposition
    by_cases hlt : index < stage.iterVars.length
    · rw [List.getElem?_append_left hlt] at hget
      exact h.positions hget hposition
    · rw [List.getElem?_append_right (by omega), List.getElem?_singleton] at hget
      obtain ⟨hindex, hsame⟩ := Option.ite_none_right_eq_some.mp hget
      obtain rfl := Option.some.inj hsame
      rcases hunused with hnext | ⟨⟨number, hparameter⟩, -⟩
      · rw [hnext, VarId.iteration.injEq] at hposition
        simp only [size] at hposition
        omega
      · simp [hparameter] at hposition
  · rw [List.map_append, List.map_singleton, List.nodup_append_comm, List.singleton_append,
      List.nodup_cons]
    refine ⟨?_, h.symbols⟩
    rcases hunused with hnext | ⟨-, hnew⟩
    · intro hmem
      obtain ⟨other, hother, hsame⟩ := List.mem_map.mp hmem
      obtain ⟨index, hget⟩ := List.mem_iff_getElem?.mp hother
      have hposition := h.positions hget (hsame ▸ hnext)
      have hlt := (List.getElem?_eq_some_iff.mp hget).1
      simp only [size] at hposition
      omega
    · exact hnew

/-- A nest that grows by loops which it did not have is a nest. -/
theorem Nested.grows (h : stage.Nested) {added : List IterId} {relation? : Option Relation}
    (hgrows : Grows stage nest added relation?)
    (hloops : nest.loops = stage.loops ++ newLoops added relation?) : nest.Nested := by
  have horigin : (stage.defined ++ newLoops added relation?).Perm nest.loops :=
    hloops ▸ h.origin.append_right _
  have hlinked := h.linked.grows hgrows (horigin.nodup_iff.mpr nest.nodup_loops)
  have hdefined := hgrows.perm_defined.trans horigin
  exact ⟨hdefined, hlinked.fate.trans hdefined, hlinked.ordered, hlinked.apart⟩

/-- One more relation between loops, with the properties of the loops that it makes. -/
structure Derives (stage nest : Stage) (relation : Relation) : Prop extends
    Grows stage nest [] (some relation) where
  loops : nest.loops = stage.loops ++ relation.outputs
  labelled : Labelled nest.iterVars
  extends_vars : ∀ {id iv}, stage.iterVar? id = some iv → nest.iterVar? id = some iv
  literal : relation.HasLiteralSize
  threads : nest.threads = stage.threads
  skipped : nest.skipped = stage.skipped
  shape : nest.shape = stage.shape

/-- Deriving loops keeps a stage regular. -/
theorem Regular.derives (h : stage.Regular) {relation : Relation}
    (hderives : Derives stage nest relation) : nest.Regular := by
  have hloops : nest.loops = stage.loops ++ newLoops [] (some relation) := by
    simpa [newLoops] using hderives.loops
  refine ⟨h.toNested.grows hderives.toGrows hloops, hderives.labelled, ?_, ?_, ?_, ?_, ?_, ?_⟩
  · rw [hderives.roots, List.append_nil]
    intro root hroot
    obtain ⟨iv, hget, hdeclared⟩ := h.declared root hroot
    exact ⟨iv, hderives.extends_vars hget, hdeclared⟩
  · rw [hderives.relations, List.forall_mem_append]
    exact ⟨h.sizes, by simpa using hderives.literal⟩
  · rw [hderives.skipped, h.unskipped]
  · rw [hderives.shape, h.unshaped]
  · rw [hderives.threads, hderives.loops]
    intro leaf thread hget
    obtain ⟨hleaf, iv, hthread, hkind⟩ := h.threads hget
    exact ⟨List.mem_append_left _ hleaf, iv, hderives.extends_vars hthread, hkind⟩
  · rw [hderives.threads]
    exact h.distinct

/-- A derived loop has the next position and a symbol of its own. -/
theorem labelled_addDerived (h : Labelled stage.iterVars) (name : String) {dtype : DType}
    {kind : IterKind} (hdtype : dtype = .int32) (hkind : kind.isGuarded = true) :
    Labelled (stage.addDerived name dtype kind).2.iterVars := by
  exact h.push hdtype (fun _ => hkind) (fun _ => rfl) (stage.isUnused_freshVar name dtype)

theorem loops_addDerived (stage : Stage) (name : String) (dtype : DType) {kind : IterKind}
    (hkind : kind.isGuarded = true) :
    (stage.addDerived name dtype kind).2.loops = stage.loops ++ [⟨stage.size⟩] := by
  rw [loops_of_append stage (stage.addDerived name dtype kind).2 _ rfl, if_neg]
  intro hthread
  rw [show kind = .thread from hthread] at hkind
  cases hkind

theorem iterVar?_addDerived {id : IterId} {iv : IterVar} (h : stage.iterVar? id = some iv)
    (name : String) (dtype : DType) (kind : IterKind) :
    (stage.addDerived name dtype kind).2.iterVar? id = some iv :=
  iterVar?_append rfl h

/-- A leaf is a number, and it is guarded. -/
theorem Regular.leaf_label (h : stage.Regular) {leaf : IterId} (hleaf : leaf ∈ stage.leaves)
    {iv : IterVar} (hget : stage.iterVar? leaf = some iv) :
    iv.dtype = .int32 ∧ iv.kind.isGuarded = true := by
  have hmem := List.mem_of_getElem? hget
  obtain ⟨other, hother, hkind⟩ := mem_loops.mp (h.mem_loops_of_mem_leaves hleaf)
  obtain rfl : iv = other := Option.some.inj (hget.symm.trans hother)
  exact ⟨h.labelled.typed iv hmem, h.labelled.guarded iv hmem hkind⟩

theorem Regular.splitBy (h : stage.Regular) {parent : IterId} {size : SplitSize}
    {made : IterId × IterId} (hliteral : ∃ given, size.IsLiteral given)
    (hsuccess : stage.splitBy parent size = .ok (made, nest)) : nest.Regular := by
  obtain ⟨iv, hiv, hleaf, hgrows, position, rfl⟩ := splitBy_inv hsuccess
  obtain ⟨hdtype, hkind⟩ := h.leaf_label hleaf hiv
  let withOuter := (stage.addDerived (iv.name ++ ".outer") iv.dtype iv.kind).2
  refine h.derives
    { hgrows with
      loops := ?_
      labelled := labelled_addDerived (labelled_addDerived h.labelled _ hdtype hkind) _ hdtype hkind
      extends_vars := fun hget => iterVar?_addDerived (iterVar?_addDerived hget _ _ _) _ _ _
      literal := hliteral
      threads := rfl
      skipped := rfl
      shape := rfl }
  have houter := loops_addDerived stage (iv.name ++ ".outer") iv.dtype hkind
  have hinner := loops_addDerived withOuter (iv.name ++ ".inner") iv.dtype hkind
  rw [houter, List.append_assoc] at hinner
  exact hinner

theorem Regular.fuse (h : stage.Regular) {outer inner fused : IterId}
    (hsuccess : stage.fuse outer inner = .ok (fused, nest)) : nest.Regular := by
  obtain ⟨outerVar, innerVar, houter, hinner, hleaf, hleaf', hgrows, position, rfl⟩ :=
    fuse_inv hsuccess
  obtain ⟨hdtype, hkind⟩ := h.leaf_label hleaf houter
  obtain ⟨hdtype', hkind'⟩ := h.leaf_label hleaf' hinner
  have hjoin : outerVar.dtype.join innerVar.dtype = .int32 := by
    rw [hdtype, hdtype']
    decide
  have hfuse : (outerVar.kind.fuse innerVar.kind).isGuarded = true := by
    rw [IterKind.fuse]
    split
    · exact hkind
    · rfl
  exact h.derives
    { hgrows with
      loops := loops_addDerived stage _ _ hfuse
      labelled := labelled_addDerived h.labelled _ hjoin hfuse
      extends_vars := fun hget => iterVar?_addDerived hget _ _ _
      literal := trivial
      threads := rfl
      skipped := rfl
      shape := rfl }

theorem Regular.rebase (h : stage.Regular) {parent rebased : IterId}
    (hsuccess : stage.rebase parent = .ok (rebased, nest)) : nest.Regular := by
  obtain ⟨iv, hiv, hleaf, hgrows, position, rfl⟩ := rebase_inv hsuccess
  obtain ⟨hdtype, hkind⟩ := h.leaf_label hleaf hiv
  exact h.derives
    { hgrows with
      loops := loops_addDerived stage _ _ hkind
      labelled := labelled_addDerived h.labelled _ hdtype hkind
      extends_vars := fun hget => iterVar?_addDerived hget _ _ _
      literal := trivial
      threads := rfl
      skipped := rfl
      shape := rfl }

theorem Regular.singleton (h : stage.Regular) (name : String) :
    (stage.singleton name).2.Regular :=
  h.derives
    { stage.grows_singleton name with
      loops := loops_addDerived stage _ _ rfl
      labelled := labelled_addDerived h.labelled _ rfl rfl
      extends_vars := fun hget => iterVar?_addDerived hget _ _ _
      literal := trivial
      threads := rfl
      skipped := rfl
      shape := rfl }

/-- A root is one more loop, and a leaf until it is transformed. -/
theorem Regular.addRootVar (h : stage.Regular) {iv : IterVar} (typed : iv.dtype = .int32)
    (guarded : iv.kind.isGuarded = true) (unused : stage.IsUnused iv.var)
    (declared : ∃ range ∈ iv.declared, ∃ low extent, range.IsLiteral low extent) :
    (stage.addRootVar iv).2.Regular := by
  have hkind : iv.kind ≠ .thread := fun hthread => by
    rw [hthread] at guarded
    cases guarded
  have hloops : (stage.addRootVar iv).2.loops = stage.loops ++ [⟨stage.size⟩] := by
    rw [loops_of_append stage _ iv rfl, if_neg hkind]
  have hget : ∀ {id other}, stage.iterVar? id = some other →
      (stage.addRootVar iv).2.iterVar? id = some other := fun hget => iterVar?_append rfl hget
  refine ⟨h.toNested.grows (stage.grows_addRootVar iv) hloops, ?_, ?_, h.sizes, h.unskipped,
    h.unshaped, ?_, h.distinct⟩
  · exact h.labelled.push typed (fun _ => guarded) (fun hthread => absurd hthread hkind) unused
  · intro root hroot
    rcases List.mem_append.mp hroot with hold | hnew
    · obtain ⟨other, hother, hdeclared⟩ := h.declared root hold
      exact ⟨other, hget hother, hdeclared⟩
    · obtain rfl := List.mem_singleton.mp hnew
      exact ⟨iv, by simp [Stage.addRootVar, addIterVar, iterVar?, size], declared⟩
  · intro leaf thread hthread
    obtain ⟨hleaf, other, hother, hkind'⟩ := h.threads hthread
    exact ⟨hloops ▸ List.mem_append_left _ hleaf, other, hget hother, hkind'⟩

/-- A binding to a new thread makes that thread and nothing else. -/
theorem Regular.bindThread (h : stage.Regular) {leaf thread : IterId} {tag : String}
    (fresh : ∀ iv ∈ stage.iterVars, iv.kind = .thread → iv.name ≠ tag)
    (hsuccess : stage.bindThread leaf tag = .ok (thread, nest)) : nest.Regular := by
  obtain ⟨iv, hiv, hleaf, hthread, hnest⟩ := bindThread_inv hsuccess
  obtain ⟨hdtype, -⟩ := h.leaf_label hleaf hiv
  have hnone : stage.findId? (fun iv => iv.kind = .thread && iv.name = tag) = none := by
    rw [findId?, Option.map_eq_none_iff, List.findIdx?_eq_none_iff]
    intro other hother
    simp only [Bool.and_eq_false_imp, decide_eq_true_eq, decide_eq_false_iff_not]
    exact fresh other hother
  let axis : IterVar := ⟨stage.freshVar tag iv.dtype, none, .thread⟩
  have haxis : stage.threadAxis tag none iv.dtype = (⟨stage.size⟩, (stage.addIterVar axis).2) := by
    rw [threadAxis, hnone]
    rfl
  rw [haxis] at hthread hnest
  obtain rfl := hthread
  obtain rfl := hnest
  have hloops : ((stage.addIterVar axis).2.setThread leaf ⟨stage.size⟩).loops = stage.loops := by
    rw [loops_of_append stage _ axis rfl, if_pos rfl, List.append_nil]
  have hget : ∀ {id other}, stage.iterVar? id = some other →
      ((stage.addIterVar axis).2.setThread leaf ⟨stage.size⟩).iterVar? id = some other :=
    fun hget => iterVar?_append rfl hget
  have hself : ((stage.addIterVar axis).2.setThread leaf ⟨stage.size⟩).iterVar? ⟨stage.size⟩ =
      some axis := by
    simp [setThread, addIterVar, iterVar?, size]
  -- A thread that was there before is not the new one.
  have hold : ∀ {other}, stage.threads.get? other ≠ some ⟨stage.size⟩ := by
    intro other hthread
    obtain ⟨-, found, hfound, -⟩ := h.threads hthread
    exact absurd (index_lt_size hfound) (Nat.lt_irrefl _)
  have hthreads : ∀ other,
      ((stage.addIterVar axis).2.setThread leaf ⟨stage.size⟩).threads.get? other =
        if other = leaf then some ⟨stage.size⟩ else stage.threads.get? other :=
    fun other => IterMap.get?_insert stage.threads leaf other ⟨stage.size⟩
  refine ⟨⟨?_, ?_, h.ordered, h.apart⟩, ?_, ?_, h.sizes, h.unskipped, h.unshaped, ?_, ?_⟩
  · exact hloops.symm ▸ h.origin
  · exact hloops.symm ▸ h.fate
  · exact h.labelled.push hdtype (fun hkind => absurd rfl hkind) (fun _ => rfl)
      (stage.isUnused_freshVar tag iv.dtype)
  · intro root hroot
    obtain ⟨other, hother, hdeclared⟩ := h.declared root hroot
    exact ⟨other, hget hother, hdeclared⟩
  · intro other thread hthread
    rw [hthreads] at hthread
    rw [hloops]
    split at hthread
    · rename_i heq
      exact ⟨heq ▸ h.mem_loops_of_mem_leaves hleaf, axis, Option.some.inj hthread ▸ hself, rfl⟩
    · obtain ⟨hloop, found, hfound, hkind⟩ := h.threads hthread
      exact ⟨hloop, found, hget hfound, hkind⟩
  · intro first second thread hfirst hsecond
    rw [hthreads] at hfirst hsecond
    by_cases heq : first = leaf
    · by_cases heq' : second = leaf
      · rw [heq, heq']
      · rw [if_pos heq] at hfirst
        rw [if_neg heq', ← hfirst] at hsecond
        exact absurd hsecond hold
    · by_cases heq' : second = leaf
      · rw [if_pos heq'] at hsecond
        rw [if_neg heq, ← hsecond] at hfirst
        exact absurd hfirst hold
      · rw [if_neg heq] at hfirst
        rw [if_neg heq'] at hsecond
        exact h.distinct hfirst hsecond

/-- Scheduling keeps a stage regular, one operation at a time. -/
theorem Scheduled.regular (h : stage.Scheduled) : stage.Regular := by
  induction h with
  | empty name scope =>
      refine ⟨⟨.nil, .nil, .nil, by simp [Stage.empty]⟩, ⟨?_, ?_, ?_, ?_, .nil⟩, ?_, ?_, rfl, rfl,
        ?_, ?_⟩ <;> simp [Stage.empty]
  | root iv typed guarded unused declared before ih =>
      exact ih.addRootVar typed guarded unused declared
  | split literal success before ih => exact ih.splitBy literal success
  | fuse success before ih => exact ih.fuse success
  | rebase success before ih => exact ih.rebase success
  | singleton name before ih => exact ih.singleton name
  | bind fresh success before ih => exact ih.bindThread fresh success

end Stage

end LoopNest
