/-
# Leaves that are lowered

A leaf is driven by its own variable or by the thread it runs on. The index of a leaf is
the variable that drives it, which for a thread is moved to the start of the range of the
leaf. Lowering assumes that the index of every leaf stays in its range. Where the variable
is not moved this is true, and where it is moved the assumption says nothing.
-/

import LoopNest.Proofs.Facts.Inert
import LoopNest.Proofs.Facts.Prove
import LoopNest.Proofs.Guard.Points

namespace LoopNest

namespace Expr

variable {assignment : Assignment} {lhs rhs : Expr} {x y : Int} {op : BinaryOp}

/-- A folded comparison evaluates to its truth value. -/
theorem eval_combine_comparison (hop : op.isComparison = true) (hlhs : lhs.TypedAt .int32)
    (hrhs : rhs.TypedAt .int32) (hx : lhs.eval assignment = .ok x)
    (hy : rhs.eval assignment = .ok y) {holds : Bool}
    (h : op.compute? x y = some (BinaryOp.truth holds)) :
    (combine op lhs rhs).eval assignment = .ok (BinaryOp.truth holds) := by
  have hlogical : op.isLogical = true → lhs.dtype = .bool := fun hlogical => by
    cases op <;> simp_all [BinaryOp.isComparison, BinaryOp.isLogical]
  exact eval_combine hlhs.wellTyped.formed hrhs.wellTyped.formed
    (hlhs.dtype_eq.trans hrhs.dtype_eq.symm) hlogical (eval_comparison hop hx hy h)

/-- A folded conjunction evaluates to the conjunction of the truth values. -/
theorem eval_and_truth (hlhs : lhs.TypedAt .bool) (hrhs : rhs.TypedAt .bool) {left right : Bool}
    (hx : lhs.eval assignment = .ok (BinaryOp.truth left))
    (hy : rhs.eval assignment = .ok (BinaryOp.truth right)) :
    (lhs.and rhs).eval assignment = .ok (BinaryOp.truth (left && right)) := by
  apply eval_combine hlhs.wellTyped.formed hrhs.wellTyped.formed
    (hlhs.dtype_eq.trans hrhs.dtype_eq.symm) fun _ => hlhs.dtype_eq
  cases left
  · exact eval_binary_of_decidedBy? hx rfl
  · rw [eval_binary_of_eval hx hy (show BinaryOp.and.compute? _ _ = some (BinaryOp.truth right) by
      cases right <;> rfl)]
    cases right <;> rfl

end Expr

namespace LeafIndex

variable {entry : LeafIndex} {assignment : Assignment}

/-- The constraint of a leaf is true, or it says nothing once it is simplified. -/
def Harmless (entry : LeafIndex) (assignment : Assignment) : Prop :=
  entry.constraint.WellTyped ∧ entry.constraint.eval assignment = .ok 1 ∨
    ∀ facts : Facts, (facts.simplify entry.constraint).Inert

section Constraint

variable {leaf : IterId} {index : Expr} {low extent x : Int}
variable (htyped : index.TypedAt .int32) (hlow : DType.int32.contains low = true)
variable (hend : DType.int32.contains (low + extent) = true)
include htyped hlow hend

/-- The two ends of a literal range are compared. -/
theorem constraint_ofInts :
    ∃ lower upper, (⟨leaf, index, .ofInts low extent⟩ : LeafIndex).constraint = lower.and upper ∧
      lower = (Expr.const .int32 low).le index ∧ lower.TypedAt .bool ∧
      upper = index.lt (.const .int32 (low + extent)) ∧ upper.TypedAt .bool := by
  have hlower := Expr.typedAt_const hlow
  have hupper := Expr.typedAt_const hend
  refine ⟨_, _, ?_, rfl, .combine_predicate rfl hlower.wellTyped htyped.wellTyped
    (hlower.dtype_eq.trans htyped.dtype_eq.symm) nofun, rfl, .combine_predicate rfl
    htyped.wellTyped hupper.wellTyped (htyped.dtype_eq.trans hupper.dtype_eq.symm) nofun⟩
  rw [constraint, Range.stop_ofInts hend]
  rfl

/-- The constraint is true for an index inside. -/
theorem harmless_of_eval (hx : index.eval assignment = .ok x) (hle : low ≤ x)
    (hlt : x < low + extent) :
    (⟨leaf, index, .ofInts low extent⟩ : LeafIndex).Harmless assignment := by
  obtain ⟨lower, upper, hconstraint, hlower, hbool, hupper, hbool'⟩ :=
    @constraint_ofInts leaf index low extent htyped hlow hend
  left
  rw [hconstraint]
  refine ⟨(Expr.TypedAt.combine_predicate rfl hbool.wellTyped hbool'.wellTyped
    (hbool.dtype_eq.trans hbool'.dtype_eq.symm) fun _ => hbool.dtype_eq).wellTyped, ?_⟩
  have hvalue : lower.eval assignment = .ok (BinaryOp.truth true) := by
    rw [hlower]
    exact Expr.eval_combine_comparison rfl (Expr.typedAt_const hlow) htyped
      (Expr.eval_const_of_contains hlow) hx (by simp [BinaryOp.compute?, hle])
  have hvalue' : upper.eval assignment = .ok (BinaryOp.truth true) := by
    rw [hupper]
    exact Expr.eval_combine_comparison rfl htyped (Expr.typedAt_const hend) hx
      (Expr.eval_const_of_contains hend) (by simp [BinaryOp.compute?, hlt])
  exact Expr.eval_and_truth hbool hbool' hvalue hvalue'

/-- The constraint says nothing about an index that does not become a bare variable. -/
theorem harmless_of_var? (hbare : ∀ facts : Facts, (facts.simplify index).var? = none) :
    (⟨leaf, index, .ofInts low extent⟩ : LeafIndex).Harmless assignment := by
  obtain ⟨lower, upper, hconstraint, hlower, hbool, hupper, hbool'⟩ :=
    @constraint_ofInts leaf index low extent htyped hlow hend
  right
  intro facts
  rw [hconstraint]
  apply facts.inert_simplify_and hbool hbool'
  · rw [hlower]
    exact facts.inert_simplify_combine (.inl rfl) (Expr.typedAt_const hlow) htyped rfl (hbare facts)
  · rw [hupper]
    exact facts.inert_simplify_combine (.inr rfl) htyped (Expr.typedAt_const hend) (hbare facts) rfl

end Constraint

/-- The constraints of leaves are simplified exactly when they are assumed one after the
other. -/
def AssumesExactly (assignment : Assignment) : Facts → List LeafIndex → Prop
  | _, [] => True
  | facts, entry :: rest => facts.SimplifiesExactly assignment entry.constraint ∧
    AssumesExactly assignment (facts.assume entry.constraint) rest

instance decidableAssumesExactly (assignment : Assignment) : (facts : Facts) →
    DecidablePred (AssumesExactly assignment facts)
  | _, [] => .isTrue trivial
  | facts, entry :: rest =>
    haveI := decidableAssumesExactly assignment (facts.assume entry.constraint) rest
    inferInstanceAs (Decidable (facts.SimplifiesExactly assignment entry.constraint ∧
      AssumesExactly assignment (facts.assume entry.constraint) rest))

/-- Assume that the index of every leaf stays in its range. -/
def assumeAll (facts : Facts) (entries : List LeafIndex) : Facts :=
  entries.foldl (fun facts entry => facts.assume entry.constraint) facts

/-- Facts are still respected when harmless constraints are assumed. -/
theorem assumeAll_respects {facts : Facts} {entries : List LeafIndex}
    (h : facts.Respects assignment) (hexact : AssumesExactly assignment facts entries)
    (hharmless : ∀ entry ∈ entries, entry.Harmless assignment) :
    (assumeAll facts entries).Respects assignment := by
  induction entries generalizing facts with
  | nil => exact h
  | cons entry rest ih =>
      rw [List.forall_mem_cons] at hharmless
      obtain ⟨hfirst, hrest⟩ := hexact
      refine ih ⟨h.ranges, fun constraint hmem => ?_⟩ hrest hharmless.2
      rcases List.mem_append.mp hmem with hmem | hmem
      · exact h.constraints constraint hmem
      · rcases hharmless.1 with ⟨hwell, htrue⟩ | hinert
        · exact .inr (h.conjuncts_simplify hwell hfirst htrue one_ne_zero constraint hmem)
        · exact .inl ((hinert facts).conjuncts constraint hmem)

end LeafIndex

namespace Stage

variable {stage : Stage} {supplied ranges : IterMap Range} {inferred : Inference} {leaf : IterId}
  {point : IterId → Int} {box : Box}

/-- The variable that gives a leaf its value: the thread it runs on, or its own. -/
def driver (stage : Stage) (leaf : IterId) : IterId :=
  (stage.threadOf? leaf).getD leaf

/-- The variables that give the leaves their values. -/
def drivers (stage : Stage) : List IterId :=
  stage.leaves.map stage.driver

/-- How far the variable of a leaf is moved: a thread by the start of the range of the leaf. -/
def shift (stage : Stage) (box : Box) (leaf : IterId) : Int :=
  if (stage.threadOf? leaf).isSome then box.low leaf else 0

/-- The index of a leaf and the range it stays in. -/
def drivenIndex (stage : Stage) (box : Box) (leaf : IterId) : LeafIndex :=
  ⟨leaf, (stage.exprOf (stage.driver leaf)).offsetBy (.const .int32 (stage.shift box leaf)),
    .ofInts (box.low leaf) (box.extent leaf)⟩

/-- What was inferred, and that the index of every leaf stays in its range. -/
def drivenFacts (stage : Stage) (inferred : Inference) : Facts :=
  LeafIndex.assumeAll inferred.facts (stage.leaves.map (stage.drivenIndex inferred.ranges.box))

namespace Regular

theorem exists_driver (h : stage.Regular) (hleaf : leaf ∈ stage.leaves) :
    ∃ iv, stage.iterVar? (stage.driver leaf) = some iv ∧ iv.dtype = .int32 := by
  have hfound : ∃ iv, stage.iterVar? (stage.driver leaf) = some iv := by
    rw [driver]
    cases hthread : stage.threadOf? leaf with
    | none =>
        obtain ⟨iv, hiv, -⟩ := mem_loops.mp (h.mem_loops_of_mem_leaves hleaf)
        exact ⟨iv, hiv⟩
    | some thread =>
        obtain ⟨-, iv, hiv, -⟩ := h.threads hthread
        exact ⟨iv, hiv⟩
  obtain ⟨iv, hiv⟩ := hfound
  exact ⟨iv, hiv, h.dtype_eq hiv⟩

/-- The leaves are indexed by the variables that drive them. -/
theorem mapM_leafIndex (h : stage.Regular) (hranges : stage.HasLiteralRanges .int32 ranges) :
    stage.leaves.mapM (stage.leafIndex ranges) =
      .ok (stage.leaves.map (stage.drivenIndex ranges.box)) := by
  refine mapM_eq_ok fun leaf hleaf => ?_
  have hloop := h.mem_loops_of_mem_leaves hleaf
  obtain ⟨iv, hiv, -⟩ := mem_loops.mp hloop
  obtain ⟨driving, hdriving, hdtype⟩ := h.exists_driver hleaf
  obtain ⟨hrange, hlow, -⟩ := hranges.loops leaf (h.linked.mem_defined_of_mem_leaves hleaf)
  rw [drivenIndex, exprOf_eq hdriving, leafIndex, iterVar_eq_ok hiv, ok_bind, require, hrange,
    ok_bind]
  rw [driver] at hdriving
  rw [shift]
  cases hthread : stage.threadOf? leaf with
  | none =>
      rw [hthread, Option.getD_none, hiv, Option.some.injEq] at hdriving
      rw [hdriving]
      rfl
  | some thread =>
      rw [hthread, Option.getD_some] at hdriving
      have htyped : driving.expr.TypedAt .int32 := ⟨⟨trivial, trivial⟩, hdtype⟩
      have hleaf : iv.dtype = .int32 := h.dtype_eq hiv
      simp only [iterVar_eq_ok hdriving, ok_bind, hleaf, Range.between,
        Expr.castTo_of_dtype_eq (htyped.offsetBy hlow).dtype_eq]
      rfl

/-- A driver belongs to one leaf. -/
theorem driver_injOn (h : stage.Regular) : Set.InjOn stage.driver {leaf | leaf ∈ stage.leaves} := by
  intro leaf hleaf leaf' hleaf' hsame
  have hthread : ∀ {leaf thread : IterId}, stage.threadOf? leaf = some thread →
      thread ∉ stage.leaves :=
    fun hget hmem => h.thread_notMem_loops hget (h.mem_loops_of_mem_leaves hmem)
  rw [driver, driver] at hsame
  cases hfirst : stage.threadOf? leaf with
  | none =>
      cases hsecond : stage.threadOf? leaf' with
      | none => simpa [hfirst, hsecond] using hsame
      | some thread =>
          simp only [hfirst, hsecond, Option.getD_none, Option.getD_some] at hsame
          exact absurd (hsame ▸ hleaf) (hthread hsecond)
  | some thread =>
      cases hsecond : stage.threadOf? leaf' with
      | none =>
          simp only [hfirst, hsecond, Option.getD_none, Option.getD_some] at hsame
          exact absurd (hsame ▸ hleaf') (hthread hfirst)
      | some thread' =>
          simp only [hfirst, hsecond, Option.getD_some] at hsame
          exact h.distinct hfirst (hsame ▸ hsecond)

end Regular

/-- A leaf has the range of the variable that drives it. -/
theorem Infers.get?_driver (h : stage.Infers supplied inferred) (leaf : IterId) :
    inferred.ranges.get? (stage.driver leaf) = inferred.ranges.get? leaf := by
  rw [driver]
  cases hthread : stage.threadOf? leaf with
  | none => rfl
  | some thread => exact h.threads hthread

theorem Infers.box_driver (h : stage.Infers supplied inferred) (leaf : IterId) :
    inferred.ranges.box.low (stage.driver leaf) = inferred.ranges.box.low leaf ∧
      inferred.ranges.box.extent (stage.driver leaf) = inferred.ranges.box.extent leaf := by
  simp only [IterMap.box, h.get?_driver, and_self]

/-- The drivers have literal ranges. -/
theorem Infers.drivers_literal (h : stage.Infers supplied inferred) (hregular : stage.Regular)
    (hends : ∀ id ∈ stage.drivers, DType.int32.contains
      (inferred.ranges.box.low id + inferred.ranges.box.extent id) = true) :
    DrivesLiterally inferred.ranges stage.drivers := by
  intro id hid
  obtain ⟨leaf, hleaf, rfl⟩ := List.mem_map.mp hid
  obtain ⟨hget, hlow, -⟩ := h.hasNumbers (hregular.mem_loops_of_mem_leaves hleaf)
  obtain ⟨hlow', hextent'⟩ := h.box_driver leaf
  have hend := hends _ hid
  rw [hlow', hextent'] at hend
  exact ⟨_, _, (h.get?_driver leaf).trans hget, hlow, hend⟩

/-- What was inferred holds at a point inside. -/
theorem Infers.respects (h : stage.Infers supplied inferred) (hregular : stage.Regular)
    {drivers : List IterId} (hliteral : DrivesLiterally inferred.ranges drivers)
    (hinside : Inside inferred.ranges drivers point) :
    inferred.facts.Respects (stage.assignmentAt drivers point) := by
  refine ⟨fun v range x hrange hx => ?_, fun constraint hmem => ?_⟩
  · obtain ⟨id, iv, hiv, rfl, hget⟩ := h.literal.bound hrange
    cases hassigned : stage.assignmentAt drivers point iv.var with
    | none => simp [Expr.eval_var, hassigned] at hx
    | some y =>
        obtain ⟨other, hother, found, hfound, hvar, rfl⟩ := assignmentAt_eq_some hassigned
        obtain rfl := hregular.eq_of_var_eq hfound hiv hvar
        obtain ⟨low, extent, hget', hlow, hend⟩ := hliteral other hother
        obtain rfl := Option.some.inj (hget.symm.trans hget')
        obtain ⟨hle, hlt⟩ := hinside other hother
        rw [(IterMap.box_of_get? hget).1] at hle hlt
        rw [(IterMap.box_of_get? hget).2] at hlt
        have hvalue := (hregular.eval_driver hliteral hinside hother hiv).2
        obtain rfl : point other = x := Except.ok.inj (hvalue.symm.trans hx)
        obtain ⟨low', extent', hlow', hextent', heq⟩ := h.literal.literal hget
        obtain ⟨rfl, rfl⟩ : low = low' ∧ extent = extent' := by simpa [Range.ofInts] using heq
        have hstop := Range.stop_ofInts hend
        refine ⟨⟨hlow, hextent'⟩, ⟨?_, ?_⟩, low, low + extent, Expr.eval_const_of_contains hlow, ?_,
          hle, hlt⟩
        · exact Expr.isFinite_of_contains hlow
        · rw [hstop]
          exact Expr.isFinite_of_contains hend
        · rw [hstop]
          exact Expr.eval_const_of_contains hend
  · rw [h.literal.unconstrained] at hmem
    cases hmem

/-- The offset of a leaf fits. -/
theorem Infers.contains_shift (h : stage.Infers supplied inferred) (hregular : stage.Regular)
    (hleaf : leaf ∈ stage.leaves) :
    DType.int32.contains (stage.shift inferred.ranges.box leaf) = true := by
  rw [shift]
  split
  · exact (h.hasNumbers (hregular.mem_loops_of_mem_leaves hleaf)).low
  · exact DType.contains_zero _

/-- The index of a leaf is a number, and a literal only if it is the start of the range. -/
theorem Infers.typedAt_drivenIndex (h : stage.Infers supplied inferred) (hregular : stage.Regular)
    (hleaf : leaf ∈ stage.leaves) :
    (stage.drivenIndex inferred.ranges.box leaf).index.TypedAt .int32 ∧
      (stage.drivenIndex inferred.ranges.box leaf).index.IsOpenOr
        (inferred.ranges.box.low leaf) := by
  obtain ⟨iv, hiv, hdtype⟩ := hregular.exists_driver hleaf
  have htyped : iv.expr.TypedAt .int32 := ⟨⟨trivial, trivial⟩, hdtype⟩
  have hopen : iv.expr.IsOpenOr 0 := nofun
  have hshift := h.contains_shift hregular hleaf
  rw [drivenIndex, exprOf_eq hiv]
  refine ⟨htyped.offsetBy hshift, fun value hvalue => ?_⟩
  have hsame := hopen.offsetBy htyped hshift value hvalue
  rw [shift] at hsame hvalue
  split at hsame
  · exact hsame
  · rename_i hfree
    rw [if_neg hfree] at hvalue
    cases hvalue

section Point

variable {drivers : List IterId}
variable (h : stage.Regular) (hinfers : stage.Infers supplied inferred)
variable (hliteral : DrivesLiterally inferred.ranges drivers)
variable (hinside : Inside inferred.ranges drivers point) (hleaf : leaf ∈ stage.leaves)
variable (hdriver : stage.driver leaf ∈ drivers)
include h hinfers hliteral hinside hleaf hdriver

/-- The index of a leaf is the value that drives it, moved and wrapped. -/
theorem Infers.eval_drivenIndex :
    (stage.drivenIndex inferred.ranges.box leaf).index.eval
      (stage.assignmentAt drivers point) = .ok (DType.int32.truncate
        (point (stage.driver leaf) + stage.shift inferred.ranges.box leaf)) := by
  obtain ⟨iv, hiv, -⟩ := h.exists_driver hleaf
  have hshift := hinfers.contains_shift h hleaf
  obtain ⟨htyped, hvalue⟩ := h.eval_driver hliteral hinside hdriver hiv
  rw [drivenIndex, exprOf_eq hiv, Expr.offsetBy_const]
  split
  · rename_i hzero
    rw [hzero, add_zero, DType.truncate_of_contains (hliteral.contains hinside hdriver)]
    exact hvalue
  · exact Expr.eval_combine_numbers rfl htyped (Expr.typedAt_const hshift) hvalue
      (Expr.eval_const_of_contains hshift) rfl

/-- The constraint of a leaf is harmless. -/
theorem Infers.harmless_drivenIndex : (stage.drivenIndex inferred.ranges.box leaf).Harmless
    (stage.assignmentAt drivers point) := by
  obtain ⟨iv, hiv, hdtype⟩ := h.exists_driver hleaf
  have hshift := hinfers.contains_shift h hleaf
  obtain ⟨hget, hlow, -⟩ := hinfers.hasNumbers (h.mem_loops_of_mem_leaves hleaf)
  obtain ⟨hlow', hextent'⟩ := hinfers.box_driver leaf
  have hend : DType.int32.contains
      (inferred.ranges.box.low leaf + inferred.ranges.box.extent leaf) = true := by
    obtain ⟨low, extent, hrange, -, hend⟩ := hliteral _ hdriver
    obtain ⟨hlow, hextent⟩ := IterMap.box_of_get? hrange
    rwa [← hlow', ← hextent', hlow, hextent]
  obtain ⟨htyped, hvalue⟩ := h.eval_driver hliteral hinside hdriver hiv
  obtain ⟨hle, hlt⟩ := hinside _ hdriver
  rw [hlow'] at hle hlt
  rw [hextent'] at hlt
  rw [drivenIndex, exprOf_eq hiv, Expr.offsetBy_const]
  split
  · exact LeafIndex.harmless_of_eval htyped hlow hend hvalue hle hlt
  · rename_i hmoved
    exact LeafIndex.harmless_of_var? (htyped.combine rfl (Expr.typedAt_const hshift)) hlow hend
      fun facts => facts.var?_simplify_add hdtype hshift hmoved

end Point

/-- Facts that were inferred are respected at a point inside, also when it is assumed that
every leaf stays in its range. -/
theorem Infers.drivenFacts_respects {drivers : List IterId} (h : stage.Infers supplied inferred)
    (hregular : stage.Regular) (hliteral : DrivesLiterally inferred.ranges drivers)
    (hinside : Inside inferred.ranges drivers point)
    (hdrivers : ∀ leaf ∈ stage.leaves, stage.driver leaf ∈ drivers)
    (hexact : LeafIndex.AssumesExactly (stage.assignmentAt drivers point) inferred.facts
      (stage.leaves.map (stage.drivenIndex inferred.ranges.box))) :
    (stage.drivenFacts inferred).Respects (stage.assignmentAt drivers point) := by
  refine LeafIndex.assumeAll_respects (h.respects hregular hliteral hinside) hexact
    fun entry hentry => ?_
  obtain ⟨leaf, hleaf, rfl⟩ := List.mem_map.mp hentry
  exact h.harmless_drivenIndex hregular hliteral hinside hleaf (hdrivers leaf hleaf)

end Stage

end LoopNest
