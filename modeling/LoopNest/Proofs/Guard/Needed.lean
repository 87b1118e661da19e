/-
# Guards that are needed

A nest that is made by splits and rebasing alone gets no guard in vain: each one is false at
some point inside. The index of a loop is put together there from the variables of leaves by
sums, by products with positive literals and by offsets, so it only grows with them. The
interval analysis of such an index is exact. Its upper end is the value in the last iteration
of all leaves, and a guard that could not be proved is false at this very point.

Nothing is said about nests with fusions, whose indices are quotients and remainders.
-/

import LoopNest.Proofs.Facts.Counted
import LoopNest.Proofs.Facts.Membership
import LoopNest.Proofs.Guard.Exact

namespace LoopNest

/-- The result grows with the left operand when the right one is this number. -/
def BinaryOp.GrowsBy (op : BinaryOp) (factor : Int) : Prop :=
  op = .add ∨ op = .sub ∨ op = .mul ∧ 1 ≤ factor

namespace Expr

variable {among : Var → Prop} {e lhs rhs : Expr} {dtype : DType} {factor offset : Int}

/-- Sums of variables of a kind, and what grows with them by literals. -/
inductive Rises (among : Var → Prop) : Expr → Prop
  | var {v : Var} (kind : among v) : Rises among (.var v)
  | add {lhs rhs : Expr} (left : Rises among lhs) (right : Rises among rhs) :
      Rises among (.binary .add lhs rhs)
  | literal {op : BinaryOp} {e : Expr} {dtype : DType} {factor : Int} (h : Rises among e)
      (grows : op.GrowsBy factor) : Rises among (.binary op e (.const dtype factor))

theorem Rises.value?_eq_none (h : e.Rises among) : e.value? = none := by
  cases h <;> rfl

theorem Rises.combine_add (h : lhs.Rises among) (h' : rhs.Rises among)
    (same : lhs.dtype = rhs.dtype) : (lhs.add rhs).Rises among := by
  rw [add_of_value?_eq_none h.value?_eq_none h'.value?_eq_none same]
  exact .add h h'

theorem Rises.mul_const (h : e.Rises among) (hdtype : e.dtype = dtype) (hpositive : 1 ≤ factor) :
    (e.mul (.const dtype factor)).Rises among := by
  by_cases hone : factor = 1
  · rw [hone, mul_one_const h.value?_eq_none hdtype]
    exact h
  · rw [mul_const_of_two_le h.value?_eq_none hdtype (by omega)]
    exact .literal h (.inr (.inr ⟨rfl, hpositive⟩))

/-- A literal is added or subtracted as it stands, or its opposite the other way round, or it
is zero. -/
theorem Rises.combine_const {op : BinaryOp} (hop : op = .add ∨ op = .sub) (h : e.Rises among)
    (hdtype : e.dtype = dtype) : (combine op e (.const dtype offset)).Rises among := by
  have same : e.dtype = (const dtype offset).dtype := hdtype
  have hliterals : foldLiterals? op e (.const dtype offset) = none := by
    simp [foldLiterals?, h.value?_eq_none]
  rw [combine_of_dtype_eq op same, foldNode, hliterals]
  by_cases hzero : offset = 0
  · have hneutral : foldNeutral? op e (.const dtype offset) = some e := by
      rcases hop with rfl | rfl <;> simp [foldNeutral?, isZero, value?, hzero]
    rw [hneutral]
    exact h
  · have hneutral : foldNeutral? op e (.const dtype offset) = none := by
      rcases hop with rfl | rfl <;>
        simp [foldNeutral?, isZero, h.value?_eq_none, value?_const, hzero]
    rw [hneutral]
    change (keepOffsetPositive op e (.const dtype offset)).Rises among
    unfold keepOffsetPositive
    split
    · exact .literal h (.inr (.inl rfl))
    · exact .literal h (.inl rfl)
    · exact .literal h (hop.imp_right .inl)

theorem Rises.offsetBy (h : e.Rises among) (hdtype : e.dtype = dtype) :
    (e.offsetBy (.const dtype offset)).Rises among := by
  rw [offsetBy_const]
  split
  · exact h
  · exact h.combine_const (.inl rfl) hdtype

end Expr

namespace ValueSet

variable {dtype : DType} {low high : Int} {e : Expr}

theorem low_mem_ends (low high : Expr) : low ∈ (between low high).ends :=
  mem_ends_of_min? rfl

theorem high_mem_ends (low high : Expr) : high ∈ (between low high).ends :=
  mem_ends_of_max? rfl

theorem point?_between_eq_some (h : (between (.const dtype low) (.const dtype high)).point? = some e) :
    low = high ∧ e = .const dtype low := by
  rw [between, point?, Option.ite_none_right_eq_some, Expr.const.injEq, Option.some.injEq] at h
  exact ⟨h.1.2, h.2.symm⟩

end ValueSet

namespace Facts

open ValueSet (between EndsStayWithin low_mem_ends high_mem_ends)

variable {facts : Facts} {dtype : DType} {op : BinaryOp} {node e : Expr}
  {low high low' high' least greatest factor : Int}

/-- Two single points are combined to a point, and the result is the same as for intervals. -/
theorem combinedValues_between
    (hpoint : low = high → low' = high' → least = greatest ∧
      Expr.combine op (.const dtype low) (.const dtype low') = .const dtype least)
    (hvalues : facts.binaryValues op node (between (.const dtype low) (.const dtype high))
        (between (.const dtype low') (.const dtype high')) =
      between (.const dtype least) (.const dtype greatest)) :
    facts.combinedValues op node (between (.const dtype low) (.const dtype high))
        (between (.const dtype low') (.const dtype high')) =
      between (.const dtype least) (.const dtype greatest) := by
  unfold combinedValues
  split
  · rename_i first second hfirst hsecond
    obtain ⟨hsame, rfl⟩ := ValueSet.point?_between_eq_some hfirst
    obtain ⟨hsame', rfl⟩ := ValueSet.point?_between_eq_some hsecond
    obtain ⟨rfl, heq⟩ := hpoint hsame hsame'
    rw [heq]
    rfl
  · exact hvalues

theorem combinedValues_add (hends : EndsStayWithin dtype .add
      (between (.const dtype low) (.const dtype high))
      (between (.const dtype low') (.const dtype high'))) :
    facts.combinedValues .add node (between (.const dtype low) (.const dtype high))
        (between (.const dtype low') (.const dtype high')) =
      between (.const dtype (low + low')) (.const dtype (high + high')) := by
  have hlow := (hends.combine rfl (low_mem_ends _ _) (low_mem_ends _ _) rfl).1
  have hhigh := (hends.combine rfl (high_mem_ends _ _) (high_mem_ends _ _) rfl).1
  refine combinedValues_between (fun hsame hsame' => ⟨by rw [hsame, hsame'], hlow⟩) ?_
  simp only [binaryValues, between, ValueSet.min?, ValueSet.max?, ValueSet.bothEnds,
    Option.bind_eq_bind, Option.bind_some, Option.pure_def, Expr.add, hlow, hhigh]

theorem combinedValues_sub_const (hends : EndsStayWithin dtype .sub
      (between (.const dtype low) (.const dtype high))
      (between (.const dtype factor) (.const dtype factor))) :
    facts.combinedValues .sub node (between (.const dtype low) (.const dtype high))
        (between (.const dtype factor) (.const dtype factor)) =
      between (.const dtype (low - factor)) (.const dtype (high - factor)) := by
  have hlow := (hends.combine rfl (low_mem_ends _ _) (low_mem_ends _ _) rfl).1
  have hhigh := (hends.combine rfl (high_mem_ends _ _) (low_mem_ends _ _) rfl).1
  refine combinedValues_between (fun hsame _ => ⟨by rw [hsame], hlow⟩) ?_
  simp only [binaryValues, between, ValueSet.min?, ValueSet.max?, ValueSet.bothEnds,
    Option.bind_eq_bind, Option.bind_some, Option.pure_def, Expr.sub, hlow, hhigh]

theorem combinedValues_mul_const (hfree : facts.Consistent) (hpositive : 1 ≤ factor)
    (hends : EndsStayWithin dtype .mul (between (.const dtype low) (.const dtype high))
      (between (.const dtype factor) (.const dtype factor))) :
    facts.combinedValues .mul node (between (.const dtype low) (.const dtype high))
        (between (.const dtype factor) (.const dtype factor)) =
      between (.const dtype (low * factor)) (.const dtype (high * factor)) := by
  have hlow := (hends.combine rfl (low_mem_ends _ _) (low_mem_ends _ _) rfl).1
  have hhigh := (hends.combine rfl (high_mem_ends _ _) (low_mem_ends _ _) rfl).1
  refine combinedValues_between (fun hsame _ => ⟨by rw [hsame], hlow⟩) ?_
  have hsigned : facts.signedPoint? (between (.const dtype factor) (.const dtype factor)) =
      some (.const dtype factor, true) := by
    rw [signedPoint?, show (between (.const dtype factor) (.const dtype factor)).point? = _ from
      ValueSet.point?_point _]
    simp [isPositive?_const hfree hpositive]
  simp only [binaryValues, productValues, hsigned]
  simp only [ValueSet.moveEnds, between, ValueSet.min?, ValueSet.max?, Option.map_some, if_true,
    Expr.mul, hlow, hhigh]

/-- The ends are combined with a literal that the result grows by. -/
theorem exists_combinedValues_const (hfree : facts.Consistent) (hgrows : op.GrowsBy factor)
    (hends : EndsStayWithin dtype op (between (.const dtype low) (.const dtype high))
      (between (.const dtype factor) (.const dtype factor))) :
    ∃ least greatest, op.compute? high factor = some greatest ∧
      facts.combinedValues op node (between (.const dtype low) (.const dtype high))
          (between (.const dtype factor) (.const dtype factor)) =
        between (.const dtype least) (.const dtype greatest) := by
  rcases hgrows with rfl | rfl | ⟨rfl, hpositive⟩
  · exact ⟨_, _, rfl, combinedValues_add hends⟩
  · exact ⟨_, _, rfl, combinedValues_sub_const hends⟩
  · exact ⟨_, _, rfl, combinedValues_mul_const hfree hpositive hends⟩

/-- A variable has the last value of its set, which is an interval between literals. -/
def PeaksAt (domains : Domains) (assignment : Assignment) (v : Var) : Prop :=
  ∃ low high, domains v = some (between (.const v.dtype low) (.const v.dtype high)) ∧
    (Expr.var v).eval assignment = .ok high

variable {domains : Domains} {assignment : Assignment} {lhs rhs : Expr} {x y result : Int}

/-- Ends that stay within their type are combined like values. -/
theorem eval_binary_of_ends {left right : ValueSet} (hop : op.isPredicate = false)
    (hends : EndsStayWithin lhs.dtype op left right) (hleft : .const lhs.dtype x ∈ left.ends)
    (hright : .const lhs.dtype y ∈ right.ends) (hx : lhs.eval assignment = .ok x)
    (hy : rhs.eval assignment = .ok y) (hresult : op.compute? x y = some result) :
    (Expr.binary op lhs rhs).eval assignment = .ok result := by
  have hdtype : (Expr.binary op lhs rhs).dtype = lhs.dtype := by simp [Expr.dtype, hop]
  rw [Expr.eval_binary_of_eval hx hy hresult, hdtype,
    DType.truncate_of_contains (hends.combine hop hleft hright hresult).2]

/-- Where all variables peak, so does an expression that rises with them: its value is the
upper end of the interval that is found for it. -/
theorem rawValues_of_rises (hfree : facts.Consistent) (h : e.Rises (PeaksAt domains assignment))
    (hformed : e.Formed) (hends : facts.EndsWithin domains e) :
    ∃ low high, facts.rawValues domains e = between (.const e.dtype low) (.const e.dtype high) ∧
      e.eval assignment = .ok high := by
  induction h with
  | var hpeaks =>
      obtain ⟨low, high, hset, hvalue⟩ := hpeaks
      exact ⟨low, high, by rw [rawValues, hset]; rfl, hvalue⟩
  | add _ _ ihl ihr =>
      obtain ⟨hlhs, hrhs, same, -⟩ := hformed
      obtain ⟨hleft, hright, -, hstay⟩ := hends
      obtain ⟨low, high, hset, hx⟩ := ihl hlhs hleft
      obtain ⟨low', high', hset', hy⟩ := ihr hrhs hright
      rw [← same] at hset'
      rw [hset, hset'] at hstay
      refine ⟨low + low', high + high', ?_, ?_⟩
      · rw [rawValues_binary (by rw [hset]; rfl) (by rw [hset']; rfl), hset, hset']
        exact combinedValues_add hstay
      · exact eval_binary_of_ends rfl hstay (high_mem_ends _ _) (high_mem_ends _ _) hx hy rfl
  | @literal op e dtype factor _ hgrows ih =>
      have hop : op.isPredicate = false := by rcases hgrows with rfl | rfl | ⟨rfl, -⟩ <;> rfl
      obtain ⟨hlhs, hcontains, rfl, -⟩ := hformed
      obtain ⟨hleft, -, -, hstay⟩ := hends
      obtain ⟨low, high, hset, hx⟩ := ih hlhs hleft
      have hset' : facts.rawValues domains (.const e.dtype factor) =
          between (.const e.dtype factor) (.const e.dtype factor) := rfl
      rw [hset, hset'] at hstay
      obtain ⟨least, greatest, hgreatest, hvalues⟩ :=
        exists_combinedValues_const hfree hgrows hstay
      have hdtype : (Expr.binary op e (.const e.dtype factor)).dtype = e.dtype := by
        simp [Expr.dtype, hop]
      refine ⟨least, greatest, ?_, ?_⟩
      · rw [rawValues_binary (by rw [hset]; rfl) (by rw [hset']; rfl), hset, hset', hdtype]
        exact hvalues
      · exact eval_binary_of_ends hop hstay (high_mem_ends _ _) (high_mem_ends _ _) hx
          (Expr.eval_const_of_contains hcontains) hgreatest

end Facts

/-- The index of a loop is split or rebased, and neither a quotient nor a remainder. -/
def Relation.SplitsOrRebases : Relation → Prop
  | .split _ _ _ _ | .rebase _ _ => True
  | .fuse _ _ _ | .singleton _ => False

instance : DecidablePred Relation.SplitsOrRebases
  | .split _ _ _ _ | .rebase _ _ => .isTrue trivial
  | .fuse _ _ _ | .singleton _ => .isFalse id

namespace Stage

variable {stage : Stage} {supplied : IterMap Range} {inferred : Inference}
  {indices : IterMap Expr} {relation : Relation} {among : Var → Prop}

/-- One relation upward: an index that is put together rises with what its parts rise with. -/
theorem IndicesFollow.rises {ranges : IterMap Range} {index : IterId → Option Expr}
    (h : IndicesFollow .int32 ranges.box index relation) (hkind : relation.SplitsOrRebases)
    (hnumbers : ∀ id ∈ relation.outputs, ranges.HasNumbers .int32 id)
    (hpositive : ∀ id ∈ relation.outputs, 1 ≤ ranges.box.extent id)
    (houtputs : ∀ id ∈ relation.outputs, ∃ e, index id = some e ∧ e.TypedAt .int32 ∧
      e.Rises among) :
    ∀ id ∈ relation.inputs, ∃ e, index id = some e ∧ e.Rises among := by
  cases relation with
  | split parent outer inner size =>
      simp only [Relation.inputs, Relation.outputs, List.mem_cons, List.not_mem_nil, or_false,
        forall_eq, forall_eq_or_imp] at hnumbers hpositive houtputs ⊢
      obtain ⟨⟨first, hfirst, houter, hrises⟩, second, hsecond, hinner, hrises'⟩ := houtputs
      have hproduct : (first.mul (.const .int32 (ranges.box.extent inner))).TypedAt .int32 :=
        houter.combine rfl (Expr.typedAt_const hnumbers.2.extent)
      have hsum : (first.mul (.const .int32 (ranges.box.extent inner))).add second |>.TypedAt
          .int32 := hproduct.combine rfl hinner
      exact ⟨_, h first second hfirst hsecond, ((hrises.mul_const houter.dtype_eq
        hpositive.2).combine_add hrises' (hproduct.dtype_eq.trans hinner.dtype_eq.symm)).offsetBy
          hsum.dtype_eq⟩
  | rebase parent rebased =>
      simp only [Relation.inputs, Relation.outputs, List.mem_cons, List.not_mem_nil, or_false,
        forall_eq] at houtputs ⊢
      obtain ⟨first, hfirst, htyped, hrises⟩ := houtputs
      exact ⟨_, h first hfirst, hrises.offsetBy htyped.dtype_eq⟩
  | fuse | singleton => exact hkind.elim

/-- On a nest of splits and rebasing all indices rise with the variables of leaves. -/
theorem Indexes.rises (h : stage.Indexes inferred.ranges stage.leafVariables indices)
    (hregular : stage.Regular)
    (hkinds : ∀ relation ∈ stage.relations, relation.SplitsOrRebases)
    (hnumbers : ∀ id ∈ stage.loops, inferred.ranges.HasNumbers .int32 id)
    (hpositive : ∀ id ∈ stage.loops, 1 ≤ inferred.ranges.box.extent id)
    (hleaves : ∀ leaf ∈ stage.leaves, ∀ iv ∈ stage.iterVar? leaf, among iv.var) :
    ∀ id ∈ stage.loops, ∃ index, indices.get? id = some index ∧ index.TypedAt .int32 ∧
      index.Rises among := by
  have htyped : ∀ id ∈ stage.loops, ∀ index, indices.get? id = some index →
      index.TypedAt .int32 := fun id hid index hindex => (h.number id hid index hindex).1
  refine hregular.induction_up (fun leaf hleaf => ?_) fun relation hrelation houtputs id hid => ?_
  · obtain ⟨iv, hiv, -⟩ := mem_loops.mp (hregular.mem_loops_of_mem_leaves hleaf)
    have hindex := (h.leaves leaf hleaf).trans (get?_leafVariables hleaf hiv)
    exact ⟨_, hindex, htyped leaf (hregular.mem_loops_of_mem_leaves hleaf) _ hindex,
      .var (hleaves leaf hleaf iv hiv)⟩
  · have hloops : ∀ id ∈ relation.outputs, id ∈ stage.loops :=
      fun id hid => hregular.mem_loops_of_mem_outputs hrelation hid
    obtain ⟨index, hindex, hrises⟩ := (h.relations relation hrelation).rises
      (hkinds relation hrelation) (fun id hid => hnumbers id (hloops id hid))
      (fun id hid => hpositive id (hloops id hid)) houtputs id hid
    exact ⟨index, hindex, htyped id (hregular.mem_loops_of_mem_inputs hrelation hid) index hindex,
      hrises⟩

/-- The last iteration of every loop. -/
def lastPoint (ranges : IterMap Range) (id : IterId) : Int :=
  ranges.box.low id + ranges.box.extent id - 1

/-- In the last iteration of all leaves their variables peak. -/
theorem Knows.peaksAt {known : RangedFacts} (h : stage.Knows inferred.ranges known)
    (hregular : stage.Regular) (hliteral : DrivesLiterally inferred.ranges stage.leaves)
    (hinside : Inside inferred.ranges stage.leaves (lastPoint inferred.ranges)) :
    ∀ leaf ∈ stage.leaves, ∀ iv ∈ stage.iterVar? leaf, Facts.PeaksAt known.domains
      (stage.assignmentAt stage.leaves (lastPoint inferred.ranges)) iv.var := by
  intro leaf hleaf iv hiv
  obtain ⟨low, extent, hrange, hlow, hend⟩ := hliteral leaf hleaf
  obtain ⟨hboxLow, hboxExtent⟩ := IterMap.box_of_get? hrange
  have hdtype : iv.var.dtype = .int32 := hregular.dtype_eq hiv
  have hpositive := (hinside leaf hleaf).1
  rw [lastPoint, hboxLow, hboxExtent] at hpositive
  refine ⟨low, low + extent - 1, ?_, ?_⟩
  · rw [h.domains hiv hrange, ValueSet.ofRange_ofInts hlow hend (by omega), hdtype]
  · have hvalue := (hregular.eval_driver hliteral hinside hleaf hiv).2
    rwa [lastPoint, hboxLow, hboxExtent] at hvalue

/-- The guard of an index that rises and was not proved to stay below the end is false where
everything peaks. -/
theorem eval_lt_of_rises {context : GuardContext} {assignment : Assignment} {value : Expr}
    {extent : Int} (hfree : context.known.facts.Consistent)
    (hunshaped : context.stage.shape = none)
    (hrises : value.Rises (Facts.PeaksAt context.known.domains assignment))
    (htyped : value.TypedAt .int32) (hextent : DType.int32.contains extent = true)
    (hends : context.known.facts.EndsWithin context.known.domains value)
    (hunproved : context.provablyBelow value (.const .int32 extent) = .ok false) :
    (value.lt (.const .int32 extent)).eval assignment = .ok 0 := by
  obtain ⟨low, high, hset, hvalue⟩ :=
    Facts.rawValues_of_rises hfree hrises htyped.wellTyped.formed hends
  have hupper : context.known.upperEnd? value = some (.const .int32 high) := by
    rw [RangedFacts.upperEnd?, Facts.values, hset, htyped.dtype_eq]
    rfl
  have hworkloads : context.stage.workloads = [] := by rw [workloads, hunshaped]
  have hge : decide (high < extent) = false := by
    rw [GuardContext.provablyBelow, hupper] at hunproved
    simp only [Expr.dtype, htyped.dtype_eq, hworkloads, Facts.proves_lt hfree, ne_eq,
      not_true_eq_false, if_false] at hunproved
    exact Except.ok.inj hunproved
  rw [Expr.eval_lt_const htyped hextent hvalue, hge]
  rfl

/-- On a nest of splits and rebasing no guard is generated in vain. Where nothing wraps, each
one is false at some point inside. -/
theorem Scheduled.guards_needed (h : Scheduled stage) (hsupplied : stage.SuppliesLiterals supplied)
    (hkinds : ∀ relation ∈ stage.relations, relation.SplitsOrRebases) :
    ∃ inferred indices predicates, stage.inferAll supplied = .ok inferred ∧
      stage.indicesUp inferred.ranges false stage.leafVariables = .ok indices ∧
      stage.guards inferred.ranges indices .standard = .ok predicates ∧
      (stage.WrapFree inferred.ranges stage.leaves indices → ∀ p ∈ predicates,
        ∃ point, Inside inferred.ranges stage.leaves point ∧
          p.eval (stage.assignmentAt stage.leaves point) = .ok 0) := by
  have hregular := h.regular
  obtain ⟨inferred, hinferred, hinfers⟩ := hregular.inferAll_ok hsupplied
  have hnumbers := hinfers.hasLiteralRanges hregular
  obtain ⟨indices, hindices, hindexes⟩ := hregular.indicesUp_ok hnumbers
    (hregular.hasNumberIndices_leafVariables _)
    (fun leaf hleaf => by
      obtain ⟨iv, hiv, -⟩ := mem_loops.mp (hregular.mem_loops_of_mem_leaves hleaf)
      rw [get?_leafVariables hleaf hiv]
      rfl)
  obtain ⟨known, overruns, predicates, hfacts, hflow, hguards, hknows, -⟩ :=
    hregular.guards_ok hnumbers (hinfers.exists_iterVar? hregular) hindexes.loops
  refine ⟨inferred, indices, predicates, hinferred, hindices, hguards, fun hwrap p hp => ?_⟩
  have hpositive := hinfers.positive hregular hsupplied hwrap.extents
  have hinside : Inside inferred.ranges stage.leaves (lastPoint inferred.ranges) := by
    intro leaf hleaf
    have := hpositive leaf (hregular.mem_loops_of_mem_leaves hleaf)
    exact ⟨by unfold lastPoint; omega, by unfold lastPoint; omega⟩
  have hpeaks := hknows.peaksAt hregular (hinfers.drivesLiterally hregular hwrap.ends) hinside
  obtain ⟨known', overruns', guards, hfacts', hflow', hselected⟩ := guards_inv hguards
  obtain rfl := Except.ok.inj (hfacts.symm.trans hfacts')
  obtain rfl := Except.ok.inj (hflow.symm.trans hflow')
  obtain ⟨id, index, range, hdecides, hindex, rfl, hunproved⟩ :=
    (hselected.needed p hp).decides hregular
  obtain ⟨hloop, low, extent, rfl, hlow, hextent⟩ := hdecides.literal hregular hnumbers
  obtain ⟨found, hfound, htyped, hrises⟩ := hindexes.rises hregular hkinds
    (fun id hid => hinfers.hasNumbers hid) hpositive hpeaks id hloop
  obtain rfl : index = found := Option.some.inj (hindex.symm.trans hfound)
  refine ⟨_, hinside, eval_lt_of_rises (Facts.consistent_of_unconstrained hknows.unconstrained)
    hregular.unshaped (hrises.combine_const (.inr rfl) htyped.dtype_eq)
    (htyped.combine rfl (Expr.typedAt_const hlow)) hextent ?_ hunproved⟩
  exact (hwrap.distances known overruns hfacts hflow _ hinside id _ index hdecides hindex).analysed

theorem guards_needed_of_offsetSplit :
    Scheduled offsetSplit ∧ offsetSplit.SuppliesLiterals .empty ∧
      (∀ relation ∈ offsetSplit.relations, relation.SplitsOrRebases) ∧
      ∃ inferred indices predicates, offsetSplit.inferAll .empty = .ok inferred ∧
        offsetSplit.indicesUp inferred.ranges false offsetSplit.leafVariables = .ok indices ∧
        offsetSplit.guards inferred.ranges indices .standard = .ok predicates ∧
        predicates ≠ [] ∧ ∀ p ∈ predicates,
          ∃ point, Inside inferred.ranges offsetSplit.leaves point ∧
            p.eval (offsetSplit.assignmentAt offsetSplit.leaves point) = .ok 0 := by
  have hsupplied : offsetSplit.SuppliesLiterals .empty := fun _ _ _ h => nomatch h
  have hkinds : ∀ relation ∈ offsetSplit.relations, relation.SplitsOrRebases := by decide
  have hwrap : ∀ inferred ∈ (offsetSplit.inferAll .empty).toOption, ∀ indices ∈
      (offsetSplit.indicesUp inferred.ranges false offsetSplit.leafVariables).toOption,
      offsetSplit.WrapFree inferred.ranges offsetSplit.leaves indices ∧
        ∀ predicates ∈ (offsetSplit.guards inferred.ranges indices .standard).toOption,
          predicates ≠ [] := by
    decide +kernel
  obtain ⟨inferred, indices, predicates, hinferred, hindices, hguards, hneeded⟩ :=
    scheduled_offsetSplit.guards_needed hsupplied hkinds
  obtain ⟨hfree, hsome⟩ := hwrap inferred (toOption_eq_some.mpr hinferred) indices
    (toOption_eq_some.mpr hindices)
  exact ⟨scheduled_offsetSplit, hsupplied, hkinds, inferred, indices, predicates, hinferred,
    hindices, hguards, hsome predicates (toOption_eq_some.mpr hguards), hneeded hfree⟩

/-- A root of five values, split by two. -/
def fiveInPairs : Stage :=
  let root := ((empty "compute" .globalMemory).addRootVar
    ⟨⟨.parameter 0, "i", .int32⟩, some (.ofInts 0 5), .parallel⟩).2
  match root.split ⟨0⟩ (.const .int32 2) with
  | .ok (_, nest) => nest
  | .error _ => root

/-- Two more roots over the symbol of the outer loop, of two values and of three, the last of
which is split. -/
def sharedOuter : Stage :=
  match fiveInPairs.iterVar? ⟨1⟩ with
  | none => fiveInPairs
  | some outer =>
    let narrow := (fiveInPairs.addRootVar ⟨outer.var, some (.ofInts 0 2), .parallel⟩).2
    let wide := (narrow.addRootVar ⟨outer.var, some (.ofInts 0 3), .parallel⟩).2
    match wide.split ⟨4⟩ (.const .int32 3) with
    | .ok (_, nest) => nest
    | .error _ => wide

/-- Roots must not share the symbol of a loop. The range of three values then counts for that
loop in the analysis, but the root of two values keeps it below two, where the guard that is
generated is always true. -/
theorem guards_needless_shared_symbol :
    (∀ relation ∈ sharedOuter.relations, relation.SplitsOrRebases) ∧
      ∃ inferred indices predicates, sharedOuter.inferAll .empty = .ok inferred ∧
        sharedOuter.indicesUp inferred.ranges false sharedOuter.leafVariables = .ok indices ∧
        sharedOuter.guards inferred.ranges indices .standard = .ok predicates ∧
        sharedOuter.WrapFree inferred.ranges sharedOuter.leaves indices ∧
        ∃ p ∈ predicates, ∀ assignment : Assignment,
          (∀ leaf ∈ sharedOuter.leaves, ∀ iv ∈ sharedOuter.iterVar? leaf,
            ∃ x, assignment iv.var = some x ∧ inferred.ranges.box.Contains leaf x) →
          p.eval assignment = .ok 1 := by
  let outer : Var := ⟨.iteration 1, "i.outer", .int32⟩
  let inner : Var := ⟨.iteration 2, "i.inner", .int32⟩
  let guard : Expr := .binary .lt (.binary .add (.binary .mul (.var outer) (.const .int32 2))
    (.var inner)) (.const .int32 5)
  obtain ⟨inferred, hinferred, indices, hindices, predicates, hguards, hwrap, hguard, hinner,
      houter⟩ :
      ∃ inferred ∈ (sharedOuter.inferAll .empty).toOption,
        ∃ indices ∈
          (sharedOuter.indicesUp inferred.ranges false sharedOuter.leafVariables).toOption,
        ∃ predicates ∈ (sharedOuter.guards inferred.ranges indices .standard).toOption,
        sharedOuter.WrapFree inferred.ranges sharedOuter.leaves indices ∧ guard ∈ predicates ∧
        inferred.ranges.get? ⟨2⟩ = some (.ofInts 0 2) ∧
        inferred.ranges.get? ⟨3⟩ = some (.ofInts 0 2) := by
    decide +kernel
  refine ⟨by decide, inferred, indices, predicates, toOption_eq_some.mp hinferred,
    toOption_eq_some.mp hindices, toOption_eq_some.mp hguards, hwrap, guard, hguard,
    fun assignment hassigned => ?_⟩
  obtain ⟨x, hx, hx0, hx2⟩ := hassigned ⟨3⟩ (by decide) ⟨outer, some (.ofInts 0 2), .parallel⟩ rfl
  obtain ⟨y, hy, hy0, hy2⟩ := hassigned ⟨2⟩ (by decide) ⟨inner, none, .parallel⟩ rfl
  rw [(IterMap.box_of_get? houter).1] at hx0 hx2
  rw [(IterMap.box_of_get? houter).2] at hx2
  rw [(IterMap.box_of_get? hinner).1] at hy0 hy2
  rw [(IterMap.box_of_get? hinner).2] at hy2
  obtain rfl | rfl : x = 0 ∨ x = 1 := by omega
  all_goals
    obtain rfl | rfl : y = 0 ∨ y = 1 := by omega
    all_goals simp only [guard, Expr.eval, hx, hy]; rfl

end Stage

end LoopNest
