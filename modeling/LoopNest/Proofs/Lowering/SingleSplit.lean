/-
# A single split at the limits of its type

A root counts from zero up to a literal and is split by a literal factor. Both literals are
positive numbers of one signed type, up to its greatest value. Lowering this stage computes
with three numbers that may be too great for the type: the sum that rounds up the quotient of
the extent and the factor, the number of iterations that both loops have together, and the
greatest index, from which the guard is decided.

Only the first of them matters. If the sum stays in the type, so do the other two, the outer
loop counts up to the quotient rounded up, and the points that the guard admits are mapped one
to one onto the values of the root. If it wraps, the outer loop has a negative extent. Nothing
is said about splits by a number of parts, which round up another quotient.
-/

import LoopNest.Proofs.Facts.Counted
import LoopNest.Proofs.Lowering.Threads
import LoopNest.Stage.Edit
import Mathlib.Data.Rat.Floor

namespace LoopNest

/-- A root that counts from zero up to a literal and is split by a literal factor, where both
literals are positive numbers of one signed type. -/
structure SingleSplit where
  name : String
  scope : StorageScope
  root : String
  dtype : DType
  extent : Int
  factor : Int
  signed : dtype.isSigned = true
  one_le_extent : 1 ≤ extent
  extent_le : extent ≤ dtype.maxValue
  one_le_factor : 1 ≤ factor
  factor_le : factor ≤ dtype.maxValue

namespace SingleSplit

variable (s : SingleSplit)

/-- The stage that consists of the split root. -/
def stage : Stage :=
  (Stage.empty s.name s.scope).executeAll
    [.root s.root (.const s.dtype s.extent), .split ⟨0⟩ (.const s.dtype s.factor)]

def rootVar : Var :=
  ⟨.iteration 0, s.root, s.dtype⟩

def outerVar : Var :=
  ⟨.iteration 1, s.root ++ ".outer", s.dtype⟩

def innerVar : Var :=
  ⟨.iteration 2, s.root ++ ".inner", s.dtype⟩

/-- The extent of the outer loop. -/
def rows : Int :=
  (Stage.splitExtents s.dtype false s.extent s.factor).2

/-- The extent of the inner loop. -/
def columns : Int :=
  (Stage.splitExtents s.dtype false s.extent s.factor).1

/-- The index of the root before it is simplified. -/
def index : Expr :=
  ((Expr.var s.outerVar).mul (.const s.dtype s.columns)).add (.var s.innerVar)

/-- The guard that a split needs if it is not exact. -/
def guard : Expr :=
  (Expr.strided s.outerVar s.columns s.innerVar).lt (.const s.dtype s.extent)

/-- The guards of the stage. -/
def predicates : List Expr :=
  if s.extent = s.columns * s.rows then [] else [s.guard]

/-- The sum that rounds up the quotient of the extent and the factor stays in the type. -/
def Rounds : Prop :=
  s.extent % s.factor ≠ 0 → s.extent + (s.factor - 1) ≤ s.dtype.maxValue

/-- The points that the guard admits are mapped one to one onto the values of the root. -/
structure Enumerates (lowering : Lowering) : Prop where
  sound : ∀ point, Stage.Inside lowering.ranges s.stage.leaves point →
    lowering.Admits (s.stage.assignmentAt s.stage.leaves point) →
      ∃ x, lowering.upIndices.HasValue (s.stage.assignmentAt s.stage.leaves point) ⟨0⟩ x ∧
        0 ≤ x ∧ x < s.extent
  unique : ∀ point point' x, Stage.Inside lowering.ranges s.stage.leaves point →
    Stage.Inside lowering.ranges s.stage.leaves point' →
    lowering.Admits (s.stage.assignmentAt s.stage.leaves point) →
    lowering.Admits (s.stage.assignmentAt s.stage.leaves point') →
    lowering.upIndices.HasValue (s.stage.assignmentAt s.stage.leaves point) ⟨0⟩ x →
    lowering.upIndices.HasValue (s.stage.assignmentAt s.stage.leaves point') ⟨0⟩ x →
      ∀ leaf ∈ s.stage.leaves, point leaf = point' leaf
  onto : ∀ x, 0 ≤ x → x < s.extent → ∃ point, Stage.Inside lowering.ranges s.stage.leaves point ∧
    lowering.Admits (s.stage.assignmentAt s.stage.leaves point) ∧
    lowering.upIndices.HasValue (s.stage.assignmentAt s.stage.leaves point) ⟨0⟩ x

/-- The stage is lowered, the outer loop counts up to the quotient rounded up, and the points
that the guard admits are mapped one to one onto the values of the root. -/
def LowersExactly : Prop :=
  ∃ lowering, s.stage.lower .empty .standard = .ok lowering ∧
    lowering.ranges.get? ⟨1⟩ = some (.between s.dtype 0 ⌈(s.extent / s.factor : ℚ)⌉) ∧
    s.Enumerates lowering

theorem contains_extent : s.dtype.contains s.extent = true :=
  DType.contains_of_le_maxValue (zero_le_one.trans s.one_le_extent) s.extent_le

theorem contains_factor : s.dtype.contains s.factor = true :=
  DType.contains_of_le_maxValue (zero_le_one.trans s.one_le_factor) s.factor_le

theorem contains_columns : s.dtype.contains s.columns = true :=
  (Stage.contains_splitExtents s.contains_extent s.contains_factor s.one_le_factor false).1

theorem contains_rows : s.dtype.contains s.rows = true :=
  (Stage.contains_splitExtents s.contains_extent s.contains_factor s.one_le_factor false).2

/-- The root has its declared range, and nothing else is inferred yet. -/
def seeded : Inference :=
  Inference.empty.insert ⟨0⟩ s.rootVar (.between s.dtype 0 s.extent)

/-- What the ranges are inferred to, wrapped or not. -/
def inferred : Inference :=
  (s.seeded.insert ⟨2⟩ s.innerVar (.between s.dtype 0 s.columns)).insert ⟨1⟩ s.outerVar
    (.between s.dtype 0 s.rows)

theorem splitRanges_eq : Stage.splitRanges s.seeded.facts (.const s.dtype s.extent)
    (.const s.dtype s.factor) false =
      (.between s.dtype 0 s.columns, .between s.dtype 0 s.rows) := by
  have hpositive := s.one_le_extent
  have hdefined := Word.floorMod?_of_nonneg (by omega : 0 ≤ s.extent)
    (DType.fits_of_contains s.contains_extent) (DType.fits_of_contains s.contains_factor)
    s.one_le_factor
  exact Stage.splitRanges_const s.seeded.facts (Facts.consistent_of_unconstrained rfl)
    s.contains_extent s.contains_factor s.one_le_factor hdefined false

/-- The inner loop is cut down to the extent, since neither the root is empty nor a thread
depends on the loop. -/
theorem rangesDown_eq : s.stage.rangesDown false s.seeded = .ok s.inferred := by
  have hpositive := s.one_le_extent
  have hkeep : (false || (Expr.const s.dtype s.extent).isZero ||
      s.stage.threadDominance.getDefault ⟨2⟩) = false := by
    have hzero : (Expr.const s.dtype s.extent).isZero = false := by
      simp only [Expr.isZero, Expr.value?_const, Option.some.injEq, decide_eq_false_iff_not]
      omega
    rw [hzero]
    rfl
  have hstep : s.stage.inferRanges s.stage.threadDominance false s.seeded
      (.split ⟨0⟩ ⟨1⟩ ⟨2⟩ (.factor (.const s.dtype s.factor))) = .ok s.inferred := by
    have hread : s.stage.read? .ranges false s.seeded.ranges ⟨0⟩ =
      .ok (some (.between s.dtype 0 s.extent)) := rfl
    have hextent : (Range.between s.dtype 0 s.extent).extent = .const s.dtype s.extent := rfl
    have hsize : (SplitSize.factor (.const s.dtype s.factor)).extent =
      .const s.dtype s.factor := rfl
    simp only [Stage.inferRanges, hread, Stage.fixedAndDerived, Halt.keeping, Except.mapError,
      bind, Except.bind]
    rw [hextent, hkeep, hsize, splitRanges_eq]
    rfl
  have hrelations : s.stage.relations =
    [.split ⟨0⟩ ⟨1⟩ ⟨2⟩ (.factor (.const s.dtype s.factor))] := rfl
  rw [Stage.rangesDown, Stage.flowDown, hrelations, List.foldlM_cons, hstep]
  rfl

theorem inferAll_eq : s.stage.inferAll .empty = .ok s.inferred := by
  have hroots : s.stage.roots.foldlM (s.stage.seedRoot .empty) Inference.empty =
      .ok s.seeded := by
    rw [seeded, ← Range.ofExtent_const]
    rfl
  have hthreads : s.stage.threads.values = [] := rfl
  rw [Stage.inferAll, hroots]
  simp only [ok_bind, hthreads, List.foldlM_nil, pure, Except.pure, rangesDown_eq, Except.mapError]

/-- The indices of the leaves. -/
def entries : List LeafIndex :=
  [⟨⟨1⟩, .var s.outerVar, .between s.dtype 0 s.rows⟩,
    ⟨⟨2⟩, .var s.innerVar, .between s.dtype 0 s.columns⟩]

/-- What the ranges amount to. -/
def known : RangedFacts :=
  ((RangedFacts.empty.insert s.rootVar (.between s.dtype 0 s.extent)).insert
    s.outerVar (.between s.dtype 0 s.rows)).insert s.innerVar (.between s.dtype 0 s.columns)

/-- What guards are decided from, once the indices are known. -/
def context (indices : IterMap Expr) : GuardContext :=
  ⟨s.stage, s.inferred.ranges, indices, s.known⟩

/-- The root as an iteration variable. -/
def rootIter : IterVar :=
  ⟨s.rootVar, some (.ofExtent (.const s.dtype s.extent)), .parallel⟩

variable {s} {indices : IterMap Expr} {lowering : Lowering}

section Guards

theorem mayGuard_root : (s.context indices).mayGuard ⟨0⟩ = true := rfl

theorem rangeOf_root : (s.context indices).rangeOf ⟨0⟩ = .ok (.between s.dtype 0 s.extent) := rfl

/-- The inferred range of the root is the declared one. -/
theorem guardDeclared_root (predicates : List Expr) :
    (s.context indices).guardDeclared .standard predicates ⟨0⟩ = .ok predicates := by
  have hiter : (s.context indices).stage.iterVar ⟨0⟩ = .ok s.rootIter := rfl
  have hsame : (s.context indices).sameRange (.between s.dtype 0 s.extent)
      (.ofExtent (.const s.dtype s.extent)) = true := by
    rw [Range.ofExtent_const, GuardContext.sameRange, decide_eq_true rfl, Bool.true_or]
  simp only [GuardContext.guardDeclared, mayGuard_root, hiter, rangeOf_root, rootIter, hsame,
    Bool.not_true, Bool.false_eq_true, if_false, if_true, ok_bind]
  rfl

/-- If the two loops do not overrun, only the root may be guarded. -/
theorem guards_eq {overruns : IterMap Bool} {guards : Guards}
    (hflow : s.stage.overrunsUp s.inferred.ranges s.known.facts s.stage.leafOverruns = .ok overruns)
    (hderived : overruns.getDefault ⟨1⟩ = false ∧ overruns.getDefault ⟨2⟩ = false)
    (hroot : (s.context indices).guardOverrun .standard overruns ⟨[], []⟩ (⟨0⟩, s.rootIter) =
      .ok guards) :
    s.stage.guards s.inferred.ranges indices .standard = .ok guards.predicates := by
  have hguards : s.stage.guards s.inferred.ranges indices .standard =
      (s.stage.overrunsUp s.inferred.ranges s.known.facts s.stage.leafOverruns).mapError
        Halt.error >>= fun overruns =>
      s.stage.entries.foldlM ((s.context indices).guardOverrun .standard overruns) ⟨[], []⟩ >>=
        fun guards => (s.context indices).guardDeclared .standard guards.predicates ⟨0⟩ >>=
          fun predicates => pure predicates := rfl
  have hentries : s.stage.entries = [(⟨0⟩, s.rootIter), (⟨1⟩, ⟨s.outerVar, none, .parallel⟩),
    (⟨2⟩, ⟨s.innerVar, none, .parallel⟩)] := rfl
  have hskip : ∀ guards id iv, overruns.getDefault id = false →
      (s.context indices).guardOverrun .standard overruns guards (id, iv) = .ok guards := by
    intro guards id iv hid
    simp only [GuardContext.guardOverrun, hid, Bool.not_false, Bool.or_true, if_true]
    rfl
  rw [hguards, hflow]
  simp only [Except.mapError, ok_bind, hentries, List.foldlM_cons, List.foldlM_nil, hroot,
    hskip _ _ _ hderived.1, hskip _ _ _ hderived.2, pure, Except.pure, guardDeclared_root]

end Guards

namespace Rounds

variable (h : s.Rounds)
include h

theorem contains_sum (hne : s.extent % s.factor ≠ 0) :
    s.dtype.contains (s.extent + (s.factor - 1)) = true := by
  have hextent := s.one_le_extent
  have hfactor := s.one_le_factor
  exact DType.contains_of_le_maxValue (by omega) (h hne)

/-- Both loops have iterations, and together enough of them. -/
theorem cover : 1 ≤ s.columns ∧ 1 ≤ s.rows ∧ s.extent ≤ s.columns * s.rows :=
  Stage.splitExtents_cover s.one_le_extent s.one_le_factor h.contains_sum false

theorem contains_mul : s.dtype.contains (s.columns * s.rows) = true :=
  Stage.contains_mul_splitExtents s.one_le_extent s.contains_extent s.one_le_factor h.contains_sum
    false

/-- The outer loop has just enough iterations. -/
theorem rows_bounds :
    (s.rows - 1) * s.factor < s.extent ∧ s.extent ≤ s.rows * s.factor := by
  have hfactor := s.one_le_factor
  have hdivision := Int.mul_ediv_add_emod s.extent s.factor
  by_cases hexact : s.extent % s.factor = 0
  · have hrows : s.rows = s.extent / s.factor := by rw [rows, Stage.splitExtents, if_pos hexact]
    have hproduct : s.rows * s.factor = s.extent := by
      rw [hrows, mul_comm]
      omega
    rw [sub_mul, one_mul]
    omega
  · have hrows : s.rows = (s.extent + (s.factor - 1)) / s.factor := by
      rw [rows, Stage.splitExtents, if_neg hexact,
        DType.truncate_of_contains (h.contains_sum hexact)]
    have hlow := Int.ediv_mul_le (s.extent + (s.factor - 1)) (by omega : s.factor ≠ 0)
    have hhigh :=
      Int.lt_ediv_add_one_mul_self (s.extent + (s.factor - 1)) (by omega : 0 < s.factor)
    rw [← hrows] at hlow hhigh
    rw [add_mul, one_mul] at hhigh
    rw [sub_mul, one_mul]
    omega

theorem rows_eq_ceil : s.rows = ⌈(s.extent / s.factor : ℚ)⌉ := by
  have hfactor : (0 : ℚ) < s.factor := by exact_mod_cast s.one_le_factor
  symm
  rw [Int.ceil_eq_iff, lt_div_iff₀ hfactor, div_le_iff₀ hfactor]
  exact_mod_cast h.rows_bounds

/-- A split of which one loop has a single iteration is exact. -/
theorem of_ragged (hragged : s.extent ≠ s.columns * s.rows) :
    2 ≤ s.rows ∧ 2 ≤ s.columns ∧ s.extent < s.columns * s.rows := by
  obtain ⟨hcolumns, hrows, hcover⟩ := h.cover
  obtain ⟨hlow, hhigh⟩ := h.rows_bounds
  have hfixed : s.columns = if s.extent < s.factor then s.extent else s.factor := rfl
  refine ⟨?_, ?_, by omega⟩
  -- With one outer iteration the factor is not below the extent, so the inner loop is cut to it.
  · by_contra hone
    have hrows' : s.rows = 1 := by omega
    rw [hrows'] at hhigh hragged
    split at hfixed <;> omega
  -- With one inner iteration the extent or the factor is one.
  · by_contra hone
    have hcolumns' : s.columns = 1 := by omega
    rw [hcolumns', one_mul] at hragged
    split at hfixed
    · have hproduct : s.rows - 1 ≤ (s.rows - 1) * s.factor :=
        le_mul_of_one_le_right (by omega) s.one_le_factor
      omega
    · rw [← hfixed, hcolumns'] at hlow hhigh
      omega

theorem nests : s.inferred.facts.Nests s.outerVar s.innerVar s.rows s.columns := by
  obtain ⟨hcolumns, hrows, -⟩ := h.cover
  refine ⟨⟨rfl, ?_, hrows, s.contains_rows, s.signed⟩,
    ⟨rfl, ?_, hcolumns, s.contains_columns, s.signed⟩, ?_, rfl, mul_comm s.rows _ ▸ h.contains_mul⟩
  · simp [inferred, seeded, Inference.insert, Facts.bind, outerVar]
  · simp [inferred, seeded, Inference.insert, Facts.bind, innerVar, outerVar]
  · simp [outerVar, innerVar]

/-- Lowering assumes nothing about the leaves that their ranges do not say. -/
theorem assumeAll_eq : LeafIndex.assumeAll s.inferred.facts s.entries = s.inferred.facts := by
  have houter := h.nests.countsOuter.assume_eq ⟨1⟩
  have hinner := h.nests.countsInner.assume_eq ⟨2⟩
  exact (congrArg (Facts.assume · _) houter).trans hinner

/-- The root overruns unless the two loops have as many iterations together as it has. -/
theorem overrunsUp_eq :
    s.stage.overrunsUp s.inferred.ranges s.known.facts s.stage.leafOverruns =
      .ok (s.stage.leafOverruns.insert ⟨0⟩ (!decide (s.extent = s.columns * s.rows))) := by
  have hproduct : (Expr.const s.dtype s.columns).mul (.const s.dtype s.rows) =
      .const s.dtype (s.columns * s.rows) :=
    Expr.combine_const_of_contains rfl rfl h.contains_mul
  have hcovers : s.stage.coversExactly s.inferred.ranges s.known.facts ⟨0⟩ ⟨1⟩ ⟨2⟩ =
      .ok (decide (s.extent = s.columns * s.rows)) := by
    have hproves : s.stage.coversExactly s.inferred.ranges s.known.facts ⟨0⟩ ⟨1⟩ ⟨2⟩ =
        .ok (s.known.facts.proves ((Expr.const s.dtype s.extent).eq
          ((Expr.const s.dtype s.columns).mul (.const s.dtype s.rows)))) := rfl
    rw [hproves, hproduct, Facts.proves_eq (Facts.consistent_of_unconstrained rfl)]
  have hlift : s.stage.overrunsUp s.inferred.ranges s.known.facts s.stage.leafOverruns =
      (Halt.keeping _ (s.stage.coversExactly s.inferred.ranges s.known.facts ⟨0⟩ ⟨1⟩ ⟨2⟩ >>=
        fun exactly => pure (s.stage.leafOverruns.insert ⟨0⟩ (!exactly)))) >>=
          fun overruns => pure overruns := rfl
  rw [hlift, hcovers]
  rfl

/-- An exact split is not guarded. -/
theorem guards_of_exact (hexact : s.extent = s.columns * s.rows) :
    s.stage.guards s.inferred.ranges indices .standard = .ok [] := by
  have hroot : (s.context indices).guardOverrun .standard
      (s.stage.leafOverruns.insert ⟨0⟩ (!decide (s.extent = s.columns * s.rows))) ⟨[], []⟩
        (⟨0⟩, s.rootIter) = .ok ⟨[], []⟩ := by
    rw [decide_eq_true hexact]
    rfl
  exact guards_eq h.overrunsUp_eq ⟨rfl, rfl⟩ hroot

/-- The last iteration of a ragged split is not below the extent. -/
theorem provablyBelow_eq (hragged : s.extent ≠ s.columns * s.rows) :
    (s.context indices).provablyBelow (.strided s.outerVar s.columns s.innerVar)
      (.const s.dtype s.extent) = .ok false := by
  obtain ⟨hrows, hcolumns, hlt⟩ := h.of_ragged hragged
  have hgreatest : (s.context indices).known.upperEnd? (.strided s.outerVar s.columns s.innerVar) =
      some (.const s.dtype (s.rows * s.columns - 1)) :=
    RangedFacts.upperEnd?_strided (Facts.consistent_of_unconstrained rfl)
      (by simp [context, known, RangedFacts.insert, Domains.insert, outerVar, innerVar])
      hrows hcolumns h.nests.contained
      (by simp [context, known, RangedFacts.insert, Domains.insert, outerVar, innerVar])
  have hproves : (s.context indices).known.facts.proves
      (.lt (.const s.dtype (s.rows * s.columns - 1)) (.const s.dtype s.extent)) = false := by
    rw [Facts.proves_lt (Facts.consistent_of_unconstrained rfl), decide_eq_false]
    rw [mul_comm]
    omega
  have hworkloads : (s.context indices).stage.workloads = [] := rfl
  simp only [GuardContext.provablyBelow, hgreatest, hworkloads, hproves, ite_self]
  rfl

theorem guards_of_ragged (hragged : s.extent ≠ s.columns * s.rows)
    (hindex : indices.get? ⟨0⟩ = some (.strided s.outerVar s.columns s.innerVar)) :
    s.stage.guards s.inferred.ranges indices .standard = .ok [s.guard] := by
  have hoverruns : (s.stage.leafOverruns.insert ⟨0⟩
      (!decide (s.extent = s.columns * s.rows))).getDefault ⟨0⟩ = true := by
    rw [decide_eq_false hragged]
    rfl
  have hdistance : (s.context indices).distanceFrom ⟨0⟩ (.between s.dtype 0 s.extent) =
      .ok (.strided s.outerVar s.columns s.innerVar) := by
    have hzero : (Expr.strided s.outerVar s.columns s.innerVar).sub (.const s.dtype 0) =
        .strided s.outerVar s.columns s.innerVar :=
      Expr.sub_zero_const rfl rfl
    have hindex' : (s.context indices).indices.get? ⟨0⟩ = _ := hindex
    rw [GuardContext.distanceFrom_ok hindex' _, Range.between, hzero]
  have hroot : (s.context indices).guardOverrun .standard
      (s.stage.leafOverruns.insert ⟨0⟩ (!decide (s.extent = s.columns * s.rows))) ⟨[], []⟩
        (⟨0⟩, s.rootIter) = .ok ⟨[s.guard], [s.root]⟩ := by
    have hextent : (Range.between s.dtype 0 s.extent).extent = .const s.dtype s.extent := rfl
    simp only [GuardContext.guardOverrun, mayGuard_root, rangeOf_root, hoverruns, hdistance,
      hextent, h.provablyBelow_eq hragged, ok_bind, Bool.not_true, Bool.or_false,
      Bool.false_eq_true, if_false]
    rfl
  exact guards_eq h.overrunsUp_eq ⟨rfl, rfl⟩ hroot

theorem guards_ok (hindex : indices.get? ⟨0⟩ = some (s.inferred.facts.simplify s.index)) :
    s.stage.guards s.inferred.ranges indices .standard = .ok s.predicates := by
  rw [predicates]
  split
  · exact h.guards_of_exact ‹_›
  · obtain ⟨hrows, hcolumns, -⟩ := h.of_ragged ‹_›
    have hsimplify : s.inferred.facts.simplify s.index = _ := h.nests.simplify_index
    rw [if_neg (by omega), if_neg (by omega)] at hsimplify
    exact h.guards_of_ragged ‹_› (hindex.trans (congrArg some hsimplify))

end Rounds

section Values

theorem typedAt_outer : (Expr.var s.outerVar).TypedAt s.dtype :=
  ⟨⟨trivial, trivial⟩, rfl⟩

theorem typedAt_inner : (Expr.var s.innerVar).TypedAt s.dtype :=
  ⟨⟨trivial, trivial⟩, rfl⟩

theorem typedAt_mul : ((Expr.var s.outerVar).mul (.const s.dtype s.columns)).TypedAt s.dtype :=
  .combine rfl typedAt_outer (Expr.typedAt_const s.contains_columns)

theorem typedAt_index : s.index.TypedAt s.dtype :=
  .combine rfl typedAt_mul typedAt_inner

/-- An index with a proper multiple is built as it is. -/
theorem index_eq_strided (hcolumns : 2 ≤ s.columns) :
    s.index = .strided s.outerVar s.columns s.innerVar := by
  have hmul : (Expr.var s.outerVar).mul (.const s.dtype s.columns) = _ :=
    Expr.var_mul_const hcolumns
  rw [index, hmul]
  exact Expr.multiple_add_var rfl

/-- The loop variables have values in their ranges. -/
structure At (s : SingleSplit) (assignment : Assignment) (outer inner : Int) : Prop where
  outerValue : assignment s.outerVar = some outer
  innerValue : assignment s.innerVar = some inner
  outerRange : 0 ≤ outer ∧ outer < s.rows
  innerRange : 0 ≤ inner ∧ inner < s.columns

variable {assignment : Assignment} {outer inner : Int}

/-- The number of an iteration stays below the number of all iterations. -/
theorem At.bounds (hat : s.At assignment outer inner) :
    0 ≤ outer * s.columns ∧ outer * s.columns + inner < s.rows * s.columns := by
  obtain ⟨-, -, ⟨houter, houter'⟩, hinner, hinner'⟩ := hat
  have hproduct : outer * s.columns ≤ (s.rows - 1) * s.columns :=
    mul_le_mul_of_nonneg_right (by omega) (by omega)
  rw [sub_mul, one_mul] at hproduct
  exact ⟨mul_nonneg houter (by omega), by omega⟩

namespace Rounds

variable (h : s.Rounds) (hat : s.At assignment outer inner)
include h

theorem contains_of_lt {x : Int} (hlow : 0 ≤ x) (hhigh : x < s.rows * s.columns) :
    s.dtype.contains x = true :=
  DType.contains_of_between (DType.contains_zero _) h.nests.contained hlow hhigh.le

include hat

theorem eval_outer : (Expr.var s.outerVar).eval assignment = .ok outer := by
  obtain ⟨hvalue, -, ⟨houter, houter'⟩, hinner, hinner'⟩ := hat
  have hrows : s.rows ≤ s.rows * s.columns := le_mul_of_one_le_right (by omega) (by omega)
  have hcontains : s.outerVar.dtype.contains outer = true := h.contains_of_lt houter (by omega)
  exact Expr.eval_var_of_contains hvalue hcontains

theorem eval_inner : (Expr.var s.innerVar).eval assignment = .ok inner := by
  obtain ⟨-, hvalue, ⟨houter, houter'⟩, hinner, hinner'⟩ := hat
  have hcolumns : s.columns ≤ s.rows * s.columns := le_mul_of_one_le_left (by omega) (by omega)
  have hcontains : s.innerVar.dtype.contains inner = true := h.contains_of_lt hinner (by omega)
  exact Expr.eval_var_of_contains hvalue hcontains

/-- The index has the number of the iteration as its value. -/
theorem eval_index : s.index.eval assignment = .ok (outer * s.columns + inner) := by
  obtain ⟨hproduct, hsum⟩ := hat.bounds
  have hinner := hat.innerRange
  exact Expr.eval_mul_const_add typedAt_outer typedAt_inner s.contains_columns (h.eval_outer hat)
    (h.eval_inner hat) hproduct hinner.1 (h.contains_of_lt (by omega) hsum)

/-- Simplified, the index keeps its value. -/
theorem eval_simplify_index :
    (s.inferred.facts.simplify s.index).eval assignment = .ok (outer * s.columns + inner) := by
  have hsimplify : s.inferred.facts.simplify s.index = _ := h.nests.simplify_index
  have houterRange := hat.outerRange
  have hinnerRange := hat.innerRange
  rw [hsimplify]
  split
  · have hzero : outer = 0 := by omega
    rw [h.nests.countsInner.simplify_eq, hzero, zero_mul, zero_add]
    split
    · have hzero' : inner = 0 := by omega
      rw [hzero']
      exact Expr.eval_const_of_contains (DType.contains_zero _)
    · exact h.eval_inner hat
  · split
    · have hone : s.columns = 1 := ‹_›
      have hzero : inner = 0 := by omega
      rw [hone, mul_one, hzero, add_zero]
      exact h.eval_outer hat
    · have hvalue := h.eval_index hat
      rwa [index_eq_strided (by omega)] at hvalue

/-- The guard compares the number of the iteration with the extent. -/
theorem eval_guard (hcolumns : 2 ≤ s.columns) : s.guard.eval assignment =
    .ok (BinaryOp.truth (decide (outer * s.columns + inner < s.extent))) := by
  have hvalue := h.eval_index hat
  have htyped := s.typedAt_index
  rw [index_eq_strided hcolumns] at hvalue htyped
  have hextent := Expr.typedAt_const s.contains_extent
  exact Expr.eval_combine htyped.wellTyped.formed hextent.wellTyped.formed htyped.dtype_eq nofun
    (Expr.eval_comparison rfl hvalue (Expr.eval_const_of_contains s.contains_extent) rfl)

theorem admits_iff (hpredicates : lowering.predicates = s.predicates) :
    lowering.Admits assignment ↔ outer * s.columns + inner < s.extent := by
  obtain ⟨-, hlast⟩ := hat.bounds
  by_cases hexact : s.extent = s.columns * s.rows
  · have hguard : lowering.guard? = none := by
      rw [Lowering.guard?, hpredicates, predicates, if_pos hexact]
    rw [mul_comm] at hexact
    simp only [Lowering.Admits, hguard, Option.not_mem_none, false_imp_iff, implies_true, true_iff]
    omega
  · obtain ⟨-, hcolumns, -⟩ := h.of_ragged hexact
    have hguard : lowering.guard? = some s.guard := by
      rw [Lowering.guard?, hpredicates, predicates, if_neg hexact]
      rfl
    simp only [Lowering.Admits, hguard, Option.mem_def, Option.some.injEq, forall_eq',
      h.eval_guard hat hcolumns]
    by_cases hlt : outer * s.columns + inner < s.extent <;> simp [hlt, BinaryOp.truth]

end Rounds

end Values

section Points

theorem leaves_eq : s.stage.leaves = [⟨1⟩, ⟨2⟩] := rfl

variable {point : IterId → Int}

theorem inside_iff : Stage.Inside s.inferred.ranges s.stage.leaves point ↔
    (0 ≤ point ⟨1⟩ ∧ point ⟨1⟩ < s.rows) ∧ 0 ≤ point ⟨2⟩ ∧ point ⟨2⟩ < s.columns := by
  obtain ⟨hlow, hextent⟩ := IterMap.box_of_get?
    (rfl : s.inferred.ranges.get? ⟨1⟩ = some (.between s.dtype 0 s.rows))
  obtain ⟨hlow', hextent'⟩ := IterMap.box_of_get?
    (rfl : s.inferred.ranges.get? ⟨2⟩ = some (.between s.dtype 0 s.columns))
  simp only [Stage.Inside, leaves_eq, List.forall_mem_cons, List.not_mem_nil, false_imp_iff,
    implies_true, and_true, Box.Contains, hlow, hextent, hlow', hextent', zero_add]

theorem at_of_inside (h : Stage.Inside s.inferred.ranges s.stage.leaves point) :
    s.At (s.stage.assignmentAt s.stage.leaves point) (point ⟨1⟩) (point ⟨2⟩) := by
  obtain ⟨houter, hinner⟩ := inside_iff.mp h
  have hvar : s.stage.iterVar? ⟨1⟩ = some ⟨s.outerVar, none, .parallel⟩ := rfl
  have hvar' : s.stage.iterVar? ⟨2⟩ = some ⟨s.innerVar, none, .parallel⟩ := rfl
  have hne : s.outerVar ≠ s.innerVar := by simp [outerVar, innerVar]
  refine ⟨?_, ?_, houter, hinner⟩ <;> simp [Stage.assignmentAt, leaves_eq, hvar, hvar', hne]

end Points

/-- What lowering the stage gives. -/
theorem Rounds.lower_ok (h : s.Rounds) :
    ∃ lowering, s.stage.lower .empty .standard = .ok lowering ∧
      lowering.ranges = s.inferred.ranges ∧
      lowering.upIndices.get? ⟨0⟩ = some (s.inferred.facts.simplify s.index) ∧
      lowering.predicates = s.predicates := by
  obtain ⟨up, hup, hindex⟩ : ∃ up, s.stage.indicesUp s.inferred.ranges false
      (Stage.indexMap s.entries) = .ok up ∧ up.get? ⟨0⟩ = some (s.index.castTo s.dtype) :=
    ⟨_, rfl, rfl⟩
  obtain ⟨down, hdown⟩ : ∃ down, s.stage.derivableIndicesDown s.inferred.ranges
      (.ofList [(⟨0⟩, .var s.rootVar)]) = .ok down := ⟨_, rfl⟩
  have hvalid : s.stage.validate = .ok () := rfl
  have hentries : s.stage.leaves.mapM (s.stage.leafIndex s.inferred.ranges) = .ok s.entries := rfl
  have hroots : s.stage.rootIndices = .ok (.ofList [(⟨0⟩, .var s.rootVar)]) := rfl
  have hindex' : (up.map s.inferred.facts.simplify).get? ⟨0⟩ =
      some (s.inferred.facts.simplify s.index) := by
    rw [IterMap.get?_map, hindex, Option.map_some, Expr.castTo_of_dtype_eq typedAt_index.dtype_eq]
  refine ⟨⟨s.inferred.ranges, up.map s.inferred.facts.simplify,
    down.map s.inferred.facts.simplify, s.predicates⟩, ?_, rfl, hindex', rfl⟩
  rw [Stage.lower, hvalid, ok_bind, inferAll_eq, ok_bind, hentries, ok_bind]
  simp only [← Stage.indexMap.eq_1, ← LeafIndex.assumeAll.eq_1, h.assumeAll_eq, hup, hroots, hdown,
    Except.mapError, ok_bind, h.guards_ok hindex']
  rfl

/-- The guard admits each value of the root at just one point, that of its quotient and its
remainder. -/
theorem Rounds.enumerates (h : s.Rounds) (hranges : lowering.ranges = s.inferred.ranges)
    (hindex : lowering.upIndices.get? ⟨0⟩ = some (s.inferred.facts.simplify s.index))
    (hpredicates : lowering.predicates = s.predicates) : s.Enumerates lowering := by
  have hvalue : ∀ {point}, Stage.Inside s.inferred.ranges s.stage.leaves point →
      lowering.upIndices.HasValue (s.stage.assignmentAt s.stage.leaves point) ⟨0⟩
        (point ⟨1⟩ * s.columns + point ⟨2⟩) :=
    fun hinside => ⟨_, hindex, h.eval_simplify_index (at_of_inside hinside)⟩
  have hadmits : ∀ {point}, Stage.Inside s.inferred.ranges s.stage.leaves point →
      (lowering.Admits (s.stage.assignmentAt s.stage.leaves point) ↔
        point ⟨1⟩ * s.columns + point ⟨2⟩ < s.extent) :=
    fun hinside => h.admits_iff (at_of_inside hinside) hpredicates
  obtain ⟨hcolumns, -, hcover⟩ := h.cover
  constructor <;> rw [hranges]
  case sound =>
    intro point hinside hadmitted
    obtain ⟨⟨houter, -⟩, hinner, -⟩ := inside_iff.mp hinside
    exact ⟨_, hvalue hinside, add_nonneg (mul_nonneg houter (by omega)) hinner,
      (hadmits hinside).mp hadmitted⟩
  case unique =>
    intro point point' x hinside hinside' _ _ hx hx'
    obtain ⟨-, hinner, hinner'⟩ := inside_iff.mp hinside
    obtain ⟨-, hother, hother'⟩ := inside_iff.mp hinside'
    have hsame : point ⟨1⟩ * s.columns + point ⟨2⟩ = point' ⟨1⟩ * s.columns + point' ⟨2⟩ := by
      rw [← (hvalue hinside).valueAt_eq, hx.valueAt_eq, ← hx'.valueAt_eq,
        (hvalue hinside').valueAt_eq]
    obtain ⟨hfirst, hsecond⟩ := Box.eq_and_eq_of_mul_add_eq hinner hinner' hother hother' hsame
    simp [leaves_eq, hfirst, hsecond]
  case onto =>
    intro x hnonneg hlt
    let point : IterId → Int := fun id => if id = ⟨1⟩ then x / s.columns else x % s.columns
    have hindex : point ⟨1⟩ * s.columns + point ⟨2⟩ = x := by
      rw [mul_comm]
      exact Int.mul_ediv_add_emod x s.columns
    have hquotient : x / s.columns < s.rows :=
      Int.ediv_lt_of_lt_mul (by omega) (by rw [mul_comm]; omega)
    have hinside : Stage.Inside s.inferred.ranges s.stage.leaves point :=
      inside_iff.mpr ⟨⟨Int.ediv_nonneg hnonneg (by omega), hquotient⟩,
        Int.emod_nonneg x (by omega), Int.emod_lt_of_pos x (by omega)⟩
    exact ⟨point, hinside, (hadmits hinside).mpr (hindex.symm ▸ hlt), hindex ▸ hvalue hinside⟩

/-- If nothing wraps, the stage is lowered exactly. -/
theorem Rounds.lowersExactly (h : s.Rounds) : s.LowersExactly := by
  obtain ⟨lowering, hlower, hranges, hindex, hpredicates⟩ := h.lower_ok
  refine ⟨lowering, hlower, ?_, h.enumerates hranges hindex hpredicates⟩
  rw [hranges, ← h.rows_eq_ceil]
  rfl

/-- A sum that wraps is negative, and so is the extent of the outer loop. -/
theorem rows_neg (hwraps : ¬s.Rounds) : s.rows < 0 := by
  obtain ⟨hne, habove⟩ := Classical.not_imp.mp hwraps
  have hextent := s.extent_le
  have hfactor := s.factor_le
  have hpositive := s.one_le_factor
  have hnegative : s.dtype.truncate (s.extent + (s.factor - 1)) < 0 :=
    DType.truncate_neg_of_maxValue_lt s.signed (by omega) (by omega)
  rw [rows, Stage.splitExtents, if_neg hne]
  exact Int.ediv_neg_of_neg_of_pos hnegative (by omega)

theorem LowersExactly.rounds (h : s.LowersExactly) : s.Rounds := by
  obtain ⟨lowering, hlower, hrange, -⟩ := h
  obtain ⟨inferred, -, -, -, -, hinferred, -, -, -, -, hranges, -⟩ := Stage.lower_inv hlower
  obtain rfl : s.inferred = inferred := Except.ok.inj (s.inferAll_eq.symm.trans hinferred)
  rw [hranges] at hrange
  have hsame : Range.between s.dtype 0 s.rows = .between s.dtype 0 ⌈(s.extent / s.factor : ℚ)⌉ :=
    Option.some.inj hrange
  have hrows : s.rows = ⌈(s.extent / s.factor : ℚ)⌉ := by simpa [Range.between] using hsame
  have hpositive : 0 < s.rows := by
    rw [hrows, Int.ceil_pos]
    exact div_pos (by exact_mod_cast s.one_le_extent) (by exact_mod_cast s.one_le_factor)
  by_contra hwraps
  exact lt_asymm hpositive (rows_neg hwraps)

/-- A single split is lowered exactly if and only if the sum that rounds up the quotient of its
extent and its factor stays in the type. -/
theorem lowersExactly_iff (s : SingleSplit) : s.LowersExactly ↔
    (s.extent % s.factor ≠ 0 → s.extent + (s.factor - 1) ≤ s.dtype.maxValue) :=
  ⟨LowersExactly.rounds, Rounds.lowersExactly⟩

/-- A hundred values of the narrowest type, split by a factor. -/
def hundredBytes (factor : Int) (hpositive : 1 ≤ factor) (hbyte : factor ≤ 127) : SingleSplit :=
  ⟨"stage", .globalMemory, "i", .int8, 100, factor, rfl, by decide, by decide, hpositive, hbyte⟩

/-- A factor of twenty-eight takes the sum just to the greatest value of the type, and a factor
of sixty takes it beyond. -/
theorem lowersExactly_of_hundredBytes :
    (hundredBytes 28 (by decide) (by decide)).LowersExactly ∧
      ¬(hundredBytes 60 (by decide) (by decide)).LowersExactly := by
  rw [lowersExactly_iff, lowersExactly_iff]
  decide

end SingleSplit

end LoopNest
