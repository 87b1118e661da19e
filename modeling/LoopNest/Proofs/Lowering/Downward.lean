/-
# Indices in terms of the roots

Lowering reports an index of every loop in terms of the leaves, and of every loop where that
can be computed also one in terms of the roots. Both are about the same loop, so at a point
that the guard admits the second one should have, at the values of the roots, the value that
the first one has.

The indices in terms of the roots are simplified under ranges and constraints that mention
other variables, but no variable gets into them, so the roots determine their values. What
they lack is the start of a loop that is split: it is added upward and not subtracted
downward. A derived loop starts at zero, so both agree exactly where no split takes apart a
root with an offset.
-/

import LoopNest.Proofs.Facts.Mentions
import LoopNest.Proofs.Flow.Evaluated
import LoopNest.Proofs.Lowering.Threads

namespace LoopNest

/-- The values of the leaves and of the roots where the leaves have given values. -/
def Stage.withRoots (stage : Stage) (lowering : Lowering) (assignment : Assignment) :
    Assignment :=
  stage.assignmentAt (stage.leaves ++ stage.roots) (lowering.upIndices.valueAt assignment)

/-- Nothing wraps when the indices in terms of the roots are built and simplified: not in the
ends of the ranges of the roots, and not at a point that the guard admits. -/
structure Lowering.DescendsExactly (stage : Stage) (lowering : Lowering) : Prop where
  ends : ∀ root ∈ stage.roots, DType.int32.contains
    (lowering.ranges.box.low root + lowering.ranges.box.extent root) = true
  analysis : ∀ inferred entries roots down, stage.inferAll .empty = .ok inferred →
    stage.leaves.mapM (stage.leafIndex inferred.ranges) = .ok entries →
    stage.rootIndices = .ok roots → stage.derivableIndicesDown inferred.ranges roots = .ok down →
    ∀ point, Stage.Inside lowering.ranges stage.leaves point →
      lowering.Admits (stage.assignmentAt stage.leaves point) →
      AnalysesExactly (stage.withRoots lowering (stage.assignmentAt stage.leaves point))
        inferred.facts entries down

instance (lowering : Lowering) (assignment : Assignment) :
    Decidable (lowering.Admits assignment) :=
  inferInstanceAs (Decidable (∀ guard ∈ lowering.guard?, guard.eval assignment = .ok 1))

/-- Nothing wraps if nothing does at the listed points. -/
theorem Lowering.descendsExactly_iff {stage : Stage} {lowering : Lowering} :
    lowering.DescendsExactly stage ↔
    (∀ root ∈ stage.roots, DType.int32.contains
      (lowering.ranges.box.low root + lowering.ranges.box.extent root) = true) ∧
    ∀ inferred ∈ (stage.inferAll .empty).toOption,
      ∀ entries ∈ (stage.leaves.mapM (stage.leafIndex inferred.ranges)).toOption,
        ∀ roots ∈ stage.rootIndices.toOption,
          ∀ down ∈ (stage.derivableIndicesDown inferred.ranges roots).toOption,
            ∀ point ∈ lowering.ranges.box.points stage.leaves,
              lowering.Admits (stage.assignmentAt stage.leaves point) → AnalysesExactly
                (stage.withRoots lowering (stage.assignmentAt stage.leaves point))
                inferred.facts entries down := by
  have hpoints := fun (facts : Facts) (entries : List LeafIndex) (down : IterMap Expr) =>
    @Stage.forall_inside_iff stage lowering.ranges stage.leaves fun assignment =>
      lowering.Admits assignment →
        AnalysesExactly (stage.withRoots lowering assignment) facts entries down
  simp only [Option.mem_def, toOption_eq_some, ← hpoints]
  constructor
  · rintro ⟨hends, hanalysis⟩
    exact ⟨hends, fun inferred hinferred entries hentries roots hroots down hdown =>
      hanalysis inferred entries roots down hinferred hentries hroots hdown⟩
  · rintro ⟨hends, hanalysis⟩
    exact ⟨hends, fun inferred entries roots down hinferred hentries hroots hdown =>
      hanalysis inferred hinferred entries hentries roots hroots down hdown⟩

instance (stage : Stage) (lowering : Lowering) : Decidable (lowering.DescendsExactly stage) :=
  decidable_of_iff' _ Lowering.descendsExactly_iff

namespace Stage

variable {stage : Stage} {dtype : DType} {ranges : IterMap Range} {down seed : IterMap Expr}
  {lowering : Lowering} {inferred : Inference} {indices : IterMap Expr} {known : RangedFacts}
  {overruns : IterMap Bool} {point value : IterId → Int}

section Roots

variable {lenient : Bool} (h : stage.TakesApart ranges lenient seed down)
variable (hseed : ∀ root ∈ stage.roots, seed.get? root = some (stage.exprOf root))
include h hseed

/-- The indices computed downward mention the variables of the roots only. -/
theorem TakesApart.mentions (hlinked : stage.Linked) (htype : stage.HasType dtype)
    (hranges : stage.HasLiteralRanges dtype ranges) {v : Var}
    (hv : ∀ root ∈ stage.roots, (stage.exprOf root).mentions v = false) :
    ∀ id ∈ stage.defined, ∀ index, down.get? id = some index → index.mentions v = false := by
  refine hlinked.induction_down (fun root hroot index hindex => ?_)
    fun relation hrelation hinputs id hid index hindex => ?_
  · rw [h.roots root hroot, hseed root hroot, Option.some.injEq] at hindex
    exact hindex ▸ hv root hroot
  · by_cases hstart : StartsAtZero ranges relation
    case neg =>
      rw [(h.relations relation hrelation).2 hstart id hid] at hindex
      cases hindex
    have htaken := (h.relations relation hrelation).1 hstart
    have hinput : ∀ id ∈ relation.inputs, id ∈ stage.defined :=
      fun id hid => hlinked.mem_defined_of_mem_inputs hrelation hid
    have houtput : ∀ id ∈ relation.outputs, id ∈ stage.defined :=
      fun id hid => mem_defined_of_mem_outputs hrelation hid
    cases relation with
    | split parent outer inner size =>
        simp only [Relation.inputs, Relation.outputs, List.mem_cons, List.not_mem_nil, or_false,
          forall_eq, forall_eq_or_imp] at hinputs hid houtput
        obtain ⟨houter, hinner⟩ := htaken _ (hranges.loops inner houtput.2).get?
        rcases hid with rfl | rfl
        · obtain ⟨parentIndex, hparent, rfl⟩ := Option.map_eq_some_iff.mp (houter.symm.trans hindex)
          exact Expr.mentions_combine (hinputs parentIndex hparent) rfl
        · obtain ⟨parentIndex, hparent, rfl⟩ := Option.map_eq_some_iff.mp (hinner.symm.trans hindex)
          exact Expr.mentions_combine (hinputs parentIndex hparent) rfl
    | fuse outer inner fused =>
        simp only [Relation.inputs, Relation.outputs, List.mem_cons, List.not_mem_nil, or_false,
          forall_eq, forall_eq_or_imp] at hinputs hid hinput
        rw [hid, htaken _ (hranges.loops inner hinput.2).get?] at hindex
        obtain ⟨outerIndex, houter, hmap⟩ := Option.bind_eq_some_iff.mp hindex
        obtain ⟨innerIndex, hinner, rfl⟩ := Option.map_eq_some_iff.mp hmap
        exact Expr.mentions_combine (Expr.mentions_combine (hinputs.1 outerIndex houter) rfl)
          (hinputs.2 innerIndex hinner)
    | rebase parent rebased =>
        simp only [Relation.inputs, Relation.outputs, List.mem_cons, List.not_mem_nil, or_false,
          forall_eq] at hinputs hid
        rw [hid, htaken] at hindex
        exact hinputs index hindex
    | singleton iter =>
        simp only [Relation.outputs, List.mem_cons, List.not_mem_nil, or_false, forall_eq]
          at hid houtput
        obtain ⟨iv, hiv, -⟩ := htype iter houtput
        rw [hid, htaken iv hiv, Option.some.injEq] at hindex
        exact hindex ▸ Expr.mentions_literal _ _

end Roots

/-- At every point that the guard admits, the indices in terms of the roots have, at the
values of the roots, the values that the indices in terms of the leaves have. -/
def DescendsToLeaves (stage : Stage) (lowering : Lowering) : Prop :=
  ∀ point, Inside lowering.ranges stage.leaves point →
    lowering.Admits (stage.assignmentAt stage.leaves point) →
      ∃ value : IterId → Int,
        (∀ id ∈ stage.defined,
          lowering.upIndices.HasValue (stage.assignmentAt stage.leaves point) id (value id)) ∧
        (∀ leaf ∈ stage.leaves, value leaf = point leaf) ∧
        ∀ atRoots, stage.RootsAt value atRoots → ∀ id ∈ stage.defined, ∀ index,
          lowering.downIndices.get? id = some index → index.eval atRoots = .ok (value id)

/-- Among the values of leaves and roots are those of the roots. -/
theorem Regular.rootsAt (h : stage.Regular) (value : IterId → Int) :
    stage.RootsAt value (stage.assignmentAt (stage.leaves ++ stage.roots) value) := by
  intro root hroot
  obtain ⟨iv, hiv⟩ := h.hasVars root (mem_defined_of_mem_roots hroot)
  exact ⟨iv, hiv, h.assignmentAt_driver (List.mem_append_right _ hroot) hiv⟩

/-- What is known about the indices in terms of the roots. -/
structure Descends (stage : Stage) (lowering : Lowering) (inferred : Inference)
    (seed down : IterMap Expr) : Prop where
  takes : stage.TakesApart inferred.ranges true seed down
  seeds : ∀ root ∈ stage.roots, seed.get? root = some (stage.exprOf root)
  downIndices : lowering.downIndices = down.map (stage.drivenFacts inferred).simplify
  analysis : lowering.DescendsExactly stage → ∀ point, Inside lowering.ranges stage.leaves point →
    lowering.Admits (stage.assignmentAt stage.leaves point) →
    Lowering.AnalysesExactly (stage.withRoots lowering (stage.assignmentAt stage.leaves point))
      inferred.facts (stage.leaves.map (stage.drivenIndex inferred.ranges.box)) down

theorem Lowers.descends (h : stage.Lowers lowering inferred indices known overruns)
    (hregular : stage.Regular) : ∃ seed down, stage.Descends lowering inferred seed down := by
  obtain ⟨seed, down, hseed, hdown, heq⟩ := h.downIndices
  obtain ⟨found, hfound, hget⟩ := hregular.hasVars.rootIndices_ok
  obtain rfl := Except.ok.inj (hseed.symm.trans hfound)
  have hseeds : ∀ root ∈ stage.roots, seed.get? root = some (stage.exprOf root) :=
    fun root hroot => (hget root).trans (if_pos hroot)
  obtain ⟨found, hfound, htakes⟩ := hregular.linked.derivableIndicesDown_ok hregular.hasVars
    (h.infers.hasLiteralRanges hregular).hasRanges
    (fun root hroot => by rw [hseeds root hroot]; rfl) (hregular.linked.get?_of_made hget)
  obtain rfl := Except.ok.inj (hdown.symm.trans hfound)
  exact ⟨seed, down, htakes, hseeds, heq, fun hexact point hinside hadmits =>
    hexact.analysis inferred _ seed down h.infersAll h.entries hseed hdown point hinside hadmits⟩

/-- A point that the guard admits, with the values that all loops have there. Ranges and
constraints are respected where leaves and roots have these values, and nothing wraps. -/
structure Admitted (stage : Stage) (lowering : Lowering) (inferred : Inference)
    (down : IterMap Expr) (assignment : Assignment) (value : IterId → Int) : Prop where
  point : inferred.ranges.box.IsPoint stage value
  indices : ∀ id ∈ stage.defined, lowering.upIndices.EvaluatesTo .int32 assignment id (value id)
  roots : ∀ root ∈ stage.roots, DType.int32.contains (value root) = true
  respects : (stage.drivenFacts inferred).Respects
    (stage.assignmentAt (stage.leaves ++ stage.roots) value)
  exact : ∀ id index, down.get? id = some index →
    (stage.drivenFacts inferred).SimplifiesExactly
      (stage.assignmentAt (stage.leaves ++ stage.roots) value) index

section Points

variable (h : stage.Lowers lowering inferred indices known overruns)
variable (hdescends : stage.Descends lowering inferred seed down) (hregular : stage.Regular)
variable (hfree : ∀ leaf ∈ stage.leaves, stage.threadOf? leaf = none)
variable (hwrap : lowering.WrapFree stage) (hexact : lowering.DescendsExactly stage)

include hfree in
/-- Without threads, every leaf drives itself. -/
theorem driver_eq_self {leaf : IterId} (hleaf : leaf ∈ stage.leaves) :
    stage.driver leaf = leaf := by
  rw [driver, hfree leaf hleaf, Option.getD_none]

include hfree in
theorem drivers_eq_leaves : stage.drivers = stage.leaves := by
  have hself : stage.leaves.map stage.driver = stage.leaves.map id :=
    List.map_congr_left fun leaf hleaf => driver_eq_self hfree hleaf
  rw [drivers, hself, List.map_id]

include hfree in
theorem bindsFromZero_of_free : stage.BindsFromZero := by
  intro root _ hleaf hbound
  rw [hfree root hleaf] at hbound
  cases hbound

theorem Regular.mem_defined_of_mem_leaves_append_roots (h : stage.Regular) {id : IterId}
    (hid : id ∈ stage.leaves ++ stage.roots) : id ∈ stage.defined := by
  rcases List.mem_append.mp hid with hleaf | hroot
  · exact h.linked.mem_defined_of_mem_leaves hleaf
  · exact mem_defined_of_mem_roots hroot

include h hregular hfree hwrap

/-- Where the guard admits the leaves, the indices of all loops stay inside and follow the
relations. -/
theorem Lowers.exists_point (hinside : Inside lowering.ranges stage.leaves point)
    (hadmits : lowering.Admits (stage.assignmentAt stage.leaves point)) :
    ∃ value, inferred.ranges.box.IsPoint stage value ∧
      (∀ id ∈ stage.defined, lowering.upIndices.EvaluatesTo .int32
        (stage.assignmentAt stage.leaves point) id (value id)) ∧
      ∀ leaf ∈ stage.leaves, value leaf = point leaf := by
  have hdrivers := drivers_eq_leaves hfree
  have hzero := bindsFromZero_of_free hfree
  rw [h.ranges, ← hdrivers] at hinside
  rw [← hdrivers] at hadmits
  obtain ⟨hvalues, hat⟩ := h.atPoint hwrap hinside hregular hzero
  have hcontains := hat.contains_of_accepts h.guarding
    ((h.admits_iff hwrap hregular hzero hinside).mp hadmits)
  rw [hdrivers] at hvalues hat hcontains
  refine ⟨_, ⟨fun id hid => hcontains id (hregular.mem_defined_iff.mp hid), hat.follows⟩,
    fun id hid => hat.indices id (hregular.mem_defined_iff.mp hid), fun leaf hleaf => ?_⟩
  rw [hvalues leaf hleaf, driver_eq_self hfree hleaf]

include hexact

/-- Leaves and roots have literal ranges whose ends fit. -/
theorem Lowers.leaves_and_roots_literal :
    DrivesLiterally inferred.ranges (stage.leaves ++ stage.roots) := by
  intro id hid
  rcases List.mem_append.mp hid with hleaf | hroot
  · rw [← drivers_eq_leaves hfree] at hleaf
    exact h.drivers_literal hwrap hregular id hleaf
  · obtain ⟨hget, hlow, -⟩ := h.infers.hasNumbers (hregular.mem_loops_of_mem_roots hroot)
    exact ⟨_, _, hget, hlow, h.ranges ▸ hexact.ends id hroot⟩

include hdescends

/-- All loops have values where the guard admits the leaves. -/
theorem Lowers.exists_admitted (hinside : Inside lowering.ranges stage.leaves point)
    (hadmits : lowering.Admits (stage.assignmentAt stage.leaves point)) :
    ∃ value, stage.Admitted lowering inferred down (stage.assignmentAt stage.leaves point) value ∧
      ∀ leaf ∈ stage.leaves, value leaf = point leaf := by
  obtain ⟨value, hpoint, hevaluates, hleaves⟩ :=
    h.exists_point hregular hfree hwrap hinside hadmits
  have hliteral := h.leaves_and_roots_literal hregular hfree hwrap hexact
  have hall : Inside inferred.ranges (stage.leaves ++ stage.roots) value := fun id hid =>
    hpoint.inside id (hregular.mem_defined_of_mem_leaves_append_roots hid)
  have hsame : stage.withRoots lowering (stage.assignmentAt stage.leaves point) =
      stage.assignmentAt (stage.leaves ++ stage.roots) value := assignmentAt_congr fun id hid =>
    (hevaluates id (hregular.mem_defined_of_mem_leaves_append_roots hid)).valueAt_eq
  have hanalysis := hdescends.analysis hexact point hinside hadmits
  rw [hsame] at hanalysis
  have hrespects := h.infers.drivenFacts_respects hregular hliteral hall (fun leaf hleaf => by
    rw [driver_eq_self hfree hleaf]
    exact List.mem_append_left _ hleaf) hanalysis.assumed
  exact ⟨value, ⟨hpoint, hevaluates,
    fun root hroot => hliteral.contains hall (List.mem_append_right _ hroot), hrespects,
    hanalysis.simplified⟩, hleaves⟩

end Points

namespace Admitted

variable {assignment atRoots : Assignment}
variable (h : stage.Admitted lowering inferred down assignment value)
variable (hdescends : stage.Descends lowering inferred seed down) (hregular : stage.Regular)
variable (hranges : stage.HasLiteralRanges .int32 inferred.ranges)

include h hdescends hregular hranges

/-- An index in terms of the roots keeps its value when it is simplified, and the values of
the roots determine it. -/
theorem eval_downIndices {id : IterId} {index : Expr} {x : Int} (hid : id ∈ stage.defined)
    (hindex : down.get? id = some index) (htyped : index.TypedAt .int32)
    (hx : index.eval (stage.assignmentAt (stage.leaves ++ stage.roots) value) = .ok x)
    (hroots : stage.RootsAt value atRoots) :
    lowering.downIndices.HasValue atRoots id x := by
  refine ⟨_, by rw [hdescends.downIndices, IterMap.get?_map, hindex, Option.map_some], ?_⟩
  rw [← Facts.eval_simplify_congr _ fun v hv => ?_]
  · exact h.respects.eval_simplify htyped.wellTyped (h.exact id index hindex) hx
  · obtain ⟨root, hroot, hmentions⟩ : ∃ root ∈ stage.roots,
        (stage.exprOf root).mentions v = true := by
      by_contra hnone
      have hfree := hdescends.takes.mentions hdescends.seeds hregular.linked hregular.hasType
        hranges (fun root hroot => Bool.eq_false_iff.mpr fun hmentions =>
          hnone ⟨root, hroot, hmentions⟩) id hid index hindex
      rw [hfree] at hv
      cases hv
    obtain ⟨iv, hiv, hvalue⟩ := hroots root hroot
    obtain ⟨other, hother, hvalue'⟩ := hregular.rootsAt value root hroot
    obtain rfl := Option.some.inj (hiv.symm.trans hother)
    rw [exprOf_eq hiv] at hmentions
    obtain rfl : iv.var = v := of_decide_eq_true hmentions
    rw [hvalue, hvalue']

/-- Where no split takes apart a loop with an offset, the indices in terms of the roots have
the values of the loops. -/
theorem eval_of_splitsAtZero
    (hcovers : ∀ relation ∈ stage.relations, inferred.ranges.box.Covers relation)
    (hsplits : ∀ relation ∈ stage.relations, inferred.ranges.box.SplitsAtZero relation)
    (hroots : stage.RootsAt value atRoots) {id : IterId} {index : Expr} (hid : id ∈ stage.defined)
    (hindex : lowering.downIndices.get? id = some index) :
    index.eval atRoots = .ok (value id) := by
  have hagrees := hdescends.takes.agreesWith hregular.linked hregular.hasType hranges h.point
    hcovers hsplits hdescends.seeds (hregular.rootsAt value) h.roots id hid
  obtain ⟨raw, hraw, -⟩ : ∃ raw, down.get? id = some raw ∧ _ = index := by
    rwa [hdescends.downIndices, IterMap.get?_map, Option.map_eq_some_iff] at hindex
  obtain ⟨htyped, hx⟩ := hagrees raw hraw
  obtain ⟨found, hfound, hvalue⟩ :=
    h.eval_downIndices hdescends hregular hranges hid hraw htyped hx hroots
  obtain rfl := Option.some.inj (hindex.symm.trans hfound)
  exact hvalue

/-- A root that is split has an index of what is split off: its own value taken apart. -/
theorem eval_split {parent outer inner : IterId} {size : SplitSize}
    (hrelation : .split parent outer inner size ∈ stage.relations) (hroot : parent ∈ stage.roots)
    (hroots : stage.RootsAt value atRoots) :
    lowering.downIndices.HasValue atRoots outer
        (value parent / inferred.ranges.box.extent inner) ∧
      lowering.downIndices.HasValue atRoots inner
        (value parent % inferred.ranges.box.extent inner) := by
  have hdefined : outer ∈ stage.defined ∧ inner ∈ stage.defined := by
    constructor <;> exact mem_defined_of_mem_outputs hrelation (by simp [Relation.outputs])
  have hinner := hranges.loops inner hdefined.2
  have hpositive := (h.point.inside inner hdefined.2).positive
  have hzero := hranges.made _ hrelation inner (by simp [Relation.outputs])
  have hstart : StartsAtZero inferred.ranges (.split parent outer inner size) := by
    rw [StartsAtZero, Relation.zeroBased, List.forall_mem_singleton]
    exact hinner.isZero_iff.mpr hzero
  obtain ⟨houter, hinner'⟩ := (hdescends.takes.relations _ hrelation).1 hstart _ hinner.get?
  rw [hdescends.takes.roots parent hroot, hdescends.seeds parent hroot, Option.map_some]
    at houter hinner'
  obtain ⟨iv, hiv, hvalue⟩ := hregular.rootsAt value parent hroot
  obtain ⟨other, hother, hdtype⟩ := hregular.hasType parent (mem_defined_of_mem_roots hroot)
  obtain rfl := Option.some.inj (hiv.symm.trans hother)
  have htyped : iv.expr.TypedAt .int32 := ⟨⟨trivial, trivial⟩, hdtype⟩
  have hconst := Expr.typedAt_const hinner.extent
  have hcontains := h.roots parent hroot
  have hx : iv.expr.eval (stage.assignmentAt (stage.leaves ++ stage.roots) value) =
      .ok (value parent) :=
    Expr.eval_var_of_contains hvalue ((congrArg (DType.contains · _) hdtype).trans hcontains)
  rw [exprOf_eq hiv] at houter hinner'
  exact ⟨h.eval_downIndices hdescends hregular hranges hdefined.1 houter
      (htyped.combine rfl hconst) (Expr.eval_floorDiv_const htyped hpositive hinner.extent hx)
      hroots,
    h.eval_downIndices hdescends hregular hranges hdefined.2 hinner'
      (htyped.combine rfl hconst) (Expr.eval_floorMod_const htyped hpositive hinner.extent hx
        (Word.floorMod?_of_int32 hcontains hinner.extent hpositive)) hroots⟩

end Admitted

section Points

variable (h : stage.Lowers lowering inferred indices known overruns)
variable (hdescends : stage.Descends lowering inferred seed down) (hregular : stage.Regular)
variable (hfree : ∀ leaf ∈ stage.leaves, stage.threadOf? leaf = none)
variable (hwrap : lowering.WrapFree stage) (hexact : lowering.DescendsExactly stage)
include h hdescends hregular hfree hwrap hexact

/-- Where no split takes apart a loop with an offset, both kinds of indices agree. -/
theorem Lowers.descendsToLeaves
    (hsplits : ∀ relation ∈ stage.relations, lowering.ranges.box.SplitsAtZero relation) :
    stage.DescendsToLeaves lowering := by
  have hguards := hwrap.guards
  rw [h.ranges] at hguards hsplits
  have hfits := h.infers.fits hregular (suppliesLiterals_empty stage) hguards.extents
  intro point hinside hadmits
  obtain ⟨value, hadmitted, hleaves⟩ :=
    h.exists_admitted hdescends hregular hfree hwrap hexact hinside hadmits
  exact ⟨value, fun id hid => (hadmitted.indices id hid).hasValue, hleaves,
    fun atRoots hroots id hid index => hadmitted.eval_of_splitsAtZero hdescends hregular
      (h.infers.hasLiteralRanges hregular) hfits.covers hsplits hroots hid⟩

/-- Where both kinds of indices agree, they do so at some point that the guard admits. -/
theorem Lowers.exists_agreeing (hdown : stage.DescendsToLeaves lowering) :
    ∃ assignment value, stage.Admitted lowering inferred down assignment value ∧
      ∀ id ∈ stage.defined, ∀ x, lowering.downIndices.HasValue
        (stage.assignmentAt (stage.leaves ++ stage.roots) value) id x → value id = x := by
  have hguards := hwrap.guards
  rw [h.ranges] at hguards
  have hpositive := h.infers.positive hregular (suppliesLiterals_empty stage) hguards.extents
  obtain ⟨point, hinside, hadmits, -⟩ :=
    (h.covers hwrap hregular (bindsFromZero_of_free hfree)).onto inferred.ranges.box.low
      fun root hroot => by
        have hone := hpositive root (hregular.mem_loops_of_mem_roots hroot)
        exact (h.infers.declares_iff hregular hroot).mpr ⟨le_rfl, by omega⟩
  rw [drivers_eq_leaves hfree] at hinside hadmits
  obtain ⟨value, hadmitted, -⟩ :=
    h.exists_admitted hdescends hregular hfree hwrap hexact hinside hadmits
  obtain ⟨value', hvalues, -, hagree⟩ := hdown point hinside hadmits
  have hsame : ∀ id ∈ stage.defined, value' id = value id := fun id hid =>
    (hvalues id hid).valueAt_eq.symm.trans (hadmitted.indices id hid).valueAt_eq
  have hroots : stage.RootsAt value' (stage.assignmentAt (stage.leaves ++ stage.roots) value) := by
    intro root hroot
    rw [hsame root (mem_defined_of_mem_roots hroot)]
    exact hregular.rootsAt value root hroot
  refine ⟨_, value, hadmitted, fun id hid x hx => ?_⟩
  obtain ⟨index, hindex, hx⟩ := hx
  rw [← hsame id hid]
  exact Except.ok.inj ((hagree _ hroots id hid index hindex).symm.trans hx)

/-- Where both kinds of indices agree, no split takes apart a loop with an offset: upward the
offset is part of the value of the loop, and downward the whole value is taken apart. -/
theorem Lowers.splitsAtZero (hdown : stage.DescendsToLeaves lowering) :
    ∀ relation ∈ stage.relations, lowering.ranges.box.SplitsAtZero relation := by
  have hranges := h.infers.hasLiteralRanges hregular
  intro relation hrelation
  rw [h.ranges]
  cases relation with
  | fuse | rebase | singleton => trivial
  | split parent outer inner size =>
      have hparent : parent ∈ stage.defined :=
        hregular.linked.mem_defined_of_mem_inputs hrelation (by simp [Relation.inputs])
      have houtput : outer ∈ stage.defined ∧ inner ∈ stage.defined := by
        constructor <;> exact mem_defined_of_mem_outputs hrelation (by simp [Relation.outputs])
      rcases List.mem_append.mp hparent with hroot | hmade
      · obtain ⟨assignment, value, hadmitted, hagree⟩ :=
          h.exists_agreeing hdescends hregular hfree hwrap hexact hdown
        obtain ⟨hquotient, hremainder⟩ := hadmitted.eval_split hdescends hregular hranges
          hrelation hroot (hregular.rootsAt value)
        have hfollows : value parent - inferred.ranges.box.low parent =
            value outer * inferred.ranges.box.extent inner + value inner :=
          hadmitted.point.follows _ hrelation
        rw [hagree outer houtput.1 _ hquotient, hagree inner houtput.2 _ hremainder,
          Int.ediv_mul_add_emod] at hfollows
        exact sub_eq_self.mp hfollows
      · obtain ⟨other, hother, houtput⟩ := List.mem_flatMap.mp hmade
        exact hranges.made other hother parent houtput

end Points

/-- On a stage without threads the indices in terms of the roots agree with those in terms of
the leaves, if and only if no split takes apart a loop with an offset. -/
theorem Scheduled.descendsToLeaves_iff (h : Scheduled stage)
    (hfree : ∀ leaf ∈ stage.leaves, stage.threadOf? leaf = none)
    (hlower : stage.lower .empty .standard = .ok lowering) (hwrap : lowering.WrapFree stage)
    (hexact : lowering.DescendsExactly stage) :
    stage.DescendsToLeaves lowering ↔
      ∀ relation ∈ stage.relations, lowering.ranges.box.SplitsAtZero relation := by
  obtain ⟨inferred, indices, known, overruns, hlowers⟩ := h.regular.lowers hlower
  obtain ⟨seed, down, hdescends⟩ := hlowers.descends h.regular
  exact ⟨hlowers.splitsAtZero hdescends h.regular hfree hwrap hexact,
    hlowers.descendsToLeaves hdescends h.regular hfree hwrap hexact⟩

theorem not_descendsToLeaves_of_offsetSplit :
    ∃ lowering, offsetSplit.lower .empty .standard = .ok lowering ∧
      lowering.WrapFree offsetSplit ∧ lowering.DescendsExactly offsetSplit ∧
      ¬ offsetSplit.DescendsToLeaves lowering := by
  obtain ⟨lowering, hlower, hwrap, hexact, hlow⟩ :
      ∃ lowering ∈ (offsetSplit.lower .empty .standard).toOption,
        lowering.WrapFree offsetSplit ∧ lowering.DescendsExactly offsetSplit ∧
          lowering.ranges.box.low ⟨0⟩ = 5 := by
    decide +kernel
  rw [Option.mem_def, toOption_eq_some] at hlower
  refine ⟨lowering, hlower, hwrap, hexact, fun hdescends => ?_⟩
  have hzero : lowering.ranges.box.low ⟨0⟩ = 0 :=
    (scheduled_offsetSplit.descendsToLeaves_iff (by decide) hlower hwrap hexact).mp hdescends
      (.split ⟨0⟩ ⟨1⟩ ⟨2⟩ (.factor (.const .int32 2))) (by decide)
  rw [hlow] at hzero
  cases hzero

end Stage

end LoopNest
