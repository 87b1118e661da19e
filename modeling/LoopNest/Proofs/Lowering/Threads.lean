/-
# Threads and declared ranges

Lowering a stage gives each thread the range of the leaf that runs on it, and indexes the
leaf by the thread moved to the start of that range. Both together move the leaf twice.
This does no harm to a derived loop, which starts at zero, but the values of a root that
is bound to a thread itself miss its declared range unless that starts at zero, too. In
all other cases the points that the guard admits cover the declared ranges exactly.
-/

import LoopNest.Proofs.Guard.Exact
import LoopNest.Proofs.Lowering.Leaves

namespace LoopNest

namespace Lowering

variable {lowering : Lowering} {assignment : Assignment}

/-- The guard is true, if there is one. -/
def Admits (lowering : Lowering) (assignment : Assignment) : Prop :=
  ∀ guard ∈ lowering.guard?, guard.eval assignment = .ok 1

/-- A conjunction of truth values is true when all of them are. -/
theorem eval_foldl_and {first : Expr} {rest : List Expr} {holds : Bool}
    (hfirst : first.TypedAt .bool) (hvalue : first.eval assignment = .ok (BinaryOp.truth holds))
    (hrest : ∀ p ∈ rest, p.TypedAt .bool ∧
      ∃ holds, p.eval assignment = .ok (BinaryOp.truth holds)) :
    (rest.foldl Expr.and first).eval assignment = .ok 1 ↔
      first.eval assignment = .ok 1 ∧ Accepts rest assignment := by
  induction rest generalizing first holds with
  | nil => simp [Accepts]
  | cons second rest ih =>
      rw [List.forall_mem_cons] at hrest
      obtain ⟨⟨hsecond, other, hother⟩, hrest⟩ := hrest
      have hboth := Expr.eval_and_truth hfirst hsecond hvalue hother
      have htyped : (first.and second).TypedAt .bool :=
        .combine_predicate rfl hfirst.wellTyped hsecond.wellTyped
          (hfirst.dtype_eq.trans hsecond.dtype_eq.symm) fun _ => hfirst.dtype_eq
      rw [List.foldl_cons, ih htyped hboth hrest, hboth, hvalue]
      rw [Accepts, Accepts, List.forall_mem_cons, hother]
      cases holds <;> cases other <;> simp [BinaryOp.truth]

/-- The guard is true when all predicates are. -/
theorem admits_iff (h : ∀ p ∈ lowering.predicates, p.TypedAt .bool ∧
      ∃ holds, p.eval assignment = .ok (BinaryOp.truth holds)) :
    lowering.Admits assignment ↔ Accepts lowering.predicates assignment := by
  rw [Admits, guard?]
  cases hpredicates : lowering.predicates with
  | nil => simp [Accepts]
  | cons first rest =>
      rw [hpredicates, List.forall_mem_cons] at h
      obtain ⟨⟨hfirst, holds, hvalue⟩, hrest⟩ := h
      simp only [Option.mem_def, Option.some.injEq, forall_eq']
      rw [eval_foldl_and hfirst hvalue hrest, Accepts, Accepts, List.forall_mem_cons]

/-- Nothing wraps where indices are built and simplified. -/
structure AnalysesExactly (assignment : Assignment) (facts : Facts) (entries : List LeafIndex)
    (indices : IterMap Expr) : Prop where
  built : indices.IsExact assignment
  assumed : LeafIndex.AssumesExactly assignment facts entries
  simplified : ∀ id index, indices.get? id = some index →
    (LeafIndex.assumeAll facts entries).SimplifiesExactly assignment index

instance (assignment : Assignment) (facts : Facts) (entries : List LeafIndex)
    (indices : IterMap Expr) : Decidable (AnalysesExactly assignment facts entries indices) :=
  decidable_of_iff (indices.IsExact assignment ∧
      LeafIndex.AssumesExactly assignment facts entries ∧ ∀ entry ∈ indices.toList,
        (LeafIndex.assumeAll facts entries).SimplifiesExactly assignment entry.2) <| by
    simp only [Prod.forall, IterMap.mem_toList]
    exact ⟨fun h => ⟨h.1, h.2.1, h.2.2⟩, fun h => ⟨h.built, h.assumed, h.simplified⟩⟩

end Lowering

namespace Stage

variable {stage : Stage} {lowering : Lowering} {supplied : IterMap Range} {policy : GuardPolicy}

/-- The indices of the leaves as the map that reconstruction starts from. -/
def indexMap (entries : List LeafIndex) : IterMap Expr :=
  .ofList (entries.map fun entry => (entry.leaf, entry.index))

/-- What a lowering is made of. -/
theorem lower_inv (h : stage.lower supplied policy = .ok lowering) :
    ∃ inferred entries indices roots down, stage.inferAll supplied = .ok inferred ∧
      stage.leaves.mapM (stage.leafIndex inferred.ranges) = .ok entries ∧
      stage.indicesUp inferred.ranges false (indexMap entries) = .ok indices ∧
      stage.rootIndices = .ok roots ∧ stage.derivableIndicesDown inferred.ranges roots = .ok down ∧
      lowering.ranges = inferred.ranges ∧
      lowering.upIndices =
        indices.map (LeafIndex.assumeAll inferred.facts entries).simplify ∧
      lowering.downIndices = down.map (LeafIndex.assumeAll inferred.facts entries).simplify ∧
      stage.guards lowering.ranges lowering.upIndices policy = .ok lowering.predicates := by
  simp only [lower, bind_eq_ok, mapError_eq_ok] at h
  obtain ⟨-, -, inferred, hinferred, entries, hentries, indices, hindices, roots, hroots, down,
    hdown, predicates, hguards, heq⟩ := h
  obtain rfl := Except.ok.inj heq
  exact ⟨inferred, entries, indices, roots, down, hinferred, hentries, hindices, hroots, hdown,
    rfl, rfl, rfl, hguards⟩

end Stage

/-- Nothing wraps when a stage is lowered: not where the indices are built and simplified, and
not where the guards are generated. -/
structure Lowering.WrapFree (stage : Stage) (lowering : Lowering) : Prop where
  guards : stage.WrapFree lowering.ranges stage.drivers lowering.upIndices
  analysis : ∀ inferred entries indices, stage.inferAll .empty = .ok inferred →
    stage.leaves.mapM (stage.leafIndex inferred.ranges) = .ok entries →
    stage.indicesUp inferred.ranges false (Stage.indexMap entries) = .ok indices →
    ∀ point, Stage.Inside lowering.ranges stage.drivers point →
      AnalysesExactly (stage.assignmentAt stage.drivers point) inferred.facts entries indices

/-- Nothing wraps if nothing does at the listed points. -/
theorem Lowering.wrapFree_iff {stage : Stage} {lowering : Lowering} : lowering.WrapFree stage ↔
    stage.WrapFree lowering.ranges stage.drivers lowering.upIndices ∧
    ∀ inferred ∈ (stage.inferAll .empty).toOption,
      ∀ entries ∈ (stage.leaves.mapM (stage.leafIndex inferred.ranges)).toOption,
        ∀ indices ∈
          (stage.indicesUp inferred.ranges false (Stage.indexMap entries)).toOption,
          ∀ point ∈ lowering.ranges.box.points stage.drivers, AnalysesExactly
            (stage.assignmentAt stage.drivers point) inferred.facts entries indices := by
  simp only [Option.mem_def, toOption_eq_some]
  constructor
  · rintro ⟨hguards, hanalysis⟩
    exact ⟨hguards, fun inferred hinferred entries hentries indices hindices =>
      (Stage.forall_inside_iff (AnalysesExactly · _ entries indices)).mp
        (hanalysis inferred entries indices hinferred hentries hindices)⟩
  · rintro ⟨hguards, hanalysis⟩
    exact ⟨hguards, fun inferred entries indices hinferred hentries hindices =>
      (Stage.forall_inside_iff (AnalysesExactly · _ entries indices)).mpr
        (hanalysis inferred hinferred entries hentries indices hindices)⟩

instance (stage : Stage) (lowering : Lowering) : Decidable (lowering.WrapFree stage) :=
  decidable_of_iff' _ Lowering.wrapFree_iff

namespace Stage

variable {stage : Stage} {lowering : Lowering} {inferred : Inference} {indices : IterMap Expr}
  {known : RangedFacts} {overruns : IterMap Bool} {point : IterId → Int} {leaf : IterId}

/-- What is known about a lowering of a scheduled stage. -/
structure Lowers (stage : Stage) (lowering : Lowering) (inferred : Inference)
    (indices : IterMap Expr) (known : RangedFacts) (overruns : IterMap Bool) : Prop where
  infersAll : stage.inferAll .empty = .ok inferred
  infers : stage.Infers .empty inferred
  entries : stage.leaves.mapM (stage.leafIndex inferred.ranges) =
    .ok (stage.leaves.map (stage.drivenIndex inferred.ranges.box))
  indexes : stage.Indexes inferred.ranges
    (indexMap (stage.leaves.map (stage.drivenIndex inferred.ranges.box))) indices
  ranges : lowering.ranges = inferred.ranges
  upIndices : lowering.upIndices = indices.map (stage.drivenFacts inferred).simplify
  downIndices : ∃ roots down, stage.rootIndices = .ok roots ∧
    stage.derivableIndicesDown inferred.ranges roots = .ok down ∧
    lowering.downIndices = down.map (stage.drivenFacts inferred).simplify
  facts : stage.rangedFacts inferred.ranges (fun _ range => range) = .ok known
  flow : stage.overrunsUp inferred.ranges known.facts stage.leafOverruns = .ok overruns
  knows : stage.Knows inferred.ranges known
  guarding : Guarding ⟨stage, inferred.ranges, lowering.upIndices, known⟩ overruns
    lowering.predicates
  analysis : lowering.WrapFree stage → ∀ point, Inside inferred.ranges stage.drivers point →
    Lowering.AnalysesExactly (stage.assignmentAt stage.drivers point) inferred.facts
      (stage.leaves.map (stage.drivenIndex inferred.ranges.box)) indices

theorem suppliesLiterals_empty (stage : Stage) : stage.SuppliesLiterals .empty :=
  fun _ _ _ h => nomatch h

theorem get?_indexMap (box : Box) (id : IterId) :
    (indexMap (stage.leaves.map (stage.drivenIndex box))).get? id =
      if id ∈ stage.leaves then some (stage.drivenIndex box id).index else none := by
  rw [indexMap, List.map_map]
  exact IterMap.get?_ofList_map _ _ _

/-- A lowering of a scheduled stage is known. -/
theorem Regular.lowers (h : stage.Regular) (hlower : stage.lower .empty .standard = .ok lowering) :
    ∃ inferred indices known overruns,
      stage.Lowers lowering inferred indices known overruns := by
  obtain ⟨inferred, entries, indices, roots, down, hinferred, hentries, hindices, hroots, hdown,
    hranges, hup, hdownIndices, hguards⟩ := lower_inv hlower
  obtain ⟨found, hfound, hinfers⟩ := h.inferAll_ok (suppliesLiterals_empty stage)
  obtain rfl : inferred = found := Except.ok.inj (hinferred.symm.trans hfound)
  have hliteral := hinfers.hasLiteralRanges h
  have hleaves := h.mapM_leafIndex hliteral
  obtain rfl := Except.ok.inj (hentries.symm.trans hleaves)
  have hnumber : stage.HasNumberIndices inferred.ranges.box
      (indexMap (stage.leaves.map (stage.drivenIndex inferred.ranges.box))) := by
    intro id _ e he
    rw [get?_indexMap, Option.mem_def, Option.ite_none_right_eq_some, Option.some.injEq] at he
    obtain ⟨hleaf, rfl⟩ := he
    exact hinfers.typedAt_drivenIndex h hleaf
  obtain ⟨found, hfound, hindexes⟩ := h.indicesUp_ok hliteral hnumber fun leaf hleaf => by
    rw [get?_indexMap, if_pos hleaf]
    rfl
  obtain rfl : indices = found := Except.ok.inj (hindices.symm.trans hfound)
  have hknown : ∀ id ∈ stage.loops, (lowering.upIndices.get? id).isSome := by
    intro id hid
    rw [hup, IterMap.get?_map, Option.isSome_map]
    exact hindexes.loops id hid
  obtain ⟨known, overruns, predicates, hfacts, hflow, hfound, hknows, hguarding⟩ :=
    h.guards_ok hliteral (hinfers.exists_iterVar? h) hknown
  rw [hranges] at hguards
  obtain rfl := Except.ok.inj (hguards.symm.trans hfound)
  exact ⟨inferred, indices, known, overruns, hinferred, hinfers, hleaves, hindexes, hranges, hup,
    ⟨roots, down, hroots, hdown, hdownIndices⟩, hfacts, hflow, hknows, hguarding,
    fun hwrap point hinside =>
      hwrap.analysis inferred _ indices hinferred hentries hindices point (hranges ▸ hinside)⟩

/-- A value in the range that a root declares. -/
def Declares (stage : Stage) (root : IterId) (x : Int) : Prop :=
  ∃ iv low extent, stage.iterVar? root = some iv ∧ iv.declared = some (.ofInts low extent) ∧
    low ≤ x ∧ x < low + extent

/-- The points that the guard admits are mapped onto the declared ranges of the roots: no
index of a root leaves its range, and all of its values are reached. -/
structure CoversDeclared (stage : Stage) (lowering : Lowering) : Prop where
  sound : ∀ point, Inside lowering.ranges stage.drivers point →
    lowering.Admits (stage.assignmentAt stage.drivers point) → ∀ root ∈ stage.roots,
      ∃ x, lowering.upIndices.HasValue (stage.assignmentAt stage.drivers point) root x ∧
        stage.Declares root x
  onto : ∀ target : IterId → Int, (∀ root ∈ stage.roots, stage.Declares root (target root)) →
    ∃ point, Inside lowering.ranges stage.drivers point ∧
      lowering.Admits (stage.assignmentAt stage.drivers point) ∧
      ∀ root ∈ stage.roots,
        lowering.upIndices.HasValue (stage.assignmentAt stage.drivers point) root (target root)

/-- Every root that runs on a thread itself declares a range that starts at zero. -/
def BindsFromZero (stage : Stage) : Prop :=
  ∀ root ∈ stage.roots, root ∈ stage.leaves → (stage.threadOf? root).isSome →
    ∀ iv, stage.iterVar? root = some iv → ∀ low extent,
      iv.declared = some (.ofInts low extent) → low = 0

/-- A root has the range that it declares. -/
theorem Infers.box_root (h : stage.Infers .empty inferred) {root : IterId} {iv : IterVar}
    {low extent : Int} (hroot : root ∈ stage.roots) (hiv : stage.iterVar? root = some iv)
    (hdeclared : iv.declared = some (.ofInts low extent)) :
    inferred.ranges.box.low root = low ∧ inferred.ranges.box.extent root = extent := by
  refine IterMap.box_of_get? ((h.roots root hroot).trans ?_ : _ = some (.ofInts low extent))
  rw [rootRange?, IterMap.get?_empty, hiv, Option.bind_some, hdeclared]

theorem Infers.declares_iff (h : stage.Infers .empty inferred) (hregular : stage.Regular)
    {root : IterId} (hroot : root ∈ stage.roots) {x : Int} :
    stage.Declares root x ↔ inferred.ranges.box.Contains root x := by
  obtain ⟨iv, hiv, range, hdeclared, low, extent, hliteral⟩ := hregular.declared root hroot
  rw [Option.mem_def, hliteral.eq] at hdeclared
  constructor
  · rintro ⟨other, low', extent', hother, hdeclared', hle, hlt⟩
    obtain ⟨hlow, hextent⟩ := h.box_root hroot hother hdeclared'
    rw [Box.Contains, hlow, hextent]
    exact ⟨hle, hlt⟩
  · obtain ⟨hlow, hextent⟩ := h.box_root hroot hiv hdeclared
    rw [Box.Contains, hlow, hextent]
    rintro ⟨hle, hlt⟩
    exact ⟨iv, low, extent, hiv, hdeclared, hle, hlt⟩

namespace Lowers

variable (h : stage.Lowers lowering inferred indices known overruns)
include h

/-- Leaves are not moved if bound roots start at zero, for all other loops do anyway. -/
theorem shift_eq_zero (hregular : stage.Regular) (hzero : stage.BindsFromZero)
    (hleaf : leaf ∈ stage.leaves) : stage.shift inferred.ranges.box leaf = 0 := by
  rw [shift]
  split
  · rename_i hbound
    rcases List.mem_append.mp (hregular.origin.symm.subset
      (hregular.mem_loops_of_mem_leaves hleaf)) with hroot | hmade
    · obtain ⟨iv, hiv, range, hdeclared, low, extent, hliteral⟩ := hregular.declared leaf hroot
      rw [Option.mem_def, hliteral.eq] at hdeclared
      rw [(h.infers.box_root hroot hiv hdeclared).1]
      exact hzero leaf hroot hleaf hbound iv hiv low extent hdeclared
    · obtain ⟨relation, hrelation, houtput⟩ := List.mem_flatMap.mp hmade
      exact (h.infers.hasLiteralRanges hregular).made relation hrelation leaf houtput
  · rfl

variable (hwrap : lowering.WrapFree stage)
variable (hinside : Inside inferred.ranges stage.drivers point)
include hwrap

theorem drivers_literal (hregular : stage.Regular) :
    DrivesLiterally inferred.ranges stage.drivers :=
  h.infers.drivers_literal hregular fun id hid => h.ranges ▸ hwrap.guards.ends id hid

include hinside

/-- Simplified indices keep their values. -/
theorem eval_upIndices (hregular : stage.Regular) {id : IterId} {x : Int}
    (hx : indices.EvaluatesTo .int32 (stage.assignmentAt stage.drivers point) id x) :
    lowering.upIndices.EvaluatesTo .int32 (stage.assignmentAt stage.drivers point) id x := by
  obtain ⟨index, hindex, htyped, hx⟩ := hx
  obtain ⟨-, hassumed, hsimplified⟩ := h.analysis hwrap point hinside
  have hrespects := h.infers.drivenFacts_respects hregular (h.drivers_literal hwrap hregular)
    hinside (fun leaf hleaf => List.mem_map_of_mem hleaf) hassumed
  refine ⟨_, ?_, htyped.dtype_eq ▸ Facts.typedAt_simplify _ htyped.wellTyped,
    hrespects.eval_simplify htyped.wellTyped (hsimplified id index hindex) hx⟩
  rw [h.upIndices, IterMap.get?_map, hindex, Option.map_some]

/-- The indices at a point inside, when no leaf is moved. -/
theorem atPoint (hregular : stage.Regular) (hzero : stage.BindsFromZero) :
    (∀ leaf ∈ stage.leaves, indices.valueAt (stage.assignmentAt stage.drivers point) leaf =
        point (stage.driver leaf)) ∧
      GuardContext.AtPoint ⟨stage, inferred.ranges, lowering.upIndices, known⟩ overruns
        (stage.assignmentAt stage.drivers point)
        (indices.valueAt (stage.assignmentAt stage.drivers point)) := by
  have hliteral := h.drivers_literal hwrap hregular
  have hsupplied := suppliesLiterals_empty stage
  have hguards := hwrap.guards
  rw [h.ranges] at hguards
  have hcontains : ∀ leaf ∈ stage.leaves,
      inferred.ranges.box.Contains leaf (point (stage.driver leaf)) := by
    intro leaf hleaf
    have hdriver := hinside _ (List.mem_map_of_mem hleaf)
    rwa [Box.Contains, (h.infers.box_driver leaf).1, (h.infers.box_driver leaf).2] at hdriver
  obtain ⟨hvalue, hindices, hfollows⟩ := h.indexes.values_follow hregular hsupplied h.infers
    hguards.extents (h.analysis hwrap point hinside).built fun leaf hleaf => by
      refine ⟨_, (get?_indexMap _ leaf).trans (if_pos hleaf), ?_, hcontains leaf hleaf⟩
      rw [h.infers.eval_drivenIndex hregular hliteral hinside hleaf (List.mem_map_of_mem hleaf),
        h.shift_eq_zero hregular hzero hleaf, add_zero, DType.truncate_of_contains
          (hliteral.contains hinside (List.mem_map_of_mem hleaf))]
  refine ⟨hvalue, hguards.atPoint hregular (h.infers.hasLiteralRanges hregular)
    (h.infers.fits hregular hsupplied hguards.extents)
    (h.infers.product_fits hregular hsupplied hguards.extents) h.facts h.flow h.knows hliteral
    hinside (fun id hid => h.eval_upIndices hwrap hinside hregular (hindices id hid)) hfollows
    fun leaf hleaf => ?_⟩
  rw [hvalue leaf hleaf]
  exact hcontains leaf hleaf

end Lowers

/-- The value that a literal range misses when it is moved by its start: the first one if the
start is positive and the last one if it is negative. -/
def missedValue (low extent : Int) : Int :=
  if 0 < low then low else low + extent - 1

theorem truncate_add_ne_missedValue {low extent x : Int} (hne : low ≠ 0)
    (hextent : DType.int32.contains extent = true) (hx : DType.int32.contains x = true)
    (hle : low ≤ x) (hlt : x < low + extent) :
    DType.int32.truncate (x + low) ≠ missedValue low extent := by
  intro heq
  have hmod := DType.truncate_modEq (show DType.int32 ≠ .bool from nofun) (x + low)
  rw [heq, Int.ModEq, DType.modulus, missedValue] at hmod
  rw [DType.contains_iff, DType.minValue, DType.maxValue] at hextent hx
  split at hmod <;> omega

namespace Lowers

variable (h : stage.Lowers lowering inferred indices known overruns)
variable (hwrap : lowering.WrapFree stage) (hregular : stage.Regular)
include h hwrap hregular

/-- The guard is true where all predicates are. -/
theorem admits_iff (hzero : stage.BindsFromZero)
    (hinside : Inside inferred.ranges stage.drivers point) :
    lowering.Admits (stage.assignmentAt stage.drivers point) ↔
      Accepts lowering.predicates (stage.assignmentAt stage.drivers point) := by
  refine Lowering.admits_iff fun p hp => ?_
  obtain ⟨_, _, _, _, htyped, hx⟩ :=
    (h.atPoint hwrap hinside hregular hzero).2.eval_of_mem h.guarding hp
  exact ⟨htyped, _, hx⟩

/-- If bound roots start at zero, the declared ranges are covered. -/
theorem covers (hzero : stage.BindsFromZero) : stage.CoversDeclared lowering := by
  have hguards := hwrap.guards
  rw [h.ranges] at hguards
  have hfits := h.infers.fits hregular (suppliesLiterals_empty stage) hguards.extents
  have hpoint := fun point (hinside : Inside inferred.ranges stage.drivers point) =>
    h.atPoint hwrap hinside hregular hzero
  have hvalue : ∀ {point}, Inside inferred.ranges stage.drivers point → ∀ root ∈ stage.roots,
      lowering.upIndices.HasValue (stage.assignmentAt stage.drivers point) root
        (indices.valueAt (stage.assignmentAt stage.drivers point) root) := by
    intro point hinside root hroot
    obtain ⟨index, hindex, -, hx⟩ :=
      (hpoint point hinside).2.indices root (hregular.mem_loops_of_mem_roots hroot)
    exact ⟨index, hindex, hx⟩
  refine ⟨fun point hinside hadmitted root hroot => ?_, fun target htarget => ?_⟩
  · rw [h.ranges] at hinside
    obtain ⟨-, hat⟩ := hpoint point hinside
    refine ⟨_, hvalue hinside root hroot, (h.infers.declares_iff hregular hroot).mpr ?_⟩
    have haccepts := (h.admits_iff hwrap hregular hzero hinside).mp hadmitted
    exact hat.contains_of_accepts h.guarding haccepts root (hregular.mem_loops_of_mem_roots hroot)
  · obtain ⟨leafValue, hleaves, hdetermined⟩ := hfits.exists_leaves hregular.linked
      fun root hroot => (h.infers.declares_iff hregular hroot).mp (htarget root hroot)
    let point : IterId → Int :=
      leafValue ∘ Function.invFunOn stage.driver {leaf | leaf ∈ stage.leaves}
    have hdriven : ∀ leaf ∈ stage.leaves, point (stage.driver leaf) = leafValue leaf :=
      fun leaf hleaf => congrArg leafValue (hregular.driver_injOn.leftInvOn_invFunOn hleaf)
    have hinside : Inside inferred.ranges stage.drivers point := by
      intro id hid
      obtain ⟨leaf, hleaf, rfl⟩ := List.mem_map.mp hid
      rw [hdriven leaf hleaf, Box.Contains, (h.infers.box_driver leaf).1,
        (h.infers.box_driver leaf).2]
      exact hleaves leaf hleaf
    obtain ⟨hvalues, hat⟩ := hpoint point hinside
    obtain ⟨hcontains, hroots⟩ := hdetermined _ hat.follows fun leaf hleaf =>
      (hvalues leaf hleaf).trans (hdriven leaf hleaf)
    refine ⟨point, h.ranges ▸ hinside, (h.admits_iff hwrap hregular hzero hinside).mpr ?_,
      fun root hroot => ?_⟩
    · refine hat.accepts h.guarding (fun id hid => hcontains id (hregular.mem_defined_iff.mpr hid))
        fun root hroot iv hiv low extent hdeclared => ?_
      obtain ⟨hlow, hextent⟩ := h.infers.box_root hroot hiv hdeclared
      rw [← hlow, ← hextent]
      exact (hcontains root (mem_defined_of_mem_roots hroot)).2
    · have hroot' := hvalue hinside root hroot
      rwa [hroots root hroot] at hroot'

/-- If the declared ranges are covered, bound roots start at zero. The index of a root that
runs on a thread itself is the value of the thread moved once more, so it misses a value. -/
theorem bindsFromZero (hcovers : stage.CoversDeclared lowering) : stage.BindsFromZero := by
  intro root hroot hleaf hbound iv hiv low extent hdeclared
  by_contra hne
  have hguards := hwrap.guards
  rw [h.ranges] at hguards
  have hpositive := h.infers.positive hregular (suppliesLiterals_empty stage) hguards.extents
  obtain ⟨hlow, hextent⟩ := h.infers.box_root hroot hiv hdeclared
  have hloop := hregular.mem_loops_of_mem_roots hroot
  have hpos := hpositive root hloop
  rw [hextent] at hpos
  obtain ⟨point, hinside, -, hroots⟩ := hcovers.onto
    (fun id => if id = root then missedValue low extent else inferred.ranges.box.low id)
    fun id hid => by
      rw [h.infers.declares_iff hregular hid, Box.Contains]
      split
      · rename_i hsame
        rw [hsame, hlow, hextent, missedValue]
        split <;> omega
      · have hpos := hpositive id (hregular.mem_loops_of_mem_roots hid)
        omega
  rw [h.ranges] at hinside
  have hliteral := h.drivers_literal hwrap hregular
  have hdriver : stage.driver root ∈ stage.drivers := List.mem_map_of_mem hleaf
  obtain ⟨hle, hlt⟩ := hinside _ hdriver
  rw [(h.infers.box_driver root).1, hlow] at hle hlt
  rw [(h.infers.box_driver root).2, hextent] at hlt
  have hshift : stage.shift inferred.ranges.box root = low := by
    rw [shift, if_pos hbound, hlow]
  obtain ⟨simplified, hsimplified, -, hvalue⟩ := h.eval_upIndices hwrap hinside hregular
    ⟨_, (h.indexes.leaves root hleaf).trans ((get?_indexMap _ root).trans (if_pos hleaf)),
      (h.infers.typedAt_drivenIndex hregular hleaf).1,
      h.infers.eval_drivenIndex hregular hliteral hinside hleaf hdriver⟩
  obtain ⟨index, hindex, hx⟩ := hroots root hroot
  obtain rfl := Option.some.inj (hindex.symm.trans hsimplified)
  rw [if_pos rfl, hvalue, Except.ok.injEq, hshift] at hx
  obtain ⟨-, -, hcontains⟩ := h.infers.hasNumbers hloop
  rw [hextent] at hcontains
  exact truncate_add_ne_missedValue hne hcontains (hliteral.contains hinside hdriver) hle hlt hx

end Lowers

/-- Lowering a stage covers the declared ranges exactly, just when every root that runs on a
thread itself declares a range that starts at zero. -/
theorem Scheduled.lowering_covers_iff (h : Scheduled stage)
    (hlower : stage.lower .empty .standard = .ok lowering) (hwrap : lowering.WrapFree stage) :
    stage.CoversDeclared lowering ↔ stage.BindsFromZero := by
  obtain ⟨inferred, indices, known, overruns, hlowers⟩ := h.regular.lowers hlower
  exact ⟨hlowers.bindsFromZero hwrap h.regular, hlowers.covers hwrap h.regular⟩

/-- A root with three values from five on that runs on a thread itself. -/
def offsetThread : Stage :=
  match offsetRoot.bindThread ⟨0⟩ "threadIdx.x" with
  | .ok (_, nest) => nest
  | .error _ => offsetRoot

theorem scheduled_offsetThread : Scheduled offsetThread :=
  .bind (by decide)
    (show offsetRoot.bindThread ⟨0⟩ "threadIdx.x" = .ok (⟨1⟩, offsetThread) from rfl)
    scheduled_offsetRoot

/-- The same root split by two, with the inner loop on a thread. -/
def innerThread : Stage :=
  match offsetSplit.bindThread ⟨2⟩ "threadIdx.x" with
  | .ok (_, nest) => nest
  | .error _ => offsetSplit

theorem scheduled_innerThread : Scheduled innerThread :=
  .bind (by decide)
    (show offsetSplit.bindThread ⟨2⟩ "threadIdx.x" = .ok (⟨3⟩, innerThread) from rfl)
    scheduled_offsetSplit

theorem lowering_covers_iff_of_offsetThread :
    (∃ lowering, offsetThread.lower .empty .standard = .ok lowering ∧
      lowering.WrapFree offsetThread ∧ ¬ offsetThread.CoversDeclared lowering) ∧
    ∃ lowering, innerThread.lower .empty .standard = .ok lowering ∧
      lowering.WrapFree innerThread ∧ innerThread.CoversDeclared lowering := by
  obtain ⟨lowering, hlower, hwrap⟩ :
      ∃ lowering ∈ (offsetThread.lower .empty .standard).toOption,
        lowering.WrapFree offsetThread := by
    decide +kernel
  obtain ⟨lowering', hlower', hwrap'⟩ :
      ∃ lowering ∈ (innerThread.lower .empty .standard).toOption,
        lowering.WrapFree innerThread := by
    decide +kernel
  rw [Option.mem_def, toOption_eq_some] at hlower hlower'
  refine ⟨⟨lowering, hlower, hwrap, ?_⟩, lowering', hlower', hwrap', ?_⟩
  · rw [scheduled_offsetThread.lowering_covers_iff hlower hwrap]
    intro hzero
    exact absurd (hzero ⟨0⟩ (by decide) (by decide) (by decide) _ rfl 5 3 rfl) (by decide)
  · rw [scheduled_innerThread.lowering_covers_iff hlower' hwrap']
    intro root hroot hleaf
    have hnone : ∀ root ∈ innerThread.roots, root ∉ innerThread.leaves := by decide
    exact absurd hleaf (hnone root hroot)

end Stage

end LoopNest
