/-
# Guards are exact

Take a scheduled stage, start its roots with literal ranges, index every leaf by its own
variable and generate guards. If nothing wraps on the way, the points of the leaves that
all guards accept are mapped one to one onto the values of the roots: those that lie in
the range the root starts with and below the end of the range it declares. The start of
the declared range is not checked.

Three things come together. The guards keep the parents of loose splits inside, hence
every loop; inside its ranges a point is determined by its roots; and roots inside their
ranges come from a point inside all of them.
-/

import LoopNest.Proofs.Guard.Decidable
import LoopNest.Proofs.Guard.Inversion

namespace LoopNest

namespace Stage

variable {stage : Stage} {supplied : IterMap Range} {inferred : Inference}
  {indices : IterMap Expr} {predicates : List Expr} {point : IterId → Int}

/-- A value that a root may take: it lies in the range that the root starts with, and below
the end of the range that the root declares. -/
def AdmitsRoot (stage : Stage) (supplied : IterMap Range) (root : IterId) (x : Int) : Prop :=
  ∃ iv low extent low' extent', stage.iterVar? root = some iv ∧
    stage.rootRange? supplied root = some (.ofInts low extent) ∧
    iv.declared = some (.ofInts low' extent') ∧ low ≤ x ∧ x < low + extent ∧ x < low' + extent'

/-- The points inside that are accepted are mapped one to one onto the values that the roots
may take. -/
structure GuardsExactly (stage : Stage) (supplied : IterMap Range) (ranges : IterMap Range)
    (indices : IterMap Expr) (predicates : List Expr) : Prop where
  sound : ∀ point, Inside ranges stage.leaves point →
    Accepts predicates (stage.assignmentAt stage.leaves point) → ∀ root ∈ stage.roots,
      ∃ x, indices.HasValue (stage.assignmentAt stage.leaves point) root x ∧ stage.AdmitsRoot supplied root x
  unique : ∀ point point', Inside ranges stage.leaves point →
    Inside ranges stage.leaves point' → Accepts predicates (stage.assignmentAt stage.leaves point) →
    Accepts predicates (stage.assignmentAt stage.leaves point') →
    (∀ root ∈ stage.roots, ∀ x, indices.HasValue (stage.assignmentAt stage.leaves point) root x →
      indices.HasValue (stage.assignmentAt stage.leaves point') root x) →
    ∀ leaf ∈ stage.leaves, point leaf = point' leaf
  onto : ∀ target : IterId → Int,
    (∀ root ∈ stage.roots, stage.AdmitsRoot supplied root (target root)) →
    ∃ point, Inside ranges stage.leaves point ∧
      Accepts predicates (stage.assignmentAt stage.leaves point) ∧
      ∀ root ∈ stage.roots, indices.HasValue (stage.assignmentAt stage.leaves point) root (target root)

/-- The variable of a leaf is a number, and no literal. -/
theorem Regular.hasNumberIndices_leafVariables (h : stage.Regular) (box : Box) :
    stage.HasNumberIndices box stage.leafVariables := by
  intro id _ e he
  rw [leafVariables, IterMap.get?_ofList_filterMap, Option.mem_def,
    Option.ite_none_right_eq_some, Option.map_eq_some_iff] at he
  obtain ⟨-, iv, hiv, rfl⟩ := he
  refine ⟨⟨⟨trivial, trivial⟩, h.dtype_eq hiv⟩, fun x hx => ?_⟩
  cases hx

/-- Whatever has a range is an iteration variable of the stage. -/
theorem Infers.exists_iterVar? (h : stage.Infers supplied inferred) (hregular : stage.Regular)
    (id : IterId) (range : Range) (hrange : inferred.ranges.get? id = some range) :
    ∃ iv, stage.iterVar? id = some iv := by
  rcases h.others hrange with hloop | ⟨leaf, hthread⟩
  · obtain ⟨iv, hiv, -⟩ := mem_loops.mp hloop
    exact ⟨iv, hiv⟩
  · obtain ⟨-, iv, hiv, -⟩ := hregular.threads hthread
    exact ⟨iv, hiv⟩

/-- The leaves have literal ranges. -/
theorem Infers.drivesLiterally (h : stage.Infers supplied inferred) (hregular : stage.Regular)
    (hends : ∀ leaf ∈ stage.leaves, DType.int32.contains
      (inferred.ranges.box.low leaf + inferred.ranges.box.extent leaf) = true) :
    DrivesLiterally inferred.ranges stage.leaves := by
  intro leaf hleaf
  obtain ⟨hget, hlow, -⟩ := h.hasNumbers (hregular.mem_loops_of_mem_leaves hleaf)
  exact ⟨_, _, hget, hlow, hends leaf hleaf⟩

/-- Where the leaves have their values inside, the values of all indices follow the
relations. -/
theorem Indexes.values_follow {leaves : IterMap Expr} {assignment : Assignment}
    {value : IterId → Int}
    (h : stage.Indexes inferred.ranges leaves indices) (hregular : stage.Regular)
    (hsupplied : stage.SuppliesLiterals supplied) (hinfers : stage.Infers supplied inferred)
    (hextents : ∀ relation ∈ stage.relations, inferred.ranges.box.ExtentsFit relation)
    (hexact : indices.IsExact assignment)
    (hleaf : ∀ leaf ∈ stage.leaves, ∃ index, leaves.get? leaf = some index ∧
      index.eval assignment = .ok (value leaf) ∧ inferred.ranges.box.Contains leaf (value leaf)) :
    (∀ leaf ∈ stage.leaves, indices.valueAt assignment leaf = value leaf) ∧
      (∀ id ∈ stage.loops,
        indices.EvaluatesTo .int32 assignment id (indices.valueAt assignment id)) ∧
      ∀ relation ∈ stage.relations,
        inferred.ranges.box.Follows (indices.valueAt assignment) relation := by
  obtain ⟨hreaches, hfollows⟩ := h.follows hregular (hinfers.hasLiteralRanges hregular)
    (hinfers.fits hregular hsupplied hextents) (fun id _ index hindex => hexact id index hindex)
    (fun leaf hid => by
      obtain ⟨index, hindex, hx, hinside⟩ := hleaf leaf hid
      exact ⟨index, value leaf, hindex, hx, hinside⟩)
  refine ⟨fun leaf hid => ?_, fun id hid => ?_, hfollows⟩
  · obtain ⟨index, hindex, hx, -⟩ := hleaf leaf hid
    exact IterMap.valueAt_of_eval ((h.leaves leaf hid).trans hindex) hx
  · obtain ⟨index, x, hindex, hx, -⟩ := hreaches id hid
    refine ⟨index, hindex, (h.number id hid index hindex).1, ?_⟩
    rw [IterMap.valueAt_of_eval hindex hx]
    exact hx

/-- The values of the indices at a point inside. -/
theorem WrapFree.atLeaves (hwrap : stage.WrapFree inferred.ranges stage.leaves indices)
    (h : stage.Regular) (hsupplied : stage.SuppliesLiterals supplied)
    (hinfers : stage.Infers supplied inferred)
    (hindexes : stage.Indexes inferred.ranges stage.leafVariables indices)
    {known : RangedFacts} {overruns : IterMap Bool}
    (hfacts : stage.rangedFacts inferred.ranges (fun _ range => range) = .ok known)
    (hflow : stage.overrunsUp inferred.ranges known.facts stage.leafOverruns = .ok overruns)
    (hknows : stage.Knows inferred.ranges known)
    (hinside : Inside inferred.ranges stage.leaves point) :
    (∀ leaf ∈ stage.leaves,
        indices.valueAt (stage.assignmentAt stage.leaves point) leaf = point leaf) ∧
      GuardContext.AtPoint ⟨stage, inferred.ranges, indices, known⟩ overruns
        (stage.assignmentAt stage.leaves point)
        (indices.valueAt (stage.assignmentAt stage.leaves point)) := by
  have hliteral := hinfers.drivesLiterally h hwrap.ends
  obtain ⟨hvalue, hindices, hfollows⟩ := hindexes.values_follow h hsupplied hinfers hwrap.extents
    (hwrap.exact point hinside) fun leaf hleaf => by
      obtain ⟨iv, hiv, -⟩ := mem_loops.mp (h.mem_loops_of_mem_leaves hleaf)
      exact ⟨iv.expr, get?_leafVariables hleaf hiv, (h.eval_driver hliteral hinside hleaf hiv).2,
        hinside leaf hleaf⟩
  refine ⟨hvalue, hwrap.atPoint h (hinfers.hasLiteralRanges h)
    (hinfers.fits h hsupplied hwrap.extents) (hinfers.product_fits h hsupplied hwrap.extents)
    hfacts hflow hknows hliteral hinside hindices hfollows fun leaf hleaf => ?_⟩
  rw [hvalue leaf hleaf]
  exact hinside leaf hleaf

/-- What the root of a scheduled stage starts with and declares. -/
theorem Infers.admitsRoot_iff (h : stage.Infers supplied inferred) (hregular : stage.Regular)
    (hsupplied : stage.SuppliesLiterals supplied) {root : IterId} (hroot : root ∈ stage.roots)
    {x : Int} :
    stage.AdmitsRoot supplied root x ↔ inferred.ranges.box.Contains root x ∧
      ∀ iv, stage.iterVar? root = some iv → ∀ low extent,
        iv.declared = some (.ofInts low extent) → x < low + extent := by
  obtain ⟨range, low, extent, hrange, hliteral⟩ := hregular.rootRange?_isLiteral hsupplied hroot
  obtain ⟨iv, hiv, declared, hdeclared, low', extent', hliteral'⟩ := hregular.declared root hroot
  rw [hliteral.eq] at hrange
  rw [hliteral'.eq] at hdeclared
  obtain ⟨hlow, hextent⟩ := IterMap.box_of_get? ((h.roots root hroot).trans hrange)
  have hunique : ∀ {a b c d : Int}, some (Range.ofInts a b) = some (Range.ofInts c d) →
      a = c ∧ b = d := fun heq => by simpa [Range.ofInts] using heq
  rw [Box.Contains, hlow, hextent]
  constructor
  · rintro ⟨iv', low₁, extent₁, low₂, extent₂, hiv', hrange', hdeclared', hle, hlt, hlt'⟩
    obtain rfl : iv = iv' := Option.some.inj (hiv.symm.trans hiv')
    obtain ⟨rfl, rfl⟩ := hunique (hrange.symm.trans hrange')
    obtain ⟨rfl, rfl⟩ := hunique (hdeclared.symm.trans hdeclared')
    refine ⟨⟨hle, hlt⟩, fun other hother a b hdecl => ?_⟩
    obtain rfl : iv = other := Option.some.inj (hiv.symm.trans hother)
    obtain ⟨rfl, rfl⟩ := hunique (hdeclared.symm.trans hdecl)
    exact hlt'
  · rintro ⟨⟨hle, hlt⟩, hbelow⟩
    exact ⟨iv, low, extent, low', extent', hiv, hrange, hdeclared, hle, hlt,
      hbelow iv hiv low' extent' hdeclared⟩

/-- Guards that are generated from what does not wrap are exact. -/
theorem WrapFree.guardsExactly (hwrap : stage.WrapFree inferred.ranges stage.leaves indices)
    (h : stage.Regular)
    (hsupplied : stage.SuppliesLiterals supplied) (hinfers : stage.Infers supplied inferred)
    (hindexes : stage.Indexes inferred.ranges stage.leafVariables indices)
    {known : RangedFacts} {overruns : IterMap Bool}
    (hfacts : stage.rangedFacts inferred.ranges (fun _ range => range) = .ok known)
    (hflow : stage.overrunsUp inferred.ranges known.facts stage.leafOverruns = .ok overruns)
    (hknows : stage.Knows inferred.ranges known)
    (hguarding : Guarding ⟨stage, inferred.ranges, indices, known⟩ overruns predicates) :
    stage.GuardsExactly supplied inferred.ranges indices predicates := by
  have hfits := hinfers.fits h hsupplied hwrap.extents
  have hpoint := fun point (hinside : Inside inferred.ranges stage.leaves point) =>
    hwrap.atLeaves h hsupplied hinfers hindexes hfacts hflow hknows hinside
  have hvalue : ∀ {point}, Inside inferred.ranges stage.leaves point → ∀ root ∈ stage.roots,
      indices.HasValue (stage.assignmentAt stage.leaves point) root
        (indices.valueAt (stage.assignmentAt stage.leaves point) root) := by
    intro point hinside root hroot
    obtain ⟨index, hindex, -, hx⟩ :=
      (hpoint point hinside).2.indices root (h.mem_loops_of_mem_roots hroot)
    exact ⟨index, hindex, hx⟩
  refine ⟨fun point hinside haccepts root hroot => ?_,
    fun point point' hinside hinside' haccepts haccepts' hroots leaf hleaf => ?_,
    fun target htarget => ?_⟩
  · obtain ⟨-, hat⟩ := hpoint point hinside
    refine ⟨_, hvalue hinside root hroot, ?_⟩
    rw [hinfers.admitsRoot_iff h hsupplied hroot]
    exact ⟨hat.contains_of_accepts hguarding haccepts root (h.mem_loops_of_mem_roots hroot),
      fun iv hiv low extent hdeclared =>
        hat.lt_declared_of_accepts hguarding haccepts hroot hiv hdeclared⟩
  · obtain ⟨hleaves, hat⟩ := hpoint point hinside
    obtain ⟨hleaves', hat'⟩ := hpoint point' hinside'
    have hdefined : ∀ {id}, id ∈ stage.defined → id ∈ stage.loops := h.mem_defined_iff.mp
    have hsame := hfits.eq_of_roots h.linked hat.follows hat'.follows
      (fun id hid => hat.contains_of_accepts hguarding haccepts id (hdefined hid))
      (fun id hid => hat'.contains_of_accepts hguarding haccepts' id (hdefined hid))
      (fun root hroot => by
        obtain ⟨index, hindex, hx⟩ := hroots root hroot _ (hvalue hinside root hroot)
        exact (IterMap.valueAt_of_eval hindex hx).symm)
    rw [← hleaves leaf hleaf, ← hleaves' leaf hleaf]
    exact hsame leaf (h.linked.mem_defined_of_mem_leaves hleaf)
  · have hadmits := fun root hroot =>
      (hinfers.admitsRoot_iff h hsupplied hroot).mp (htarget root hroot)
    obtain ⟨leaf, hinside, hdetermined⟩ :=
      hfits.exists_leaves h.linked fun root hroot => (hadmits root hroot).1
    obtain ⟨hleaves, hat⟩ := hpoint leaf hinside
    obtain ⟨hcontains, hroots⟩ := hdetermined _ hat.follows hleaves
    refine ⟨leaf, hinside, hat.accepts hguarding (fun id hid =>
      hcontains id (h.mem_defined_iff.mpr hid)) ?_, fun root hroot => ?_⟩
    · intro root hroot iv hiv low extent hdeclared
      rw [hroots root hroot]
      exact (hadmits root hroot).2 iv hiv low extent hdeclared
    · have hat := hvalue hinside root hroot
      rwa [hroots root hroot] at hat

/-- Guards can be generated for every scheduled stage whose roots start with literal ranges,
and where nothing wraps they are exact. -/
theorem Scheduled.guards_exact (h : Scheduled stage) (hsupplied : stage.SuppliesLiterals supplied) :
    ∃ inferred indices predicates, stage.inferAll supplied = .ok inferred ∧
      stage.indicesUp inferred.ranges false stage.leafVariables = .ok indices ∧
      stage.guards inferred.ranges indices .standard = .ok predicates ∧
      (stage.WrapFree inferred.ranges stage.leaves indices →
        stage.GuardsExactly supplied inferred.ranges indices predicates) := by
  have hregular := h.regular
  obtain ⟨inferred, hinferred, hinfers⟩ := hregular.inferAll_ok hsupplied
  obtain ⟨indices, hindices, hindexes⟩ := hregular.indicesUp_ok (hinfers.hasLiteralRanges hregular)
    (hregular.hasNumberIndices_leafVariables _)
    (fun leaf hleaf => by
      obtain ⟨iv, hiv, -⟩ := mem_loops.mp (hregular.mem_loops_of_mem_leaves hleaf)
      rw [get?_leafVariables hleaf hiv]
      rfl)
  obtain ⟨known, overruns, predicates, hfacts, hflow, hguards, hknows, hguarding⟩ :=
    hregular.guards_ok (hinfers.hasLiteralRanges hregular) (hinfers.exists_iterVar? hregular)
      hindexes.loops
  exact ⟨inferred, indices, predicates, hinferred, hindices, hguards, fun hwrap =>
    hwrap.guardsExactly hregular hsupplied hinfers hindexes hfacts hflow hknows hguarding⟩

/-- A root with three values from five on. -/
def offsetRoot : Stage :=
  ((empty "compute" .globalMemory).addRootVar
    ⟨⟨.parameter 0, "i", .int32⟩, some (.ofInts 5 3), .parallel⟩).2

theorem scheduled_offsetRoot : Scheduled offsetRoot :=
  .root ⟨⟨.parameter 0, "i", .int32⟩, some (.ofInts 5 3), .parallel⟩ rfl rfl
    (.inr ⟨⟨0, rfl⟩, nofun⟩) ⟨_, rfl, 5, 3, rfl, by decide, by decide, by decide⟩
    (.empty "compute" .globalMemory)

/-- A root with three values from five on, split by two, which is one iteration too many. -/
def offsetSplit : Stage :=
  match offsetRoot.split ⟨0⟩ (.const .int32 2) with
  | .ok (_, nest) => nest
  | .error _ => offsetRoot

theorem scheduled_offsetSplit : Scheduled offsetSplit :=
  .split ⟨2, rfl, by decide, by decide⟩
    (show offsetRoot.splitBy ⟨0⟩ (.factor (.const .int32 2)) = .ok ((⟨1⟩, ⟨2⟩), offsetSplit)
      from rfl) scheduled_offsetRoot

theorem guards_exact_of_offsetSplit :
    Scheduled offsetSplit ∧ offsetSplit.SuppliesLiterals .empty ∧
      ∃ inferred indices predicates, offsetSplit.inferAll .empty = .ok inferred ∧
        offsetSplit.indicesUp inferred.ranges false offsetSplit.leafVariables = .ok indices ∧
        offsetSplit.guards inferred.ranges indices .standard = .ok predicates ∧
        offsetSplit.GuardsExactly .empty inferred.ranges indices predicates := by
  have hsupplied : offsetSplit.SuppliesLiterals .empty := fun _ _ _ h => nomatch h
  have hwrap : ∀ inferred ∈ (offsetSplit.inferAll .empty).toOption, ∀ indices ∈
      (offsetSplit.indicesUp inferred.ranges false offsetSplit.leafVariables).toOption,
      offsetSplit.WrapFree inferred.ranges offsetSplit.leaves indices := by
    decide +kernel
  obtain ⟨inferred, indices, predicates, hinferred, hindices, hguards, hexact⟩ :=
    scheduled_offsetSplit.guards_exact hsupplied
  exact ⟨scheduled_offsetSplit, hsupplied, inferred, indices, predicates, hinferred, hindices,
    hguards, hexact (hwrap inferred (toOption_eq_some.mpr hinferred) indices
      (toOption_eq_some.mpr hindices))⟩

/-- Two roots over one symbol, which declare ten and four values. The second one is split. -/
def sharedSplit : Stage :=
  let first := ((empty "compute" .globalMemory).addRootVar
    ⟨⟨.parameter 0, "x", .int32⟩, some (.ofInts 0 10), .parallel⟩).2
  let second := (first.addRootVar
    ⟨⟨.parameter 0, "x", .int32⟩, some (.ofInts 0 4), .parallel⟩).2
  match second.split ⟨1⟩ (.const .int32 2) with
  | .ok (_, nest) => nest
  | .error _ => second

/-- The first root starts with twenty values. -/
def twentyValues : IterMap Range :=
  .ofList [(⟨0⟩, .ofInts 0 20)]

/-- Roots must not share a symbol. The range of the second root then counts for the first
one, too, and the guard that keeps the first one below its declared end is left out. -/
theorem guards_miss_shared_symbol :
    ∃ inferred indices predicates, sharedSplit.inferAll twentyValues = .ok inferred ∧
      sharedSplit.indicesUp inferred.ranges false sharedSplit.leafVariables = .ok indices ∧
      sharedSplit.guards inferred.ranges indices .standard = .ok predicates ∧
      sharedSplit.WrapFree inferred.ranges sharedSplit.leaves indices ∧
      ¬ sharedSplit.GuardsExactly twentyValues inferred.ranges indices predicates := by
  let point : IterId → Int := fun id => if id = ⟨0⟩ then 15 else 0
  obtain ⟨inferred, hinferred, indices, hindices, predicates, hguards, hwrap, rfl, hinside,
      hindex⟩ :
      ∃ inferred ∈ (sharedSplit.inferAll twentyValues).toOption,
        ∃ indices ∈
          (sharedSplit.indicesUp inferred.ranges false sharedSplit.leafVariables).toOption,
        ∃ predicates ∈ (sharedSplit.guards inferred.ranges indices .standard).toOption,
        sharedSplit.WrapFree inferred.ranges sharedSplit.leaves indices ∧ predicates = [] ∧
        (∀ leaf ∈ sharedSplit.leaves, inferred.ranges.box.Contains leaf (point leaf)) ∧
        indices.get? ⟨0⟩ = some (.var ⟨.parameter 0, "x", .int32⟩) := by
    decide +kernel
  refine ⟨inferred, indices, [], toOption_eq_some.mp hinferred, toOption_eq_some.mp hindices,
    toOption_eq_some.mp hguards, hwrap, fun hexact => ?_⟩
  obtain ⟨x, ⟨index, hindex', hx⟩, iv, low, extent, low', extent', hiv, -, hdeclared, -, -, hlt⟩ :=
    hexact.sound point hinside nofun ⟨0⟩ (by decide)
  obtain rfl := Option.some.inj (hindex.symm.trans hindex')
  obtain rfl : 15 = x := Except.ok.inj hx
  obtain rfl := Option.some.inj hiv
  obtain ⟨rfl, rfl⟩ : 0 = low' ∧ 10 = extent' := by simpa [Range.ofInts] using hdeclared
  omega

end Stage

end LoopNest
