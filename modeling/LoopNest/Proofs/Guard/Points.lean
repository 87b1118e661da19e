/-
# Guards at a point

Some iteration variables drive a nest: the leaves, or the threads that leaves run on.
Giving each of them a value inside its range makes a point. At a point where nothing
wraps, a guard is true just when the index that it is about stays below the end of
the range, and a guard that was left out would have been true.
-/

import LoopNest.Proofs.Guard.Predicates

namespace LoopNest

namespace Stage

variable {stage : Stage} {drivers : List IterId} {point : IterId → Int} {id : IterId}
  {iv : IterVar} {ranges : IterMap Range} {known : RangedFacts}

/-- The assignment that gives the variables of some drivers their values at a point, and
nothing else a value. -/
def assignmentAt (stage : Stage) (drivers : List IterId) (point : IterId → Int) : Assignment :=
  fun v => (drivers.find? fun id => (stage.iterVar? id).any fun iv => decide (iv.var = v)).map point

/-- Only the values of the drivers count. -/
theorem assignmentAt_congr {point' : IterId → Int} (h : ∀ id ∈ drivers, point id = point' id) :
    stage.assignmentAt drivers point = stage.assignmentAt drivers point' := by
  funext v
  exact Option.map_congr fun id hid => h id (List.mem_of_find?_eq_some hid)

theorem assignmentAt_eq_some {v : Var} {x : Int} (h : stage.assignmentAt drivers point v = some x) :
    ∃ id ∈ drivers, ∃ iv, stage.iterVar? id = some iv ∧ iv.var = v ∧ point id = x := by
  obtain ⟨id, hfound, rfl⟩ := Option.map_eq_some_iff.mp h
  have htest := List.find?_some hfound
  rw [Option.any_eq_true] at htest
  obtain ⟨iv, hiv, hvar⟩ := htest
  exact ⟨id, List.mem_of_find?_eq_some hfound, iv, hiv, of_decide_eq_true hvar, rfl⟩

/-- A driver has its value at the point, since no other variable has its symbol. -/
theorem Regular.assignmentAt_driver (h : stage.Regular) (hid : id ∈ drivers)
    (hiv : stage.iterVar? id = some iv) :
    stage.assignmentAt drivers point iv.var = some (point id) := by
  have hfound : drivers.find? (fun id => (stage.iterVar? id).any fun other =>
      decide (other.var = iv.var)) = some id := by
    obtain ⟨found, hfound⟩ : ∃ found, drivers.find? (fun id => (stage.iterVar? id).any
        fun other => decide (other.var = iv.var)) = some found := by
      rw [← Option.isSome_iff_exists, List.find?_isSome]
      exact ⟨id, hid, by simp [hiv]⟩
    have htest := List.find?_some hfound
    rw [Option.any_eq_true] at htest
    obtain ⟨other, hother, hvar⟩ := htest
    rw [hfound, h.eq_of_var_eq hother hiv (of_decide_eq_true hvar)]
  rw [assignmentAt, hfound, Option.map_some]

/-- Every driver has a value in its range. -/
def Inside (ranges : IterMap Range) (drivers : List IterId) (point : IterId → Int) : Prop :=
  ∀ id ∈ drivers, ranges.box.Contains id (point id)

/-- Every driver has a literal range whose end fits. -/
def DrivesLiterally (ranges : IterMap Range) (drivers : List IterId) : Prop :=
  ∀ id ∈ drivers, ∃ low extent, ranges.get? id = some (.ofInts low extent) ∧
    DType.int32.contains low = true ∧ DType.int32.contains (low + extent) = true

end Stage

theorem Range.stop_ofInts {low extent : Int} (hend : DType.int32.contains (low + extent) = true) :
    (ofInts low extent).stop = .const .int32 (low + extent) :=
  show (Expr.const .int32 low).add (.const .int32 extent) = _ from
    Expr.combine_const_of_contains rfl rfl hend

namespace ValueSet

variable {low extent x : Int}

/-- A literal range is the set from its start to its last value. -/
theorem ofRange_ofInts (hlow : DType.int32.contains low = true)
    (hend : DType.int32.contains (low + extent) = true) (hpositive : 1 ≤ extent) :
    ofRange (.ofInts low extent) =
      between (.const .int32 low) (.const .int32 (low + extent - 1)) := by
  have hcontains : DType.int32.contains (low + extent - 1) = true :=
    DType.contains_of_between hlow hend (by omega) (by omega)
  have hlast : (Expr.const .int32 (low + extent)).sub (.one .int32) =
      .const .int32 (low + extent - 1) :=
    Expr.combine_const_of_contains rfl rfl hcontains
  rw [ofRange, Range.last, Range.stop_ofInts hend, Range.ofInts, Expr.dtype, hlast]

theorem covers_ofRange (hlow : DType.int32.contains low = true)
    (hend : DType.int32.contains (low + extent) = true) (hx : low ≤ x) (hx' : x < low + extent) :
    (ofRange (.ofInts low extent)).Covers .int32 x := by
  rw [ofRange_ofInts hlow hend (by omega)]
  exact covers_between hlow (DType.contains_of_between hlow hend (by omega) (by omega)) hx
    (by omega)

end ValueSet

namespace Stage

variable {stage : Stage} {drivers : List IterId} {point : IterId → Int} {id : IterId}
  {iv : IterVar} {ranges : IterMap Range} {known : RangedFacts}

/-- The sets of the drivers cover a point inside. -/
theorem Knows.cover (hknows : stage.Knows ranges known) (h : stage.Regular)
    (hliteral : DrivesLiterally ranges drivers) (hinside : Inside ranges drivers point) :
    known.domains.Cover (stage.assignmentAt drivers point) := by
  intro v x hx
  cases hassigned : stage.assignmentAt drivers point v with
  | none => simp [Expr.eval_var, hassigned] at hx
  | some y =>
      obtain ⟨id, hid, iv, hiv, rfl, rfl⟩ := assignmentAt_eq_some hassigned
      obtain ⟨low, extent, hrange, hlow, hend⟩ := hliteral id hid
      obtain ⟨hle, hlt⟩ := hinside id hid
      rw [(IterMap.box_of_get? hrange).1] at hle hlt
      rw [(IterMap.box_of_get? hrange).2] at hlt
      have hdtype : iv.var.dtype = .int32 := h.dtype_eq hiv
      have hcontains := DType.contains_of_between hlow hend hle hlt.le
      rw [Expr.eval_var_of_contains hassigned (hdtype ▸ hcontains), Except.ok.injEq] at hx
      rw [hdtype, ← hx]
      exact ⟨_, hknows.domains hiv hrange, ValueSet.covers_ofRange hlow hend hle hlt⟩

/-- The value of a driver fits. -/
theorem DrivesLiterally.contains (h : DrivesLiterally ranges drivers)
    (hinside : Inside ranges drivers point) (hid : id ∈ drivers) :
    DType.int32.contains (point id) = true := by
  obtain ⟨low, extent, hrange, hlow, hend⟩ := h id hid
  obtain ⟨hle, hlt⟩ := hinside id hid
  rw [(IterMap.box_of_get? hrange).1] at hle hlt
  rw [(IterMap.box_of_get? hrange).2] at hlt
  exact DType.contains_of_between hlow hend hle hlt.le

/-- A driver is a number that evaluates to its value. -/
theorem Regular.eval_driver (h : stage.Regular) (hliteral : DrivesLiterally ranges drivers)
    (hinside : Inside ranges drivers point)
    (hid : id ∈ drivers) (hiv : stage.iterVar? id = some iv) :
    iv.expr.TypedAt .int32 ∧
      iv.expr.eval (stage.assignmentAt drivers point) = .ok (point id) := by
  have hdtype : iv.var.dtype = .int32 := h.dtype_eq hiv
  refine ⟨⟨⟨trivial, trivial⟩, hdtype⟩, ?_⟩
  exact Expr.eval_var_of_contains (h.assignmentAt_driver hid hiv)
    (hdtype ▸ hliteral.contains hinside hid)

end Stage

/-- All guards are true. -/
def Accepts (predicates : List Expr) (assignment : Assignment) : Prop :=
  ∀ p ∈ predicates, p.eval assignment = .ok 1

section Guard

variable {index : Expr} {low extent x : Int} {assignment : Assignment}

/-- A comparison with a literal of the same type. -/
theorem Expr.eval_lt_const (htyped : index.TypedAt .int32)
    (hextent : DType.int32.contains extent = true) (hx : index.eval assignment = .ok x) :
    (index.lt (.const .int32 extent)).eval assignment =
      .ok (BinaryOp.truth (decide (x < extent))) := by
  apply eval_combine htyped.wellTyped.formed (typedAt_const hextent).wellTyped.formed
    htyped.dtype_eq (fun hlogical => by cases hlogical)
  rw [eval_binary_of_eval hx (eval_const_of_contains hextent) rfl]
  rw [dtype, BinaryOp.isPredicate]
  cases decide (x < extent) <;> rfl

/-- A guard compares the distance from the start of the range with the extent. -/
theorem Expr.eval_guard (htyped : index.TypedAt .int32)
    (hlow : DType.int32.contains low = true) (hextent : DType.int32.contains extent = true)
    (hx : index.eval assignment = .ok x) (hcontains : DType.int32.contains (x - low) = true) :
    ((index.sub (.const .int32 low)).lt (.const .int32 extent)).eval assignment =
      .ok (BinaryOp.truth (decide (x - low < extent))) := by
  refine eval_lt_const (htyped.combine rfl (typedAt_const hlow)) hextent ?_
  exact eval_combine_of_contains rfl htyped (typedAt_const hlow) hx (eval_const_of_contains hlow)
    rfl hcontains

namespace GuardContext

variable {context : GuardContext} {predicates : List Expr} {id : IterId} {overruns : IterMap Bool}

/-- Nothing wraps where the distance of an index from the start of a range is computed: not
at a point, and not in the analysis of the distance. -/
structure DistanceFits (context : GuardContext) (assignment : Assignment) (index : Expr)
    (range : Range) : Prop where
  bare : (Expr.binary .sub index range.min).Exact assignment
  built : (index.sub range.min).Exact assignment
  analysed : context.known.facts.EndsWithin context.known.domains (index.sub range.min)

/-- Nothing wraps in any of the distances that guards are about. -/
def DistancesFit (context : GuardContext) (overruns : IterMap Bool) (assignment : Assignment) :
    Prop :=
  ∀ id range index, context.Decides overruns id range → context.indices.get? id = some index →
    context.DistanceFits assignment index range

/-- What provably stays below an extent does. -/
theorem lt_of_provablyBelow {value : Expr} (hfree : context.known.facts.Consistent)
    (hunshaped : context.stage.shape = none)
    (hcover : context.known.domains.Cover assignment) (htyped : value.TypedAt .int32)
    (hexact : value.Exact assignment)
    (hends : context.known.facts.EndsWithin context.known.domains value)
    (hx : value.eval assignment = .ok x)
    (hbelow : context.provablyBelow value (.const .int32 extent) = .ok true) : x < extent := by
  have hworkloads : context.stage.workloads = [] := by rw [Stage.workloads, hunshaped]
  have hcovers := Facts.values_covers hfree hcover htyped.wellTyped.formed hexact hends hx
  rw [htyped.dtype_eq] at hcovers
  unfold provablyBelow at hbelow
  split at hbelow
  · cases hbelow
  · rename_i greatest hgreatest
    obtain ⟨u, rfl, -, hle⟩ := hcovers.high greatest hgreatest
    split at hbelow
    · cases hbelow
    · rw [hworkloads] at hbelow
      have hproves := Except.ok.inj hbelow
      rw [Facts.proves_lt hfree, decide_eq_true_eq] at hproves
      exact hle.trans_lt hproves

/-- An index that is settled stays below the end of the range where all guards are true. -/
theorem Settles.lt_of_accepts (h : context.Settles predicates id (.ofInts low extent))
    (hindex : context.indices.get? id = some index) (htyped : index.TypedAt .int32)
    (hlow : DType.int32.contains low = true) (hextent : DType.int32.contains extent = true)
    (hfree : context.known.facts.constraints = [])
    (hunshaped : context.stage.shape = none)
    (hcover : context.known.domains.Cover assignment)
    (hfits : context.DistanceFits assignment index (.ofInts low extent))
    (hx : index.eval assignment = .ok x) (haccepts : Accepts predicates assignment) :
    x < low + extent := by
  obtain ⟨found, hfound, hsettled⟩ := h
  obtain rfl : index = found := Option.some.inj (hindex.symm.trans hfound)
  have hcontains := hfits.bare.contains_of_binary rfl htyped hx
    (Expr.eval_const_of_contains hlow) rfl
  have hlt : x - low < extent := by
    rcases hsettled with hguard | hbelow
    · have hvalue := haccepts _ hguard
      rw [Range.ofInts, Expr.eval_guard htyped hlow hextent hx hcontains, Except.ok.injEq] at hvalue
      by_contra hge
      rw [decide_eq_false hge] at hvalue
      cases hvalue
    · exact lt_of_provablyBelow (Facts.consistent_of_unconstrained hfree) hunshaped hcover
        (htyped.combine rfl (Expr.typedAt_const hlow)) hfits.built hfits.analysed
        (Expr.eval_combine_of_contains rfl htyped (Expr.typedAt_const hlow) hx
          (Expr.eval_const_of_contains hlow) rfl hcontains) hbelow
  omega

/-- A point at which nothing wraps: all indices have values, these follow the relations, and
the leaves stay inside their ranges. -/
structure AtPoint (context : GuardContext) (overruns : IterMap Bool) (assignment : Assignment)
    (value : IterId → Int) : Prop where
  regular : context.stage.Regular
  literal : context.stage.HasLiteralRanges .int32 context.ranges
  fits : context.ranges.box.Fits context.stage
  products : ∀ relation ∈ context.stage.relations, context.ranges.box.ProductFits .int32 relation
  unconstrained : context.known.facts.constraints = []
  cover : context.known.domains.Cover assignment
  indices : ∀ id ∈ context.stage.loops,
    context.indices.EvaluatesTo .int32 assignment id (value id)
  follows : ∀ relation ∈ context.stage.relations, context.ranges.box.Follows value relation
  leaves : ∀ leaf ∈ context.stage.leaves, context.ranges.box.Contains leaf (value leaf)
  distances : context.DistancesFit overruns assignment

variable {value : IterId → Int} {range : Range} {root : IterId} {iv : IterVar}

/-- The ranges that guards are about are literal. -/
theorem Decides.literal (h : context.Decides overruns id range) (hregular : context.stage.Regular)
    (hliteral : context.stage.HasLiteralRanges .int32 context.ranges) :
    id ∈ context.stage.loops ∧ ∃ low extent, range = .ofInts low extent ∧
      DType.int32.contains low = true ∧ DType.int32.contains extent = true := by
  cases h with
  | inferred hloop _ hrange =>
      obtain ⟨hget, hlow, hextent⟩ := hliteral.loops id (hregular.mem_defined_iff.mpr hloop)
      exact ⟨hloop, _, _, Option.some.inj (hrange.symm.trans hget), hlow, hextent⟩
  | declared hroot iv _ hiv hdeclared _ _ =>
      obtain ⟨other, hother, declared, hdeclared', low, extent, hrange⟩ :=
        hregular.declared id hroot
      obtain rfl : iv = other := Option.some.inj (hiv.symm.trans hother)
      obtain rfl : range = declared := Option.some.inj (hdeclared.symm.trans hdeclared')
      exact ⟨hregular.mem_loops_of_mem_roots hroot, low, extent, hrange.eq, hrange.low_contains,
        hrange.extent_contains⟩

/-- Where all guards are true, an index that is decided stays below the end of the range. -/
theorem AtPoint.lt_of_decides (h : context.AtPoint overruns assignment value)
    (hguarding : Stage.Guarding context overruns predicates)
    (haccepts : Accepts predicates assignment)
    (hdecides : context.Decides overruns id (.ofInts low extent)) : value id < low + extent := by
  obtain ⟨hloop, low', extent', heq, hlow, hextent⟩ := hdecides.literal h.regular h.literal
  obtain ⟨rfl, rfl⟩ : low = low' ∧ extent = extent' := by simpa [Range.ofInts] using heq
  obtain ⟨index, hindex, htyped, hx⟩ := h.indices id hloop
  exact (hguarding.settled hdecides).lt_of_accepts hindex htyped hlow hextent h.unconstrained
    h.regular.unshaped h.cover (h.distances _ _ _ hdecides hindex) hx haccepts

/-- Where all guards are true, every loop stays inside its inferred range. Only the parent of
a loose split could leave it, and that is guarded. -/
theorem AtPoint.contains_of_accepts (h : context.AtPoint overruns assignment value)
    (hguarding : Stage.Guarding context overruns predicates)
    (haccepts : Accepts predicates assignment) :
    ∀ id ∈ context.stage.loops, context.ranges.box.Contains id (value id) := by
  refine fun id hid => h.fits.contains_of_leaves h.regular.linked h.follows
    (fun relation hrelation hloose id hid => ?_) h.leaves id (h.regular.mem_defined_iff.mpr hid)
  have hloop := h.regular.mem_loops_of_mem_inputs hrelation hid
  exact h.lt_of_decides hguarding haccepts
    (.inferred hloop
      (hguarding.loose relation hrelation (h.products relation hrelation) hloose id hid)
      (h.literal.loops id (h.regular.mem_defined_iff.mpr hloop)).get?)

/-- Literal ranges that are provably the same are the same. -/
theorem eq_of_sameRange {low' extent' : Int} (hfree : context.known.facts.constraints = [])
    (hsame : context.sameRange (.ofInts low extent) (.ofInts low' extent') = true) :
    low = low' ∧ extent = extent' := by
  have hconsistent := Facts.consistent_of_unconstrained hfree
  rw [sameRange, Range.ofInts, Range.ofInts, Facts.proves_eq hconsistent,
    Facts.proves_eq hconsistent] at hsame
  simpa using hsame

/-- Where all guards are true, every root stays below the end of its declared range. -/
theorem AtPoint.lt_declared_of_accepts (h : context.AtPoint overruns assignment value)
    (hguarding : Stage.Guarding context overruns predicates)
    (haccepts : Accepts predicates assignment) (hroot : root ∈ context.stage.roots)
    (hiv : context.stage.iterVar? root = some iv)
    (hdeclared : iv.declared = some (.ofInts low extent)) : value root < low + extent := by
  have hloop := h.regular.mem_loops_of_mem_roots hroot
  have hrange := (h.literal.loops root (Stage.mem_defined_of_mem_roots hroot)).get?
  cases hsame : context.sameRange (.ofInts (context.ranges.box.low root)
      (context.ranges.box.extent root)) (.ofInts low extent) with
  | true =>
      obtain ⟨hlow, hextent⟩ := eq_of_sameRange h.unconstrained hsame
      rw [← hlow, ← hextent]
      exact (h.contains_of_accepts hguarding haccepts root hloop).2
  | false =>
      exact h.lt_of_decides hguarding haccepts
        (.declared hroot iv _ hiv hdeclared hrange hsame)

/-- Every guard has a truth value: whether the index that it is about stays below the end of
the range. -/
theorem AtPoint.eval_of_mem (h : context.AtPoint overruns assignment value)
    (hguarding : Stage.Guarding context overruns predicates) {p : Expr} (hp : p ∈ predicates) :
    ∃ id low extent, context.Decides overruns id (.ofInts low extent) ∧ p.TypedAt .bool ∧
      p.eval assignment = .ok (BinaryOp.truth (decide (value id < low + extent))) := by
  obtain ⟨id, index, range, hdecides, hindex, rfl⟩ := hguarding.allowed p hp
  obtain ⟨hloop, low, extent, rfl, hlow, hextent⟩ := hdecides.literal h.regular h.literal
  obtain ⟨found, hfound, htyped, hx⟩ := h.indices id hloop
  obtain rfl : index = found := Option.some.inj (hindex.symm.trans hfound)
  have hcontains := (h.distances _ _ _ hdecides hindex).bare.contains_of_binary rfl htyped hx
    (Expr.eval_const_of_contains hlow) rfl
  have hdistance := htyped.combine (show BinaryOp.sub.isPredicate = false from rfl)
    (Expr.typedAt_const hlow)
  have hlimit := Expr.typedAt_const hextent
  refine ⟨id, low, extent, hdecides, .combine_predicate rfl hdistance.wellTyped hlimit.wellTyped
    (hdistance.dtype_eq.trans hlimit.dtype_eq.symm) nofun, ?_⟩
  rw [Range.ofInts, Expr.eval_guard htyped hlow hextent hx hcontains]
  simp only [sub_lt_iff_lt_add']

/-- Where every loop stays inside its inferred range and every root below the end of its
declared one, all guards are true. -/
theorem AtPoint.accepts (h : context.AtPoint overruns assignment value)
    (hguarding : Stage.Guarding context overruns predicates)
    (hinside : ∀ id ∈ context.stage.loops, context.ranges.box.Contains id (value id))
    (hdeclared : ∀ root ∈ context.stage.roots, ∀ iv, context.stage.iterVar? root = some iv →
      ∀ low extent, iv.declared = some (.ofInts low extent) → value root < low + extent) :
    Accepts predicates assignment := by
  intro p hp
  obtain ⟨id, low, extent, hdecides, -, hvalue⟩ := h.eval_of_mem hguarding hp
  have hlt : value id < low + extent := by
    cases hdecides with
    | inferred hloop _ hrange =>
        obtain ⟨hlow, hextent⟩ := IterMap.box_of_get? hrange
        have hupper := (hinside id hloop).2
        rwa [hlow, hextent] at hupper
    | declared hroot iv _ hiv hdecl _ _ => exact hdeclared id hroot iv hiv low extent hdecl
  rw [hvalue, decide_eq_true hlt]
  rfl

end GuardContext

end Guard

/-- No node of an index leaves its type. -/
def IterMap.IsExact (indices : IterMap Expr) (assignment : Assignment) : Prop :=
  ∀ id index, indices.get? id = some index → index.Exact assignment

namespace Stage

variable {stage : Stage} {ranges : IterMap Range} {drivers : List IterId} {indices : IterMap Expr}
  {point : IterId → Int} {known : RangedFacts} {overruns : IterMap Bool}

/-- Nothing wraps in what is computed to generate guards: not in the inferred extents and
the ends of the ranges, not in an index at a point inside, and not in the distances that
guards are about, neither at a point inside nor when they are analysed. -/
structure WrapFree (stage : Stage) (ranges : IterMap Range) (drivers : List IterId)
    (indices : IterMap Expr) : Prop where
  extents : ∀ relation ∈ stage.relations, ranges.box.ExtentsFit relation
  ends : ∀ id ∈ drivers, DType.int32.contains (ranges.box.low id + ranges.box.extent id) = true
  exact : ∀ point, Inside ranges drivers point → indices.IsExact (stage.assignmentAt drivers point)
  distances : ∀ known overruns, stage.rangedFacts ranges (fun _ range => range) = .ok known →
    stage.overrunsUp ranges known.facts stage.leafOverruns = .ok overruns →
    ∀ point, Inside ranges drivers point → GuardContext.DistancesFit
      ⟨stage, ranges, indices, known⟩ overruns (stage.assignmentAt drivers point)

/-- The indices at a point inside, when they follow the relations. -/
theorem WrapFree.atPoint (hwrap : stage.WrapFree ranges drivers indices) (h : stage.Regular)
    (hranges : stage.HasLiteralRanges .int32 ranges) (hfits : ranges.box.Fits stage)
    (hproducts : ∀ relation ∈ stage.relations, ranges.box.ProductFits .int32 relation)
    (hfacts : stage.rangedFacts ranges (fun _ range => range) = .ok known)
    (hflow : stage.overrunsUp ranges known.facts stage.leafOverruns = .ok overruns)
    (hknows : stage.Knows ranges known) (hliteral : DrivesLiterally ranges drivers)
    (hinside : Inside ranges drivers point) {value : IterId → Int}
    (hindices : ∀ id ∈ stage.loops,
      indices.EvaluatesTo .int32 (stage.assignmentAt drivers point) id (value id))
    (hfollows : ∀ relation ∈ stage.relations, ranges.box.Follows value relation)
    (hleaves : ∀ leaf ∈ stage.leaves, ranges.box.Contains leaf (value leaf)) :
    GuardContext.AtPoint ⟨stage, ranges, indices, known⟩ overruns
      (stage.assignmentAt drivers point) value where
  regular := h
  literal := hranges
  fits := hfits
  products := hproducts
  unconstrained := hknows.unconstrained
  cover := hknows.cover h hliteral hinside
  indices := hindices
  follows := hfollows
  leaves := hleaves
  distances := hwrap.distances known overruns hfacts hflow point hinside

end Stage

end LoopNest
