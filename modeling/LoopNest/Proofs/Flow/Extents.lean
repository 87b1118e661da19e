/-
# Literal extents

Where falsehood was not assumed and the ranges that a relation reads are literal, inferring
ranges is arithmetic. A split gives its fixed loop the extent that was asked for, cut down
to the extent of the parent where that is smaller and no thread depends on the loop; the
other loop gets the rounded quotient. Only the sum that rounds up and the product of a
fusion can wrap.

Where they do not, every loop has an iteration and the ranges cover the nest. And the other
way round: a sum that wraps is negative, and so is the extent that it gives.
-/

import LoopNest.Proofs.Facts.Literal
import LoopNest.Proofs.Flow.Inference
import LoopNest.Proofs.Flow.Points

namespace LoopNest

namespace Range

/-- A range between literals of a type. -/
def between (dtype : DType) (low extent : Int) : Range :=
  ⟨.const dtype low, .const dtype extent⟩

theorem ofExtent_const (dtype : DType) (extent : Int) :
    ofExtent (.const dtype extent) = between dtype 0 extent := by
  rw [ofExtent, between, Expr.dtype, Expr.zero, Expr.literal, DType.truncate_zero]

end Range

/-- A split by a positive literal of a type. -/
structure SplitSize.IsConst (size : SplitSize) (dtype : DType) (given : Int) : Prop where
  eq : size.extent = .const dtype given
  contains : dtype.contains given = true
  pos : 1 ≤ given

/-- The sizes of splits are positive literals of a type. -/
def Relation.HasConstSize (dtype : DType) : Relation → Prop
  | .split _ _ _ size => ∃ given, size.IsConst dtype given
  | _ => True

/-- The numbers of literal ranges. -/
def IterMap.box (ranges : IterMap Range) : Box where
  low id := ((ranges.get? id).bind fun range => range.min.value?).getD 0
  extent id := ((ranges.get? id).bind fun range => range.extent.value?).getD 0

theorem IterMap.box_of_get? {ranges : IterMap Range} {id : IterId} {low extent : Int}
    {dtype : DType} (h : ranges.get? id = some (.between dtype low extent)) :
    ranges.box.low id = low ∧ ranges.box.extent id = extent := by
  simp [box, h, Range.between, Expr.value?]

/-- The extents that a relation computes do not wrap. -/
def Box.ExtentsFit (box : Box) : Relation → Prop
  | .split parent _ _ size => ∀ given ∈ size.extent.value?, box.extent parent % given ≠ 0 →
    DType.int32.contains (box.extent parent + (given - 1)) = true
  | .fuse outer inner _ => DType.int32.contains (box.extent outer * box.extent inner) = true
  | _ => True


/-- The two loops of a split have no more iterations together than fit. -/
def Box.ProductFits (box : Box) (dtype : DType) : Relation → Prop
  | .split _ outer inner _ => dtype.contains (box.extent outer * box.extent inner) = true
  | _ => True

/-- The sum that rounds the extent of a split up does not wrap. -/
def Box.RoundsWithin (box : Box) (dtype : DType) : Relation → Prop
  | .split parent _ _ size => ∀ given ∈ size.extent.value?, box.extent parent % given ≠ 0 →
    dtype.contains (box.extent parent + (given - 1)) = true
  | _ => True

/-- The product of the extents of a fusion does not wrap. -/
def Box.FusesWithin (box : Box) (dtype : DType) : Relation → Prop
  | .fuse outer inner _ => dtype.contains (box.extent outer * box.extent inner) = true
  | _ => True

theorem Box.ExtentsFit.roundsWithin {box : Box} {relation : Relation}
    (h : box.ExtentsFit relation) : box.RoundsWithin .int32 relation := by
  cases relation <;> first | exact h | trivial

theorem Box.ExtentsFit.fusesWithin {box : Box} {relation : Relation}
    (h : box.ExtentsFit relation) : box.FusesWithin .int32 relation := by
  cases relation <;> first | exact h | trivial

namespace Stage

variable {stage : Stage} {dtype : DType} {low extent given : Int} {relation : Relation}

/-- The extents of the fixed and of the derived loop of a split. -/
def splitExtents (dtype : DType) (keep : Bool) (extent given : Int) : Int × Int :=
  (if keep then given else if extent < given then extent else given,
    if extent % given = 0 then extent / given
    else dtype.truncate (extent + (given - 1)) / given)

/-- The ranges of the two loops of a split are literal. -/
theorem splitRanges_const (facts : Facts) (hfree : facts.Consistent)
    (hextent : dtype.contains extent = true) (hgiven : dtype.contains given = true)
    (hpos : 1 ≤ given) (hdefined : Word.floorMod? extent given = some (extent % given))
    (keep : Bool) :
    splitRanges facts (.const dtype extent) (.const dtype given) keep =
      (.between dtype 0 (splitExtents dtype keep extent given).1,
        .between dtype 0 (splitExtents dtype keep extent given).2) := by
  simp only [splitRanges, Facts.ceilDiv_const hfree hextent hgiven hpos hdefined,
    Facts.smallerOrSecond_const hfree, splitExtents]
  cases keep <;> simp [Expr.castTo, Expr.dtype, Range.ofExtent_const]

/-- Both extents of a split lie in their type. -/
theorem contains_splitExtents (hextent : dtype.contains extent = true)
    (hgiven : dtype.contains given = true) (hpos : 1 ≤ given) (keep : Bool) :
    dtype.contains (splitExtents dtype keep extent given).1 = true ∧
      dtype.contains (splitExtents dtype keep extent given).2 = true := by
  constructor
  · simp only [splitExtents]
    split
    · exact hgiven
    · split
      · exact hextent
      · exact hgiven
  · simp only [splitExtents]
    split
    · exact DType.contains_ediv hextent (by omega)
    · exact DType.contains_ediv (DType.contains_truncate _ _) (by omega)

/-- The two loops of a split have at least one iteration, and together as many as the
parent, cut down or not. -/
theorem splitExtents_cover (hextent : 1 ≤ extent) (hgiven : 1 ≤ given)
    (hfit : extent % given ≠ 0 → dtype.contains (extent + (given - 1)) = true)
    (keep : Bool) :
    1 ≤ (splitExtents dtype keep extent given).1 ∧ 1 ≤ (splitExtents dtype keep extent given).2 ∧
      extent ≤ (splitExtents dtype keep extent given).1 *
        (splitExtents dtype keep extent given).2 := by
  have hquotient : (splitExtents dtype keep extent given).2 =
      if extent % given = 0 then extent / given else (extent + (given - 1)) / given := by
    simp only [splitExtents]
    split
    · rfl
    · rw [DType.truncate_of_contains (hfit ‹_›)]
  obtain ⟨hone, hcover⟩ := one_le_and_covers_of_ceil hextent hgiven hquotient
  by_cases hcut : keep = false ∧ extent < given
  · have hfixed : (splitExtents dtype keep extent given).1 = extent := by simp [splitExtents, hcut]
    rw [hfixed]
    exact ⟨hextent, hone, le_mul_of_one_le_right (by omega) hone⟩
  · have hfixed : (splitExtents dtype keep extent given).1 = given := by
      cases keep <;> simp_all [splitExtents]
    rw [hfixed, mul_comm]
    exact ⟨hgiven, hone, hcover⟩

/-- The two loops of a split have no more iterations together than fit. -/
theorem contains_mul_splitExtents (hpositive : 1 ≤ extent)
    (hextent : dtype.contains extent = true) (hpos : 1 ≤ given)
    (hfit : extent % given ≠ 0 → dtype.contains (extent + (given - 1)) = true)
    (keep : Bool) :
    dtype.contains ((splitExtents dtype keep extent given).1 *
      (splitExtents dtype keep extent given).2) = true := by
  have hbetween : ∀ {x upper : Int}, dtype.contains upper = true → 0 ≤ x → x ≤ upper →
      dtype.contains x = true :=
    fun hupper => DType.contains_of_between (DType.contains_zero _) hupper
  by_cases hcut : keep = false ∧ extent < given
  · have hlt := hcut.2
    have hquotient : (splitExtents dtype keep extent given).2 = 1 := by
      have hremainder : extent % given = extent := Int.emod_eq_of_lt (by omega) hlt
      simp only [splitExtents, hremainder, if_neg (by omega : extent ≠ 0)]
      rw [DType.truncate_of_contains (hfit (by omega))]
      have hshift : extent + (given - 1) = extent - 1 + given * 1 := by ring
      rw [hshift, Int.add_mul_ediv_left _ _ (by omega),
        Int.ediv_eq_zero_of_lt (by omega) (by omega), zero_add]
    have hfixed : (splitExtents dtype keep extent given).1 = extent := by simp [splitExtents, hcut]
    rw [hfixed, hquotient, mul_one]
    exact hextent
  · have hfixed : (splitExtents dtype keep extent given).1 = given := by
      cases keep <;> simp_all [splitExtents]
    rw [hfixed]
    by_cases hexact : extent % given = 0
    · simp only [splitExtents, if_pos hexact]
      rw [Int.mul_ediv_cancel' (Int.dvd_of_emod_eq_zero hexact)]
      exact hextent
    · simp only [splitExtents, if_neg hexact]
      rw [DType.truncate_of_contains (hfit hexact)]
      refine hbetween (hfit hexact) (mul_nonneg (by omega) (Int.ediv_nonneg (by omega) (by omega)))
        ?_
      exact Int.mul_ediv_self_le (by omega)

/-- What the ranges around a relation are, where those that it reads are literal and the
remainder that a split asks for is defined. The fixed loop of a split keeps its extent when
the parent is empty or a thread depends on the loop. -/
def RangesFollow (stage : Stage) (dtype : DType) (ranges : IterId → Option Range) :
    Relation → Prop
  | .split parent outer inner size =>
    ∀ low extent given, ranges parent = some (.between dtype low extent) →
      size.IsConst dtype given → dtype.contains extent = true →
        Word.floorMod? extent given = some (extent % given) →
      let loops := fixedAndDerived outer inner size
      let keep := decide (extent = 0) || stage.threadDominance.getDefault loops.1
      ranges loops.1 = some (.between dtype 0 (splitExtents dtype keep extent given).1) ∧
        ranges loops.2 = some (.between dtype 0 (splitExtents dtype keep extent given).2)
  | .fuse outer inner fused =>
    ∀ low extent low' extent', ranges outer = some (.between dtype low extent) →
      ranges inner = some (.between dtype low' extent') →
        ranges fused = some (.between dtype 0 (dtype.truncate (extent * extent')))
  | .rebase parent rebased =>
    ∀ low extent, ranges parent = some (.between dtype low extent) →
      ranges rebased = some (.between dtype 0 extent)
  | .singleton iter => ranges iter = some (.between dtype 0 1)

/-- Unless falsehood was assumed, what is inferred from literal ranges is arithmetic. -/
theorem RangesInferred.follow {ranges : IterId → Option Range} {constraints : List Expr}
    (h : stage.RangesInferred constraints ranges relation) (hfree : .ofBool false ∉ constraints)
    (htyped : ∀ id ∈ relation.outputs, ∀ iv, stage.iterVar? id = some iv → iv.dtype = dtype) :
    stage.RangesFollow dtype ranges relation := by
  cases relation with
  | split parent outer inner size =>
      intro low extent given hparent hgiven hextent hdefined
      obtain ⟨facts, rfl, hfixed, hderived⟩ := h _ hparent
      have hranges := splitRanges_const facts hfree hextent hgiven.contains hgiven.pos hdefined
        (decide (extent = 0) ||
          stage.threadDominance.getDefault (fixedAndDerived outer inner size).1)
      have hzero : (Range.between dtype low extent).extent.isZero = decide (extent = 0) := by
        simp [Range.between, Expr.isZero, Expr.value?]
      rw [hzero, hgiven.eq, Range.between, hranges] at hfixed hderived
      exact ⟨hfixed, hderived⟩
  | fuse outer inner fused =>
      intro low extent low' extent' houter hinner
      obtain ⟨facts, -, hfused⟩ := h _ _ houter hinner
      have hproduct : facts.simplify ((Expr.const dtype extent).mul (.const dtype extent')) =
          .const dtype (dtype.truncate (extent * extent')) :=
        congrArg facts.simplify (Expr.combine_const rfl)
      rw [hfused, Range.between, Range.between, hproduct, Range.ofExtent_const]
  | rebase parent rebased =>
      intro low extent hparent
      rw [h _ hparent, Range.between, Range.ofExtent_const]
  | singleton iter =>
      obtain ⟨iv, hiv, hrange⟩ := h
      rw [RangesFollow, hrange, htyped iter (by simp [Relation.outputs]) iv hiv, Range.constant,
        Expr.literal, DType.truncate_one, Range.ofExtent_const]

end Stage

/-- The range of a loop is literal, and its numbers lie in a type. -/
structure IterMap.HasNumbers (ranges : IterMap Range) (dtype : DType) (id : IterId) : Prop where
  get? : ranges.get? id = some (.between dtype (ranges.box.low id) (ranges.box.extent id))
  low : dtype.contains (ranges.box.low id) = true
  extent : dtype.contains (ranges.box.extent id) = true

theorem IterMap.hasNumbers_of_get? {ranges : IterMap Range} {dtype : DType} {id : IterId}
    {low extent : Int} (h : ranges.get? id = some (.between dtype low extent))
    (hlow : dtype.contains low = true) (hextent : dtype.contains extent = true) :
    ranges.HasNumbers dtype id := by
  obtain ⟨hlow', hextent'⟩ := IterMap.box_of_get? h
  refine ⟨?_, ?_, ?_⟩ <;> simpa only [hlow', hextent']

namespace Stage.RangesFollow

variable {stage : Stage} {dtype : DType} {ranges : IterMap Range} {relation : Relation}

section Numbers

variable (h : stage.RangesFollow dtype ranges.get? relation) (hsize : relation.HasConstSize dtype)
variable (hinputs : ∀ id ∈ relation.inputs, ranges.HasNumbers dtype id)
variable (hdefined : ∀ id ∈ relation.inputs, ∀ given, dtype.contains given = true → 1 ≤ given →
  Word.floorMod? (ranges.box.extent id) given = some (ranges.box.extent id % given))
include h hsize hinputs hdefined

/-- One relation downward: what it makes of literal ranges is literal and starts at zero. -/
theorem hasNumbers : ∀ id ∈ relation.outputs, ranges.HasNumbers dtype id ∧
    ranges.box.low id = 0 := by
  have hmade : ∀ {id extent}, ranges.get? id = some (.between dtype 0 extent) →
      dtype.contains extent = true → ranges.HasNumbers dtype id ∧ ranges.box.low id = 0 :=
    fun hget hextent => ⟨IterMap.hasNumbers_of_get? hget (DType.contains_zero _) hextent,
      (IterMap.box_of_get? hget).1⟩
  cases relation with
  | split parent outer inner size =>
      obtain ⟨given, hgiven⟩ := hsize
      simp only [Relation.inputs, List.mem_singleton, forall_eq] at hinputs hdefined
      obtain ⟨hfixed, hderived⟩ := h _ _ _ hinputs.get? hgiven hinputs.extent
        (hdefined given hgiven.contains hgiven.pos)
      obtain ⟨hextent, hextent'⟩ := contains_splitExtents hinputs.extent hgiven.contains hgiven.pos
        (decide (ranges.box.extent parent = 0) ||
          stage.threadDominance.getDefault (fixedAndDerived outer inner size).1)
      simp only [mem_outputs_split_iff, forall_eq_or_imp, forall_eq]
      exact ⟨hmade hfixed hextent, hmade hderived hextent'⟩
  | fuse outer inner fused =>
      simp only [Relation.inputs, List.mem_cons, List.not_mem_nil, or_false, forall_eq,
        forall_eq_or_imp] at hinputs
      rw [Relation.outputs, List.forall_mem_singleton]
      exact hmade (h _ _ _ _ hinputs.1.get? hinputs.2.get?) (DType.contains_truncate _ _)
  | rebase parent rebased =>
      simp only [Relation.inputs, List.mem_singleton, forall_eq] at hinputs
      rw [Relation.outputs, List.forall_mem_singleton]
      exact hmade (h _ _ hinputs.get?) hinputs.extent
  | singleton iter =>
      rw [Relation.outputs, List.forall_mem_singleton]
      exact hmade h (DType.contains_one _)

/-- One relation downward: where extents do not wrap, positive extents make positive ones,
and what the relation makes covers what it consumes. -/
theorem covers_of_positive (hrounds : ranges.box.RoundsWithin dtype relation)
    (hfuses : ranges.box.FusesWithin dtype relation)
    (hpositive : ∀ id ∈ relation.inputs, 1 ≤ ranges.box.extent id) :
    (∀ id ∈ relation.outputs, 1 ≤ ranges.box.extent id) ∧ ranges.box.Covers relation ∧
      ranges.box.ProductFits dtype relation := by
  cases relation with
  | split parent outer inner size =>
      obtain ⟨given, hgiven⟩ := hsize
      simp only [Relation.inputs, List.mem_singleton, forall_eq] at hinputs hdefined hpositive
      obtain ⟨hfixed, hderived⟩ := h _ _ _ hinputs.get? hgiven hinputs.extent
        (hdefined given hgiven.contains hgiven.pos)
      obtain ⟨hlow, hextent⟩ := IterMap.box_of_get? hfixed
      obtain ⟨hlow', hextent'⟩ := IterMap.box_of_get? hderived
      let keep := decide (ranges.box.extent parent = 0) ||
        stage.threadDominance.getDefault (fixedAndDerived outer inner size).1
      have hfit := hrounds given (by rw [hgiven.eq]; rfl)
      have hcover := splitExtents_cover hpositive hgiven.pos hfit keep
      have hproduct := contains_mul_splitExtents hpositive hinputs.extent hgiven.pos hfit keep
      rw [← hextent, ← hextent'] at hcover hproduct
      simp only [Relation.outputs, List.forall_mem_cons, Box.Covers, Box.ProductFits]
      cases size with
      | factor factor =>
          rw [mul_comm] at hcover hproduct
          exact ⟨⟨hcover.2.1, hcover.1, by simp⟩, ⟨hlow', hlow, hcover.2.2⟩, hproduct⟩
      | parts parts =>
          exact ⟨⟨hcover.1, hcover.2.1, by simp⟩, ⟨hlow, hlow', hcover.2.2⟩, hproduct⟩
  | fuse outer inner fused =>
      simp only [Relation.inputs, List.mem_cons, List.not_mem_nil, or_false, forall_eq,
        forall_eq_or_imp] at hinputs hpositive
      obtain ⟨hlow, hextent⟩ := IterMap.box_of_get? (h _ _ _ _ hinputs.1.get? hinputs.2.get?)
      rw [DType.truncate_of_contains hfuses] at hextent
      refine ⟨?_, ⟨hlow, hextent⟩, trivial⟩
      rw [Relation.outputs, List.forall_mem_singleton, hextent]
      have hproduct := mul_le_mul hpositive.1 hpositive.2 zero_le_one (by omega)
      omega
  | rebase parent rebased =>
      simp only [Relation.inputs, List.mem_singleton, forall_eq] at hinputs hpositive
      obtain ⟨hlow, hextent⟩ := IterMap.box_of_get? (h _ _ hinputs.get?)
      refine ⟨?_, ⟨hlow, hextent⟩, trivial⟩
      rw [Relation.outputs, List.forall_mem_singleton, hextent]
      exact hpositive
  | singleton iter =>
      obtain ⟨hlow, hextent⟩ := IterMap.box_of_get? h
      refine ⟨?_, ⟨hlow, hextent⟩, trivial⟩
      rw [Relation.outputs, List.forall_mem_singleton, hextent]

end Numbers

end Stage.RangesFollow

end LoopNest
