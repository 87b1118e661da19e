/-
# Padding

Range inference makes every loop as long as it has to be and no longer. A split covers its
parent with the fewest iterations of the derived loop; the fixed loop has the extent that
was asked for, cut down to the extent of the parent unless a thread runs on it. So padding
never loses an iteration, and it adds less than one round of the fixed loop.

A loop that has a range already keeps it, since some ranges of threads may be given from the
start. It must agree with what is inferred, and literals agree only if they are the same
number. So it makes no difference to extents whether a range was inferred or known before,
and this holds for literals of any types, of which only the numbers matter.
-/

import LoopNest.Proofs.Facts.Mixed
import LoopNest.Proofs.Flow.Dominance
import LoopNest.Proofs.Flow.Extents
import LoopNest.Proofs.Stage.WellFormed

namespace LoopNest

/-- The range of a loop has a literal extent. -/
def IterMap.HasExtent (ranges : IterMap Range) (id : IterId) (extent : Int) : Prop :=
  ∃ range, ranges.get? id = some range ∧ range.HasExtent extent

/-- A rounded quotient is the least number whose multiple covers the dividend. -/
theorem ceil_tight {dividend divisor : Int} (hdivisor : 1 ≤ divisor) :
    ((if dividend % divisor = 0 then dividend / divisor
      else (dividend + (divisor - 1)) / divisor) - 1) * divisor < dividend := by
  split
  · have hsplit := Int.ediv_mul_add_emod dividend divisor
    rw [sub_mul]
    omega
  · have hsplit := Int.ediv_mul_add_emod (dividend + (divisor - 1)) divisor
    have hrest := Int.emod_nonneg (dividend + (divisor - 1)) (by omega : divisor ≠ 0)
    rw [sub_mul]
    omega

namespace Stage

variable {stage : Stage} {state next flowed inferred : Inference} {relation : Relation}
  {id : IterId} {range proposed : Range} {constraints : List Expr} {seed value : Option Range}
  {seeds : IterId → Option Range} {ranges : IterMap Range} {extent given : Int}
  {bindings : List (IterId × IterId)}

section Recording

/-- A loop has the range that was inferred for it, or one that it had before and that
agrees. -/
def Recorded (constraints : List Expr) (seed value : Option Range) (proposed : Range) : Prop :=
  value = some proposed ∨ ∃ (existing : Range) (facts : Facts), seed = some existing ∧
    value = some existing ∧ facts.constraints = constraints ∧
      facts.agrees existing proposed = true

/-- What recording a range does. -/
theorem recordRange_inv (h : stage.recordRange state id range = .ok next) :
    next.facts.constraints = state.facts.constraints ∧
      (∀ other, other ≠ id → next.ranges.get? other = state.ranges.get? other) ∧
      Recorded state.facts.constraints (state.ranges.get? id) (next.ranges.get? id) range := by
  unfold recordRange at h
  split at h
  · obtain ⟨iv, -, hnext⟩ := bind_eq_ok.mp h
    obtain rfl := Except.ok.inj hnext
    refine ⟨rfl, fun other hother => ?_, .inl ?_⟩
    · rw [Inference.get?_insert, if_neg hother]
    · rw [Inference.get?_insert, if_pos rfl]
  · rename_i existing hexisting
    split at h
    · obtain rfl := Except.ok.inj h
      exact ⟨rfl, fun _ _ => rfl, .inr ⟨existing, state.facts, hexisting, hexisting, rfl, ‹_›⟩⟩
    · cases h

/-- What a relation makes has the ranges that are inferred from those of what it consumes,
or agreed with them before. -/
def RangesRecorded (stage : Stage) (constraints : List Expr) (seeds : IterId → Option Range)
    (ranges : IterId → Option Range) : Relation → Prop
  | .split parent outer inner size => ∀ parentRange, ranges parent = some parentRange →
    ∃ facts : Facts, facts.constraints = constraints ∧
      let loops := fixedAndDerived outer inner size
      let keep := parentRange.extent.isZero || stage.threadDominance.getDefault loops.1
      let made := splitRanges facts parentRange.extent size.extent keep
      Recorded constraints (seeds loops.1) (ranges loops.1) made.1 ∧
        Recorded constraints (seeds loops.2) (ranges loops.2) made.2
  | .fuse outer inner fused => ∀ outerRange innerRange,
    ranges outer = some outerRange → ranges inner = some innerRange →
      ∃ facts : Facts, ranges fused =
        some (.ofExtent (facts.simplify (outerRange.extent.mul innerRange.extent)))
  | .rebase parent rebased => ∀ parentRange, ranges parent = some parentRange →
    Recorded constraints (seeds rebased) (ranges rebased) (.ofExtent parentRange.extent)
  | .singleton iter => ∃ iv, stage.iterVar? iter = some iv ∧
    Recorded constraints (seeds iter) (ranges iter) (.constant iv.dtype 1)

theorem isLocal_rangesRecorded (stage : Stage) (constraints : List Expr)
    (seeds : IterId → Option Range) : IsLocal (stage.RangesRecorded constraints seeds) := by
  intro relation left right hsame hrecorded
  have hread : ∀ id ∈ relation.inputs ++ relation.outputs, right id = left id :=
    fun id hid => (hsame id hid).symm
  cases relation with
  | split parent outer inner size =>
      simp only [Relation.inputs, Relation.outputs, List.cons_append, List.nil_append,
        List.forall_mem_cons] at hread
      cases size <;> simpa [RangesRecorded, fixedAndDerived, hread] using hrecorded
  | fuse | rebase =>
      simp only [Relation.inputs, Relation.outputs, List.cons_append, List.nil_append,
        List.forall_mem_cons] at hread
      simpa [RangesRecorded, hread] using hrecorded
  | singleton iter =>
      obtain ⟨iv, hiv, hrange⟩ := hrecorded
      refine ⟨iv, hiv, ?_⟩
      rw [hread iter (by simp [Relation.outputs])]
      exact hrange

/-- A relation that records the range of one loop. -/
theorem writes_of_records (hstate : state.facts.constraints = constraints)
    (hrecord : stage.recordRange state id range = .ok next) (houtputs : relation.outputs = [id])
    (hrecorded : Recorded constraints (state.ranges.get? id) (next.ranges.get? id) range →
      stage.RangesRecorded constraints seeds next.ranges.get? relation) :
    Writes (fun state => state.ranges.get?) (fun state => state.facts.constraints = constraints)
      (stage.RangesRecorded constraints seeds) [relation] relation.outputs state next := by
  obtain ⟨hconstraints, hframe, hrecords⟩ := recordRange_inv hrecord
  refine ⟨hconstraints.trans hstate, ?_, fun other hother => ?_, ?_⟩
  · rw [houtputs, List.forall_mem_singleton]
    rcases hrecords with hnew | ⟨_, _, -, hkept, -⟩
    · simp only [hnew, Option.isSome_some]
    · simp only [hkept, Option.isSome_some]
  · rw [houtputs, List.mem_singleton] at hother
    exact hframe other hother
  · rw [List.forall_mem_singleton]
    exact hrecorded (hstate ▸ hrecords)

/-- One relation: where the inference goes through, what the relation makes has its ranges. -/
theorem Linked.inferRanges_records (h : stage.Linked) (hrelation : relation ∈ stage.relations)
    (hstate : state.facts.constraints = constraints)
    (hready : ∀ id ∈ relation.inputs, (state.ranges.get? id).isSome)
    (hseeds : ∀ id ∈ relation.outputs, state.ranges.get? id = seeds id)
    (hstep : stage.inferRanges stage.threadDominance false state relation = .ok next) :
    Writes (fun state => state.ranges.get?) (fun state => state.facts.constraints = constraints)
      (stage.RangesRecorded constraints seeds) [relation] relation.outputs state next := by
  have hapart := h.apart relation hrelation
  have hnodup := h.nodup_outputs hrelation
  simp only [Option.isSome_iff_exists] at hready
  cases relation with
  | split parent outer inner size =>
      have houtputs := mem_outputs_split_iff parent outer inner size
      have hne := derived_ne_fixed hnodup
      generalize hloops : fixedAndDerived outer inner size = loops at houtputs hne
      obtain ⟨fixed, derived⟩ := loops
      simp only [houtputs, forall_eq_or_imp, forall_eq, not_or, Relation.inputs,
        List.mem_singleton] at hapart hready hseeds
      obtain ⟨parentRange, hparent⟩ := hready
      simp only [inferRanges, read?, hparent, Halt.keeping_ok, ok_bind, hloops, Bool.false_or,
        bind_eq_ok, Halt.keeping_eq_ok] at hstep
      obtain ⟨middle, hfixed, hderived⟩ := hstep
      obtain ⟨hconstraints, hframe, hrecords⟩ := recordRange_inv hfixed
      obtain ⟨hconstraints', hframe', hrecords'⟩ := recordRange_inv hderived
      rw [hstate, hseeds.1, ← hframe' fixed (Ne.symm hne)] at hrecords
      rw [hconstraints, hstate, hframe derived hne, hseeds.2] at hrecords'
      refine ⟨hconstraints'.trans (hconstraints.trans hstate), fun id hid => ?_,
        fun other hother => ?_, ?_⟩
      · rcases (houtputs id).mp hid with rfl | rfl
        · rcases hrecords with hnew | ⟨_, _, -, hkept, -⟩ <;> simp only [*, Option.isSome_some]
        · rcases hrecords' with hnew | ⟨_, _, -, hkept, -⟩ <;> simp only [*, Option.isSome_some]
      · rw [houtputs, not_or] at hother
        rw [hframe' other hother.2, hframe other hother.1]
      · rw [List.forall_mem_singleton]
        intro range hrange
        rw [hframe' parent hapart.2, hframe parent hapart.1, hparent] at hrange
        obtain rfl := Option.some.inj hrange
        refine ⟨state.facts, hstate, ?_⟩
        simp only [hloops]
        exact ⟨hrecords, hrecords'⟩
  | fuse outer inner fused =>
      simp only [Relation.inputs, Relation.outputs, List.mem_cons, List.not_mem_nil, or_false,
        forall_eq, forall_eq_or_imp] at hapart hready
      obtain ⟨⟨outerRange, houter⟩, innerRange, hinner⟩ := hready
      simp only [inferRanges, readBoth?, houter, hinner, ok_bind, bind_eq_ok,
        Halt.keeping_eq_ok] at hstep
      obtain ⟨iv, -, hnext⟩ := hstep
      obtain rfl := Except.ok.inj hnext
      refine ⟨hstate, ?_, fun other hother => ?_, ?_⟩
      · simp [Relation.outputs]
      · rw [Relation.outputs, List.mem_singleton] at hother
        rw [Inference.get?_insert, if_neg hother]
      · rw [List.forall_mem_singleton]
        intro outerRange' innerRange' houter' hinner'
        simp only [Inference.get?_insert, if_neg hapart.1, if_neg hapart.2, houter, hinner,
          Option.some.injEq] at houter' hinner'
        subst houter' hinner'
        exact ⟨state.facts, by simp⟩
  | rebase parent rebased =>
      simp only [Relation.inputs, Relation.outputs, List.mem_singleton, forall_eq]
        at hapart hready hseeds
      obtain ⟨parentRange, hparent⟩ := hready
      simp only [inferRanges, read?, hparent, ok_bind, Halt.keeping_eq_ok] at hstep
      refine writes_of_records hstate hstep rfl fun hrecords range hrange => ?_
      rw [(recordRange_inv hstep).2.1 parent hapart, hparent] at hrange
      obtain rfl := Option.some.inj hrange
      exact hseeds ▸ hrecords
  | singleton iter =>
      simp only [Relation.outputs, List.mem_singleton, forall_eq] at hseeds
      simp only [inferRanges, bind_eq_ok, Halt.keeping_eq_ok] at hstep
      obtain ⟨iv, hiv, hrecord⟩ := hstep
      exact writes_of_records hstate hrecord rfl fun hrecords =>
        ⟨iv, iterVar?_eq_some hiv, hseeds ▸ hrecords⟩

/-- All relations: where the inference goes through, every loop has its range. -/
theorem Linked.inferFlow_records (h : stage.Linked)
    (hroots : ∀ root ∈ stage.roots, (state.ranges.get? root).isSome)
    (hflow : stage.flowDown (stage.inferRanges stage.threadDominance false) state = .ok flowed) :
    Writes (fun state => state.ranges.get?)
      (fun next => next.facts.constraints = state.facts.constraints)
      (stage.RangesRecorded state.facts.constraints state.ranges.get?) stage.relations
      (stage.relations.flatMap Relation.outputs) state flowed := by
  have hstep : ∀ middle, ∀ relation ∈ stage.relations,
      middle.facts.constraints = state.facts.constraints →
      (∀ id ∈ relation.inputs, (middle.ranges.get? id).isSome = true) →
      (∀ id ∈ relation.outputs, middle.ranges.get? id = state.ranges.get? id) →
      (∃ halt, stage.inferRanges stage.threadDominance false middle relation = .error halt ∧
        True) ∨ ∃ next, stage.inferRanges stage.threadDominance false middle relation = .ok next ∧
          Writes (fun state => state.ranges.get?)
            (fun next => next.facts.constraints = state.facts.constraints)
            (stage.RangesRecorded state.facts.constraints state.ranges.get?) [relation]
            relation.outputs middle next := by
    intro middle relation hrelation hmiddle hready hseeds
    rcases hresult : stage.inferRanges stage.threadDominance false middle relation with halt | next
    · exact .inl ⟨halt, rfl, trivial⟩
    · exact .inr ⟨next, rfl, h.inferRanges_records hrelation hmiddle hready hseeds hresult⟩
  have houtcome :
      (∃ halt, stage.flowDown (stage.inferRanges stage.threadDominance false) state =
          .error halt ∧ True) ∨
        ∃ final, stage.flowDown (stage.inferRanges stage.threadDominance false) state =
            .ok final ∧
          Writes (fun state => state.ranges.get?)
            (fun next => next.facts.constraints = state.facts.constraints)
            (stage.RangesRecorded state.facts.constraints state.ranges.get?) stage.relations
            (stage.relations.flatMap Relation.outputs) state final :=
    h.flowDown_outcome (fun _ => True) (isLocal_rangesRecorded stage _ _) hstep rfl hroots
  rw [hflow] at houtcome
  rcases houtcome with ⟨halt, hhalt, -⟩ | ⟨final, hfinal, hwrites⟩
  · cases hhalt
  · obtain rfl := Except.ok.inj hfinal
    exact hwrites

end Recording

section Numbers

/-- A recorded range has the extent that is inferred, and it starts at zero unless it is the
inferred one. -/
theorem Recorded.hasExtent (h : Recorded constraints seed value proposed)
    (hfree : .ofBool false ∉ constraints)
    (hseed : ∀ range ∈ seed, ∃ extent, range.HasExtent extent)
    (hproposed : proposed.HasExtent extent) :
    ∃ range, value = some range ∧ range.HasExtent extent ∧
      (proposed.min.isZero = true → range.min.isZero = true) := by
  rcases h with rfl | ⟨existing, facts, hknown, rfl, rfl, hagrees⟩
  · exact ⟨proposed, rfl, hproposed, fun hzero => hzero⟩
  · obtain ⟨known, hextent⟩ := hseed existing hknown
    obtain ⟨hstart, rfl⟩ := Facts.agrees_literal hfree hextent hproposed hagrees
    exact ⟨existing, rfl, hextent, fun _ => hstart⟩

/-- The ranges of the two loops of a split by literals, whatever their types are. -/
theorem splitRanges_join {facts : Facts} (hfree : facts.Consistent) {dtype dtype' : DType}
    (hextent : dtype.contains extent = true) (hgiven : dtype'.contains given = true)
    (hpositive : 1 ≤ extent) (hpos : 1 ≤ given) {keep : Bool}
    (hkeep : keep = true → dtype.contains given = true)
    (hfit : extent % given ≠ 0 → (dtype.join dtype').contains (extent + (given - 1)) = true) :
    let made := splitRanges facts (.const dtype extent) (.const dtype' given) keep
    (made.1.min.isZero = true ∧ made.1.HasExtent (if keep then given else min extent given)) ∧
      made.2.min.isZero = true ∧
        made.2.HasExtent (if extent % given = 0 then extent / given
          else (extent + (given - 1)) / given) := by
  obtain ⟨quotientType, hquotient, hcontains⟩ :=
    Facts.ceilDiv_join hfree hextent hgiven (by omega) hpos hfit
  refine ⟨⟨Range.isZero_min_ofExtent _, dtype, ?_, ?_⟩, Range.isZero_min_ofExtent _, quotientType,
    hquotient, hcontains⟩
  · cases keep with
    | true => exact Expr.castTo_const (hkeep rfl)
    | false =>
        simp only [splitRanges, Range.ofExtent, Facts.smallerOrSecond_join hfree hextent hgiven]
        by_cases hlt : extent < given
        · simpa [hlt, min_eq_left hlt.le, Expr.dtype] using Expr.castTo_const hextent
        · have hle : given ≤ extent := not_lt.mp hlt
          have hfits : dtype.contains given = true :=
            DType.contains_of_between (DType.contains_zero _) hextent (by omega) hle
          simpa [hlt, min_eq_right hle, Expr.dtype] using Expr.castTo_const hfits
  · cases keep with
    | true => exact hkeep rfl
    | false =>
        change dtype.contains (min extent given) = true
        exact DType.contains_of_between (DType.contains_zero _) hextent (by omega)
          (min_le_left _ _)

/-- The extents that a relation computes do not wrap: the sum that rounds the extent of a
split up, the extent of a fixed loop on a thread in the type of the parent, and the product
of a fusion. Literals of different types are computed with in the type in which they meet. -/
def ComputesWithin (stage : Stage) (ranges : IterMap Range) : Relation → Prop
  | .split parent outer inner size => ∀ range ∈ ranges.get? parent,
    ∀ extent ∈ range.extent.value?, ∀ given ∈ size.extent.value?,
      (extent % given ≠ 0 →
          (range.dtype.join size.extent.dtype).contains (extent + (given - 1)) = true) ∧
        (stage.threadDominance.getDefault (fixedAndDerived outer inner size).1 = true →
          range.dtype.contains given = true)
  | .fuse outer inner _ => ∀ range ∈ ranges.get? outer, ∀ range' ∈ ranges.get? inner,
    ∀ extent ∈ range.extent.value?, ∀ extent' ∈ range'.extent.value?,
      (range.dtype.join range'.dtype).contains (extent * extent') = true
  | _ => True

instance (stage : Stage) (ranges : IterMap Range) (relation : Relation) :
    Decidable (stage.ComputesWithin ranges relation) :=
  match relation with
  | .split _ _ _ _ => inferInstanceAs (Decidable (∀ range ∈ _, ∀ extent ∈ _, ∀ given ∈ _, _))
  | .fuse _ _ _ => inferInstanceAs
      (Decidable (∀ range ∈ _, ∀ range' ∈ _, ∀ extent ∈ _, ∀ extent' ∈ _, _))
  | .rebase _ _ | .singleton _ => inferInstanceAs (Decidable True)

/-- How the extents around a relation are related. The fixed loop of a split by a factor is
the inner one, that of a split into parts the outer one. -/
def Pads (stage : Stage) (ranges : IterMap Range) : Relation → Prop
  | .split parent outer inner size => ∃ extent given fixed derived,
    let loops := fixedAndDerived outer inner size
    ranges.HasExtent parent extent ∧ size.extent.value? = some given ∧
      ranges.HasExtent loops.1 fixed ∧ ranges.HasExtent loops.2 derived ∧
      (stage.FeedsThread loops.1 → fixed = given) ∧
      (¬stage.FeedsThread loops.1 → fixed = min extent given) ∧
      (derived - 1) * given < extent ∧ extent ≤ derived * given ∧ extent ≤ fixed * derived
  | .fuse outer inner fused => ∃ extent extent', ranges.HasExtent outer extent ∧
    ranges.HasExtent inner extent' ∧ ranges.HasExtent fused (extent * extent')
  | .rebase parent rebased => ∃ extent, ranges.HasExtent parent extent ∧
    ranges.HasExtent rebased extent
  | .singleton iter => ranges.HasExtent iter 1

/-- A loop starts at zero and has some iterations. -/
def Counts (ranges : IterMap Range) (id : IterId) (extent : Int) : Prop :=
  ∃ range, ranges.get? id = some range ∧ range.min.isZero = true ∧ range.HasExtent extent

theorem Counts.hasExtent (h : Counts ranges id extent) : ranges.HasExtent id extent := by
  obtain ⟨range, hrange, -, hextent⟩ := h
  exact ⟨range, hrange, hextent⟩

/-- A range that starts at zero is recorded as one that does. -/
theorem Recorded.counts (h : Recorded constraints seed (ranges.get? id) proposed)
    (hfree : .ofBool false ∉ constraints)
    (hseed : ∀ range ∈ seed, ∃ extent, range.HasExtent extent)
    (hproposed : proposed.HasExtent extent) (hzero : proposed.min.isZero = true) :
    Counts ranges id extent := by
  obtain ⟨range, hrange, hextent, hstart⟩ := h.hasExtent hfree hseed hproposed
  exact ⟨range, hrange, hstart hzero, hextent⟩

/-- The fixed loop of a split has an iteration and covers the parent with the derived one,
kept as long as asked for or cut down. -/
theorem one_le_and_covers_of_cut {quotient : Int} (keep : Prop) [Decidable keep]
    (hextent : 1 ≤ extent) (hgiven : 1 ≤ given) (hone : 1 ≤ quotient)
    (hcover : extent ≤ quotient * given) :
    1 ≤ (if keep then given else min extent given) ∧
      extent ≤ (if keep then given else min extent given) * quotient := by
  rw [mul_comm] at hcover
  split
  · exact ⟨hgiven, hcover⟩
  · rcases le_total extent given with hle | hle
    · rw [min_eq_left hle]
      exact ⟨hextent, le_mul_of_one_le_right (by omega) hone⟩
    · rw [min_eq_right hle]
      exact ⟨hgiven, hcover⟩

/-- The extent of a fusion. -/
theorem RangesRecorded.fuse {outer inner fused : IterId}
    (h : stage.RangesRecorded constraints seeds ranges.get? (.fuse outer inner fused))
    (hwithin : stage.ComputesWithin ranges (.fuse outer inner fused))
    (hinputs : ∀ id ∈ (Relation.fuse outer inner fused).inputs,
      ∃ extent, ranges.HasExtent id extent ∧ 1 ≤ extent) :
    ∃ extent extent', ranges.HasExtent outer extent ∧ 1 ≤ extent ∧
      ranges.HasExtent inner extent' ∧ 1 ≤ extent' ∧ Counts ranges fused (extent * extent') := by
  simp only [Relation.inputs, List.mem_cons, List.not_mem_nil, or_false, forall_eq,
    forall_eq_or_imp] at hinputs
  obtain ⟨⟨extent, ⟨range, hrange, dtype, hextent, hcontains⟩, hpositive⟩,
    extent', ⟨range', hrange', dtype', hextent', hcontains'⟩, hpositive'⟩ := hinputs
  obtain ⟨facts, hfused⟩ := h range range' hrange hrange'
  have hproduct : (dtype.join dtype').contains (extent * extent') = true := by
    have hfit := hwithin range hrange range' hrange' extent (by rw [hextent]; rfl) extent'
      (by rw [hextent']; rfl)
    rwa [Range.dtype, Range.dtype, hextent, hextent'] at hfit
  have hmade : facts.simplify (range.extent.mul range'.extent) =
      .const (dtype.join dtype') (extent * extent') := by
    have hcombined : Expr.combine .mul (.const (dtype.join dtype') extent)
        (.const (dtype.join dtype') extent') = .const (dtype.join dtype') (extent * extent') :=
      Expr.combine_const_of_contains rfl rfl hproduct
    rw [hextent, hextent', Expr.mul, Expr.combine_join _ hcontains hcontains', hcombined,
      Facts.simplify_const]
  rw [hmade] at hfused
  exact ⟨extent, extent', ⟨range, hrange, dtype, hextent, hcontains⟩, hpositive,
    ⟨range', hrange', dtype', hextent', hcontains'⟩, hpositive',
    _, hfused, Range.isZero_min_ofExtent _, Range.hasExtent_ofExtent hproduct⟩

section Relations

variable (h : stage.RangesRecorded constraints seeds ranges.get? relation)
variable (hfree : .ofBool false ∉ constraints)
variable (hseeds : ∀ id ∈ relation.outputs, ∀ range ∈ seeds id, ∃ extent, range.HasExtent extent)
variable (hwithin : stage.ComputesWithin ranges relation)
variable (hinputs : ∀ id ∈ relation.inputs, ∃ extent, ranges.HasExtent id extent ∧ 1 ≤ extent)
include h hfree hseeds hwithin hinputs

/-- The extents of the two loops of a split. -/
theorem RangesRecorded.split {parent outer inner : IterId} {size : SplitSize}
    (heq : relation = .split parent outer inner size) {dtype : DType}
    (hsize : size.IsConst dtype given) : ∃ extent,
    let loops := fixedAndDerived outer inner size
    let keep := stage.threadDominance.getDefault loops.1 = true
    ranges.HasExtent parent extent ∧ 1 ≤ extent ∧
      Counts ranges loops.1 (if keep then given else min extent given) ∧
      Counts ranges loops.2 (if extent % given = 0 then extent / given
        else (extent + (given - 1)) / given) := by
  subst heq
  simp only [Relation.inputs, List.mem_singleton, forall_eq] at hinputs
  obtain ⟨extent, ⟨range, hrange, dtype', hextent, hcontains⟩, hpositive⟩ := hinputs
  obtain ⟨facts, hfacts, hfixed, hderived⟩ := h range hrange
  have hconsistent : facts.Consistent := by rwa [Facts.Consistent, hfacts]
  have hmem : (fixedAndDerived outer inner size).1 ∈ [outer, inner] ∧
      (fixedAndDerived outer inner size).2 ∈ [outer, inner] := by
    cases size <;> simp [fixedAndDerived]
  obtain ⟨hfit, hthread⟩ := hwithin range hrange extent (by rw [hextent]; rfl) given
    (by rw [hsize.eq]; rfl)
  have hzero : (Expr.const dtype' extent).isZero = false := by
    rw [Expr.isZero, Expr.value?, decide_eq_false_iff_not, Option.some.injEq]
    omega
  rw [hsize.eq, Range.dtype, hextent] at hfit
  rw [Range.dtype, hextent] at hthread
  simp only [hextent, hsize.eq, hzero, Bool.false_or] at hfixed hderived
  obtain ⟨⟨hstart, hmade⟩, hstart', hmade'⟩ := splitRanges_join hconsistent hcontains
    hsize.contains hpositive hsize.pos hthread hfit
  exact ⟨extent, ⟨range, hrange, dtype', hextent, hcontains⟩, hpositive,
    hfixed.counts hfree (hseeds _ hmem.1) hmade hstart,
    hderived.counts hfree (hseeds _ hmem.2) hmade' hstart'⟩

/-- One relation downward: what it makes starts at zero, has an iteration and pads what it
consumes. -/
theorem RangesRecorded.pads (hlinked : stage.Linked) (hrelation : relation ∈ stage.relations)
    {dtype : DType} (hsize : relation.HasConstSize dtype) :
    (∀ id ∈ relation.outputs, ∃ extent, Counts ranges id extent ∧ 1 ≤ extent) ∧
      stage.Pads ranges relation := by
  cases relation with
  | split parent outer inner size =>
      obtain ⟨given, hgiven⟩ := hsize
      obtain ⟨extent, hparent, hpositive, hfixed, hderived⟩ :=
        h.split hfree hseeds hwithin hinputs rfl hgiven
      have hmem : (fixedAndDerived outer inner size).1 ∈
          (Relation.split parent outer inner size).outputs := by
        cases size <;> simp [fixedAndDerived, Relation.outputs]
      have hfeeds := hlinked.threadDominance_iff (mem_defined_of_mem_outputs hrelation hmem)
      obtain ⟨hone, hcover⟩ := one_le_and_covers_of_ceil hpositive hgiven.pos rfl
      obtain ⟨hone', hcover'⟩ := one_le_and_covers_of_cut
        (stage.threadDominance.getDefault (fixedAndDerived outer inner size).1 = true) hpositive
        hgiven.pos hone hcover
      refine ⟨?_, extent, given, _, _, hparent, by rw [hgiven.eq]; rfl, hfixed.hasExtent,
        hderived.hasExtent, fun hfeed => if_pos (hfeeds.mpr hfeed),
        fun hfeed => if_neg (mt hfeeds.mp hfeed), ceil_tight hgiven.pos, hcover, hcover'⟩
      simp only [Relation.outputs, List.forall_mem_cons]
      cases size with
      | factor factor => exact ⟨⟨_, hderived, hone⟩, ⟨_, hfixed, hone'⟩, by simp⟩
      | parts parts => exact ⟨⟨_, hfixed, hone'⟩, ⟨_, hderived, hone⟩, by simp⟩
  | fuse outer inner fused =>
      obtain ⟨extent, extent', houter, hpositive, hinner, hpositive', hfused⟩ :=
        RangesRecorded.fuse h hwithin hinputs
      refine ⟨?_, extent, extent', houter, hinner, hfused.hasExtent⟩
      rw [Relation.outputs, List.forall_mem_singleton]
      exact ⟨_, hfused, one_le_mul_of_one_le_of_one_le hpositive hpositive'⟩
  | rebase parent rebased =>
      simp only [Relation.inputs, List.mem_singleton, forall_eq] at hinputs
      obtain ⟨extent, ⟨range, hrange, hextent⟩, hpositive⟩ := hinputs
      have hmade := (h range hrange).counts hfree (hseeds rebased (by simp [Relation.outputs]))
        hextent (Range.isZero_min_ofExtent _)
      refine ⟨?_, extent, ⟨range, hrange, hextent⟩, hmade.hasExtent⟩
      rw [Relation.outputs, List.forall_mem_singleton]
      exact ⟨extent, hmade, hpositive⟩
  | singleton iter =>
      obtain ⟨iv, -, hrecords⟩ := h
      have hone : (Range.constant iv.dtype 1).HasExtent 1 :=
        ⟨iv.dtype, by simp [Range.constant, Range.ofExtent, Expr.literal, DType.truncate_one],
          DType.contains_one _⟩
      have hmade := hrecords.counts hfree (hseeds iter (by simp [Relation.outputs])) hone
        (Range.isZero_min_ofExtent _)
      refine ⟨?_, hmade.hasExtent⟩
      rw [Relation.outputs, List.forall_mem_singleton]
      exact ⟨1, hmade, le_rfl⟩

end Relations

/-- Threads: where they do not conflict, a thread has as many iterations as the leaf that
runs on it. The induction is on the bindings that are left. -/
theorem foldlM_inferThreadRange_records
    (h : bindings.foldlM (stage.inferThreadRange false) state = .ok inferred)
    (hfree : state.facts.Consistent)
    (hliteral : ∀ id, ∀ range ∈ state.ranges.get? id, ∃ extent, range.HasExtent extent) :
    ∀ binding ∈ bindings, ∃ extent, inferred.ranges.HasExtent binding.1 extent ∧
      inferred.ranges.HasExtent binding.2 extent := by
  induction bindings generalizing state with
  | nil => simp
  | cons binding rest ih =>
      rw [List.foldlM_cons, bind_eq_ok] at h
      obtain ⟨next, hnext, hrest⟩ := h
      obtain ⟨found, hfound, hrecord⟩ := bind_eq_ok.mp (Halt.keeping_eq_ok.mp hnext)
      cases hleaf : state.ranges.get? binding.1 with
      | none =>
          rw [read?, hleaf] at hfound
          cases hfound
      | some range =>
          rw [read?, hleaf] at hfound
          obtain rfl := Except.ok.inj hfound
          obtain ⟨extent, hextent⟩ := hliteral binding.1 range hleaf
          obtain ⟨hconstraints, hframe, hrecords⟩ := recordRange_inv hrecord
          obtain ⟨threadRange, hthread, hthreadExtent, -⟩ :=
            hrecords.hasExtent hfree (hliteral binding.2) hextent
          have hkeeps := (foldlM_inferThreadRange_keeps hrest).2
          refine List.forall_mem_cons.mpr ⟨⟨extent, ⟨range, ?_, hextent⟩, threadRange,
            hkeeps _ _ hthread, hthreadExtent⟩, ih hrest ?_ fun id found hfound => ?_⟩
          · exact hkeeps _ _ ((recordRange_keeps hrecord).2 _ _ hleaf)
          · rwa [Facts.Consistent, hconstraints]
          · by_cases hid : id = binding.2
            · subst hid
              obtain rfl := Option.some.inj (hthread.symm.trans hfound)
              exact ⟨extent, hthreadExtent⟩
            · rw [hframe id hid] at hfound
              exact hliteral id found hfound

end Numbers

/-- Ranges to start from: the roots have positive literal extents, whatever their minima are,
and what else is known starts at zero and has a literal extent. Splits have positive literal
sizes, and falsehood was not assumed. -/
structure SeedsLiterally (stage : Stage) (state : Inference) : Prop where
  consistent : state.facts.Consistent
  sizes : ∀ relation ∈ stage.relations, ∃ dtype, relation.HasConstSize dtype
  roots : ∀ root ∈ stage.roots, ∃ extent, state.ranges.HasExtent root extent ∧ 1 ≤ extent
  others : ∀ id, id ∉ stage.roots → ∀ range ∈ state.ranges.get? id,
    range.min.isZero = true ∧ ∃ extent, range.HasExtent extent

/-- All loops and threads are padded. -/
structure Padded (stage : Stage) (seeds ranges : IterMap Range) : Prop where
  roots : ∀ root ∈ stage.roots, ranges.get? root = seeds.get? root ∧
    ∃ extent, ranges.HasExtent root extent ∧ 1 ≤ extent
  derived : ∀ relation ∈ stage.relations, ∀ id ∈ relation.outputs,
    ∃ extent, Counts ranges id extent ∧ 1 ≤ extent
  relations : ∀ relation ∈ stage.relations, stage.Pads ranges relation
  threads : ∀ leaf thread, stage.threads.get? leaf = some thread →
    ∃ extent, ranges.HasExtent leaf extent ∧ ranges.HasExtent thread extent

/-- Where inference goes through and no extent wraps, it pads all loops of a linked stage. -/
theorem Linked.padded_of_rangesDown (h : stage.Linked) (hseeds : stage.SeedsLiterally state)
    (hdown : stage.rangesDown false state = .ok inferred)
    (hwithin : ∀ relation ∈ stage.relations, stage.ComputesWithin inferred.ranges relation) :
    stage.Padded state.ranges inferred.ranges := by
  obtain ⟨flowed, hflow, hthreads⟩ := bind_eq_ok.mp hdown
  have hknown : ∀ root ∈ stage.roots, (state.ranges.get? root).isSome := by
    intro root hroot
    obtain ⟨_, ⟨range, hrange, -⟩, -⟩ := hseeds.roots root hroot
    rw [hrange]
    rfl
  have hwrites := h.inferFlow_records hknown hflow
  have hkeeps := (foldlM_inferThreadRange_keeps hthreads).2
  have hframe : ∀ root ∈ stage.roots, flowed.ranges.get? root = state.ranges.get? root :=
    fun root hroot => hwrites.frame root fun hmade => by
      obtain ⟨relation, hrelation, houtput⟩ := List.mem_flatMap.mp hmade
      exact h.not_mem_roots_of_mem_outputs hrelation houtput hroot
  -- Threads change no range that is known, so all loops are still as the relations left them.
  have hsame : ∀ id ∈ stage.defined, flowed.ranges.get? id = inferred.ranges.get? id := by
    intro id hid
    have hsome : (flowed.ranges.get? id).isSome := by
      rcases List.mem_append.mp hid with hroot | hmade
      · rw [hframe id hroot]
        exact hknown id hroot
      · exact hwrites.known id hmade
    obtain ⟨range, hrange⟩ := Option.isSome_iff_exists.mp hsome
    rw [hrange, hkeeps id range hrange]
  have hroots : ∀ root ∈ stage.roots, inferred.ranges.get? root = state.ranges.get? root :=
    fun root hroot => by rw [← hsame root (mem_defined_of_mem_roots hroot), hframe root hroot]
  have hrootExtents : ∀ root ∈ stage.roots,
      ∃ extent, inferred.ranges.HasExtent root extent ∧ 1 ≤ extent := by
    intro root hroot
    simp only [IterMap.HasExtent, hroots root hroot]
    exact hseeds.roots root hroot
  have hstep : ∀ relation ∈ stage.relations,
      (∀ id ∈ relation.inputs, ∃ extent, inferred.ranges.HasExtent id extent ∧ 1 ≤ extent) →
      (∀ id ∈ relation.outputs, ∃ extent, Counts inferred.ranges id extent ∧ 1 ≤ extent) ∧
        stage.Pads inferred.ranges relation := by
    intro relation hrelation hinputs
    have hrecorded := isLocal_rangesRecorded stage _ _ relation
      (fun id hid => hsame id (h.mem_defined_of_mem_relation hrelation hid))
      (hwrites.conditions relation hrelation)
    obtain ⟨dtype, hsize⟩ := hseeds.sizes relation hrelation
    exact hrecorded.pads hseeds.consistent
      (fun id hid range hrange => (hseeds.others id
        (h.not_mem_roots_of_mem_outputs hrelation hid) range hrange).2)
      (hwithin relation hrelation) hinputs h hrelation hsize
  have hextents := h.induction_down hrootExtents fun relation hrelation hinputs id hid =>
    ((hstep relation hrelation hinputs).1 id hid).imp fun extent hcounts =>
      ⟨hcounts.1.hasExtent, hcounts.2⟩
  have hall := fun relation (hrelation : relation ∈ stage.relations) =>
    hstep relation hrelation fun id hid =>
      hextents id (h.mem_defined_of_mem_inputs hrelation hid)
  have hliteral : ∀ id, ∀ range ∈ flowed.ranges.get? id, ∃ extent, range.HasExtent extent := by
    intro id range hrange
    by_cases hdefined : id ∈ stage.defined
    · obtain ⟨extent, ⟨found, hfound, hextent⟩, -⟩ := hextents id hdefined
      rw [← hsame id hdefined] at hfound
      obtain rfl := Option.some.inj (hfound.symm.trans hrange)
      exact ⟨extent, hextent⟩
    · rw [hwrites.frame id fun hmade => hdefined (List.mem_append_right _ hmade)] at hrange
      exact (hseeds.others id (fun hroot => hdefined (mem_defined_of_mem_roots hroot)) range
        hrange).2
  have hfree : flowed.facts.Consistent := by
    rw [Facts.Consistent, hwrites.invariant]
    exact hseeds.consistent
  exact ⟨fun root hroot => ⟨hroots root hroot, hrootExtents root hroot⟩,
    fun relation hrelation => (hall relation hrelation).1,
    fun relation hrelation => (hall relation hrelation).2,
    fun leaf thread hthread => foldlM_inferThreadRange_records hthreads hfree hliteral
      (leaf, thread) (IterMap.mem_toList.mpr hthread)⟩

/-- Whatever commands put a stage together, inference from literal ranges pads all its loops,
if it goes through and no extent wraps. -/
theorem rangesDown_pads (name : String) (scope : StorageScope) (commands : List Command)
    (hseeds : ((Stage.empty name scope).executeAll commands).SeedsLiterally state)
    (hdown : ((Stage.empty name scope).executeAll commands).rangesDown false state = .ok inferred)
    (hwithin : ∀ relation ∈ ((Stage.empty name scope).executeAll commands).relations,
      ((Stage.empty name scope).executeAll commands).ComputesWithin inferred.ranges relation) :
    ((Stage.empty name scope).executeAll commands).Padded state.ranges inferred.ranges :=
  ((Assembled.empty name scope).executeAll commands).toLinked.padded_of_rangesDown hseeds hdown
    hwithin

/-- A root split by a factor, the inner loop of which runs on a thread, and a shorter one split
into more parts than it has iterations. -/
def paddedNest : List Command :=
  [.root "i" (.const .int32 100), .split ⟨0⟩ (.const .int32 8), .bindThread ⟨2⟩ "threadIdx.x",
    .root "j" (.const .int32 3), .splitIntoParts ⟨4⟩ (.const .int32 5), .fuse ⟨5⟩ ⟨6⟩,
    .rebase ⟨7⟩, .singleton "one"]

/-- The ranges of the roots, one of which does not start at zero, and that of the thread. -/
def paddedSeeds : Inference :=
  ((Inference.empty.insert ⟨0⟩ ⟨.iteration 0, "i", .int32⟩ (.between .int32 7 100)).insert ⟨4⟩
    ⟨.iteration 4, "j", .int32⟩ (.between .int32 0 3)).insert ⟨3⟩
      ⟨.iteration 3, "threadIdx.x", .int32⟩ (.between .int64 0 8)

theorem rangesDown_pads_of_paddedNest : ∃ inferred,
    let stage := (Stage.empty "stage" .globalMemory).executeAll paddedNest
    stage.SeedsLiterally paddedSeeds ∧ stage.rangesDown false paddedSeeds = .ok inferred ∧
      (∀ relation ∈ stage.relations, stage.ComputesWithin inferred.ranges relation) ∧
      stage.Padded paddedSeeds.ranges inferred.ranges := by
  have hseeds : ((Stage.empty "stage" .globalMemory).executeAll paddedNest).SeedsLiterally
      paddedSeeds := by
    refine ⟨Facts.consistent_of_unconstrained rfl, ?_, ?_, fun id hroot range hrange => ?_⟩
    · change ∀ relation ∈ [.split ⟨0⟩ ⟨1⟩ ⟨2⟩ (.factor (.const .int32 8)),
        .split ⟨4⟩ ⟨5⟩ ⟨6⟩ (.parts (.const .int32 5)), .fuse ⟨5⟩ ⟨6⟩ ⟨7⟩, .rebase ⟨7⟩ ⟨8⟩,
        .singleton ⟨9⟩], ∃ dtype, Relation.HasConstSize dtype relation
      simp only [List.forall_mem_cons]
      exact ⟨⟨.int32, 8, rfl, by decide, by decide⟩, ⟨.int32, 5, rfl, by decide, by decide⟩,
        ⟨.int32, trivial⟩, ⟨.int32, trivial⟩, ⟨.int32, trivial⟩, by simp⟩
    · change ∀ root ∈ [⟨0⟩, ⟨4⟩], ∃ extent, paddedSeeds.ranges.HasExtent root extent ∧ 1 ≤ extent
      simp only [List.forall_mem_cons]
      exact ⟨⟨100, ⟨_, rfl, .int32, rfl, by decide⟩, by decide⟩,
        ⟨3, ⟨_, rfl, .int32, rfl, by decide⟩, by decide⟩, by simp⟩
    · replace hroot : id ∉ [⟨0⟩, ⟨4⟩] := hroot
      simp only [List.mem_cons, List.not_mem_nil, or_false, not_or] at hroot
      rw [paddedSeeds, Inference.get?_insert, Inference.get?_insert, if_neg hroot.2,
        Inference.get?_insert, if_neg hroot.1] at hrange
      split at hrange
      · obtain rfl := Option.some.inj hrange
        exact ⟨rfl, 8, .int64, rfl, by decide⟩
      · cases hrange
  have hdown : ∃ inferred,
      ((Stage.empty "stage" .globalMemory).executeAll paddedNest).rangesDown false paddedSeeds =
        .ok inferred ∧
      ∀ relation ∈ ((Stage.empty "stage" .globalMemory).executeAll paddedNest).relations,
        ((Stage.empty "stage" .globalMemory).executeAll paddedNest).ComputesWithin
          inferred.ranges relation := by
    exact ⟨_, rfl, by decide⟩
  obtain ⟨inferred, hdown, hwithin⟩ := hdown
  exact ⟨inferred, hseeds, hdown, hwithin, rangesDown_pads _ _ _ hseeds hdown hwithin⟩

end Stage

end LoopNest
