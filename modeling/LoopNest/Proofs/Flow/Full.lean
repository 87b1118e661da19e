/-
# Full sets stay full

Where every leaf takes its whole range, every loop does, and this is found out whatever the
ranges are: with symbolic ends of any type, under any facts, however little these say. The
pass recognizes a full set by subtracting its ends from those of the range, and equal ends
cancel in the linear form of the difference before any bound is asked for. So a set that the
pass has made itself is recognized by the next relation, interval arithmetic is never tried,
and no projection is found to be misaligned.

The invariant is that every set found so far is the one of the range, as a tree and not only
up to what can be proved.
-/

import LoopNest.Proofs.Expr.Cancellation
import LoopNest.Proofs.Flow.Accesses
import LoopNest.Proofs.Flow.RoundTrip

namespace LoopNest

namespace Facts

theorem simplify_zero (facts : Facts) (dtype : DType) :
    facts.simplify (.zero dtype) = .zero dtype := rfl

/-- Under any facts the difference of an expression with itself is found to be zero. Its
bounds are not asked for. -/
theorem isZero_simplify_sub_self (facts : Facts) (e : Expr) :
    (facts.simplify (e.sub e)).isZero = true := by
  rcases Expr.sub_self_cases e with hsub | hsub
  · rw [hsub, simplify_zero, Expr.isZero_zero]
  · have hnode : facts.simplify (e.sub e) =
        facts.collapse ((facts.simplify e).sub (facts.simplify e)).normalize := by
      rw [hsub]
      rfl
    rw [hnode, Expr.normalize_sub_self]
    exact Expr.isZero_zero _

end Facts

/-- A range fills itself, under any facts. -/
theorem ValueSet.fills_ofRange (range : Range) (facts : Facts) :
    (ofRange range).fills range facts = true := by
  simp only [fills, ofRange, between, min?, max?, facts.isZero_simplify_sub_self, Bool.and_self]

namespace Stage

variable {stage : Stage} {ranges : IterMap Range} {relation : Relation} {facts : Facts}
  {state next : Accesses} {id : IterId} {range : Range} {set : ValueSet}

/-- Every set that was found is that of the range, and no projection was misaligned. -/
structure AllFull (ranges : IterMap Range) (state : Accesses) : Prop where
  sets : ∀ id set, state.sets.get? id = some set →
    ∃ range, ranges.get? id = some range ∧ set = .ofRange range
  aligned : state.misaligned = 0

namespace AllFull

theorem eq_ofRange (h : AllFull ranges state) (hset : state.sets.get? id = some set)
    (hrange : ranges.get? id = some range) : set = .ofRange range := by
  obtain ⟨found, hfound, rfl⟩ := h.sets id set hset
  rw [Option.some.inj (hfound.symm.trans hrange)]

theorem insert (h : AllFull ranges state) (hrange : ranges.get? id = some range) :
    AllFull ranges (state.insert id (.ofRange range)) := by
  refine ⟨fun other set hset => ?_, h.aligned⟩
  rw [Accesses.insert, IterMap.get?_insert] at hset
  split at hset
  · rename_i heq
    exact ⟨range, heq ▸ hrange, (Option.some.inj hset).symm⟩
  · exact h.sets other set hset

/-- One relation upward: full sets are recognized, and full sets are written. -/
theorem liftAccesses (h : AllFull ranges state)
    (hnext : stage.liftAccesses ranges facts state relation = .ok next) :
    AllFull ranges next := by
  cases relation with
  | split parent outer inner size =>
      simp only [Stage.liftAccesses, bind_eq_ok] at hnext
      obtain ⟨outerSet, houterSet, innerSet, hinnerSet, outerRange, houter, innerRange, hinner,
        parentRange, hparent, hnext⟩ := hnext
      obtain rfl := h.eq_ofRange (get?_of_require houterSet) (get?_of_require houter)
      obtain rfl := h.eq_ofRange (get?_of_require hinnerSet) (get?_of_require hinner)
      rw [ValueSet.fills_ofRange, ValueSet.fills_ofRange, Bool.and_self, if_pos rfl] at hnext
      exact Except.ok.inj hnext ▸ h.insert (get?_of_require hparent)
  | fuse outer inner fused =>
      simp only [Stage.liftAccesses, bind_eq_ok] at hnext
      obtain ⟨fusedSet, hfusedSet, outerRange, houter, innerRange, hinner, fusedRange, hfused,
        hnext⟩ := hnext
      obtain rfl := h.eq_ofRange (get?_of_require hfusedSet) (get?_of_require hfused)
      rw [ValueSet.fills_ofRange, if_pos rfl] at hnext
      exact Except.ok.inj hnext ▸
        (h.insert (get?_of_require houter)).insert (get?_of_require hinner)
  | rebase parent rebased =>
      simp only [Stage.liftAccesses, bind_eq_ok] at hnext
      obtain ⟨rebasedSet, hset, rebasedRange, hrebased, parentRange, hparent, hnext⟩ := hnext
      obtain rfl := h.eq_ofRange (get?_of_require hset) (get?_of_require hrebased)
      rw [ValueSet.fills_ofRange, if_pos rfl] at hnext
      exact Except.ok.inj hnext ▸ h.insert (get?_of_require hparent)
  | singleton iter => exact Except.ok.inj hnext ▸ h

end AllFull

/-- Each leaf takes its whole range. -/
def fullLeaves (stage : Stage) (ranges : IterMap Range) : Accesses :=
  ⟨.ofList (stage.leaves.filterMap fun leaf =>
    (ranges.get? leaf).map fun range => (leaf, .ofRange range)), 0⟩

theorem get?_fullLeaves (stage : Stage) (ranges : IterMap Range) (id : IterId) :
    (stage.fullLeaves ranges).sets.get? id =
      if id ∈ stage.leaves then (ranges.get? id).map .ofRange else none := by
  rw [← IterMap.get?_ofList_filterMap _ fun id => (ranges.get? id).map ValueSet.ofRange]
  simp only [fullLeaves, Option.map_map]
  rfl

theorem allFull_fullLeaves (stage : Stage) (ranges : IterMap Range) :
    AllFull ranges (stage.fullLeaves ranges) := by
  refine ⟨fun id set hset => ?_, rfl⟩
  rw [get?_fullLeaves] at hset
  split at hset
  · obtain ⟨range, hrange, rfl⟩ := Option.map_eq_some_iff.mp hset
    exact ⟨range, hrange, rfl⟩
  · cases hset

/-- All relations upward: the sets of all loops are those of their ranges. -/
theorem Linked.accessesUp_fullLeaves (h : stage.Linked) (hvars : stage.HasVars)
    (hranges : stage.HasRanges ranges) (facts : Facts) :
    ∃ final, stage.accessesUp ranges facts (stage.fullLeaves ranges) = .ok final ∧
      final.misaligned = 0 ∧
      ∀ id ∈ stage.defined, final.sets.get? id = (ranges.get? id).map .ofRange := by
  have hleaves : ∀ leaf ∈ stage.leaves,
      ((stage.fullLeaves ranges).sets.get? leaf).isSome = true := by
    intro leaf hleaf
    obtain ⟨range, hrange⟩ := hranges leaf (h.mem_defined_of_mem_leaves hleaf)
    rw [get?_fullLeaves, if_pos hleaf, hrange]
    rfl
  have hstep : ∀ state, ∀ relation ∈ stage.relations, AllFull ranges state →
      (∀ id ∈ relation.outputs, (state.sets.get? id).isSome) →
      ∃ next, Halt.atomically (stage.liftAccesses ranges facts) state relation = .ok next ∧
        Writes (fun state => state.sets.get?) (AllFull ranges) (fun _ _ => True) [relation]
          relation.inputs state next := by
    intro state relation hrelation hstate hready
    obtain ⟨next, hnext, hwrites⟩ := h.liftAccesses_ok hvars hranges facts hrelation hready
    exact ⟨next, by rw [Halt.atomically, hnext, Halt.keeping_ok], hstate.liftAccesses hnext,
      hwrites.known, hwrites.frame, fun _ _ => trivial⟩
  obtain ⟨final, hflow, hwrites⟩ := h.flowUp_ok (fun _ _ _ _ _ => trivial) hstep
    (stage.allFull_fullLeaves ranges) hleaves
  refine ⟨final, hflow, hwrites.invariant.aligned, fun id hid => ?_⟩
  obtain ⟨range, hrange⟩ := hranges id hid
  have hfound : (final.sets.get? id).isSome = true := by
    rcases List.mem_append.mp (h.fate.symm.subset hid) with hleaf | hused
    · rw [hwrites.frame id (h.not_mem_consumed_of_mem_leaves hleaf)]
      exact hleaves id hleaf
    · exact hwrites.known id hused
  obtain ⟨set, hset⟩ := Option.isSome_iff_exists.mp hfound
  rw [hset, hrange, hwrites.invariant.eq_ofRange hset hrange]
  rfl

/-- If the leaves of a stage that commands put together take their whole ranges, then so does
every loop, no projection is misaligned, and the sets are the trees that are made from the
ranges. A range is always found to fill itself. -/
theorem accessesUp_full (name : String) (scope : StorageScope) (commands : List Command) :
    let stage := (Stage.empty name scope).executeAll commands
    (∀ ranges facts, stage.HasRanges ranges →
        ∃ final, stage.accessesUp ranges facts (stage.fullLeaves ranges) = .ok final ∧
          final.misaligned = 0 ∧
          ∀ id ∈ stage.defined, final.sets.get? id = (ranges.get? id).map .ofRange) ∧
      ∀ range facts, (ValueSet.ofRange range).fills range facts = true := by
  intro stage
  have h : stage.Assembled _ := (Assembled.empty name scope).executeAll commands
  exact ⟨fun ranges facts hranges => h.toLinked.accessesUp_fullLeaves h.hasVars hranges facts,
    ValueSet.fills_ofRange⟩

/-- A stage of loops of two types with all relations that derive a loop. -/
def shiftedNest : List Command :=
  [.root "i" (.var ⟨.parameter 0, "n", .int32⟩), .split ⟨0⟩ (.var ⟨.parameter 1, "f", .int64⟩),
    .root "j" (.var ⟨.parameter 2, "m", .int64⟩), .fuse ⟨2⟩ ⟨3⟩, .rebase ⟨4⟩]

/-- Ranges of the loops of `shiftedNest`, which start and end at symbols. -/
def shiftedRanges : IterMap Range :=
  .ofList ((List.range 6).map fun index =>
    (⟨index⟩, ⟨.var ⟨.parameter 3, "b", .int32⟩, .var ⟨.parameter (4 + index), "e", .int64⟩⟩))

theorem accessesUp_full_of_shiftedNest :
    let stage := (Stage.empty "stage" .globalMemory).executeAll shiftedNest
    stage.HasRanges shiftedRanges ∧
      ∃ final, stage.accessesUp shiftedRanges .empty (stage.fullLeaves shiftedRanges) = .ok final ∧
        final.misaligned = 0 ∧
        ∀ id ∈ stage.defined, final.sets.get? id = (shiftedRanges.get? id).map .ofRange := by
  have hranges :
      ((Stage.empty "stage" .globalMemory).executeAll shiftedNest).HasRanges shiftedRanges := by
    have hknown : ∀ id ∈ ((Stage.empty "stage" .globalMemory).executeAll shiftedNest).defined,
        (shiftedRanges.get? id).isSome = true := by
      decide
    exact fun id hid => Option.isSome_iff_exists.mp (hknown id hid)
  exact ⟨hranges,
    (accessesUp_full "stage" .globalMemory shiftedNest).1 shiftedRanges .empty hranges⟩

end Stage

end LoopNest
