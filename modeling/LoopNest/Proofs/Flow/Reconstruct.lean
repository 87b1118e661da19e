/-
# Reconstructing indices

On a linked stage whose loops have ranges, both passes over indices go through. Upward, each
relation puts the indices of what it consumes together from those of what it makes. Downward,
it takes them apart, if the ranges that have to start at zero literally do; a relation that
may skip offsets writes nothing where they do not.

What a pass has written is described by one equation for each relation, whatever the ranges
and the indices are.
-/

import LoopNest.Lowering
import LoopNest.Proofs.Flow.Inference
import LoopNest.Proofs.Stage.IterMap

namespace LoopNest

/-- The loops whose ranges have to start at zero for a relation to take indices apart. -/
def Relation.zeroBased : Relation → List IterId
  | .split _ _ inner _ => [inner]
  | .fuse outer inner _ => [outer, inner]
  | .rebase parent _ => [parent]
  | .singleton _ => []

namespace Stage

variable {stage : Stage} {ranges : IterMap Range} {relation : Relation}
  {state seed : IterMap Expr}

/-- Every loop has a range. -/
def HasRanges (stage : Stage) (ranges : IterMap Range) : Prop :=
  ∀ id ∈ stage.defined, ∃ range, ranges.get? id = some range

theorem require_eq_ok {α : Type} {values : IterMap α} {id : IterId} {value : α} {pass : PassName}
    (h : values.get? id = some value) : stage.require pass values id = .ok value := by
  rw [require, h]

theorem get?_of_require {α : Type} {values : IterMap α} {id : IterId} {value : α}
    {pass : PassName} (h : stage.require pass values id = .ok value) :
    values.get? id = some value := by
  rw [require] at h
  split at h
  · rename_i hfound
    exact Except.ok.inj h ▸ hfound
  · cases h

section Up

/-- What a relation consumes has the indices that are put together from those of what it
makes. -/
def IndicesRaised (stage : Stage) (ranges : IterMap Range) (indices : IterId → Option Expr) :
    Relation → Prop
  | .split parent outer inner _ => ∀ outerIndex innerIndex innerRange parentRange iv,
    indices outer = some outerIndex → indices inner = some innerIndex →
      ranges.get? inner = some innerRange → ranges.get? parent = some parentRange →
      stage.iterVar? parent = some iv →
        indices parent = some ((((outerIndex.mul innerRange.extent).add innerIndex).offsetBy
          parentRange.min).castTo iv.dtype)
  | .fuse outer inner fused => ∀ index outerRange innerRange outerVar innerVar,
    indices fused = some index →
      ranges.get? outer = some outerRange → ranges.get? inner = some innerRange →
      stage.iterVar? outer = some outerVar → stage.iterVar? inner = some innerVar →
        indices outer = some (((index.floorDiv innerRange.extent).offsetBy
            outerRange.min).castTo outerVar.dtype) ∧
          indices inner = some (((index.floorMod innerRange.extent).offsetBy
            innerRange.min).castTo innerVar.dtype)
  | .rebase parent rebased => ∀ index parentRange, indices rebased = some index →
    ranges.get? parent = some parentRange →
      indices parent = some (index.offsetBy parentRange.min)
  | .singleton _ => True

theorem isLocal_indicesRaised (stage : Stage) (ranges : IterMap Range) :
    IsLocal (stage.IndicesRaised ranges) := by
  intro relation left right hsame hraised
  have hread : ∀ id ∈ relation.inputs ++ relation.outputs, right id = left id :=
    fun id hid => (hsame id hid).symm
  cases relation with
  | split | fuse | rebase =>
      simp only [Relation.inputs, Relation.outputs, List.cons_append, List.nil_append,
        List.forall_mem_cons] at hread
      simpa [IndicesRaised, hread] using hraised
  | singleton iter => trivial

/-- One relation upward. -/
theorem Linked.liftIndex_ok (h : stage.Linked) (hvars : stage.HasVars)
    (hranges : stage.HasRanges ranges) (hrelation : relation ∈ stage.relations)
    (hready : ∀ id ∈ relation.outputs, (state.get? id).isSome) :
    ∃ next, stage.liftIndex ranges false state relation = .ok next ∧
      Writes IterMap.get? (fun _ => True) (stage.IndicesRaised ranges) [relation] relation.inputs
        state next := by
  have hvar : ∀ id ∈ relation.inputs, ∃ iv, stage.iterVar? id = some iv :=
    fun id hid => hvars id (h.mem_defined_of_mem_inputs hrelation hid)
  have hinput : ∀ id ∈ relation.inputs, ∃ range, ranges.get? id = some range :=
    fun id hid => hranges id (h.mem_defined_of_mem_inputs hrelation hid)
  have houtput : ∀ id ∈ relation.outputs, ∃ range, ranges.get? id = some range :=
    fun id hid => hranges id (mem_defined_of_mem_outputs hrelation hid)
  have hapart := h.apart relation hrelation
  have hnodup := h.nodup_inputs hrelation
  cases relation with
  | split parent outer inner size =>
      simp only [Relation.inputs, Relation.outputs, List.mem_cons, List.not_mem_nil, or_false,
        not_or, forall_eq, forall_eq_or_imp, Option.isSome_iff_exists] at *
      obtain ⟨⟨outerIndex, houter⟩, innerIndex, hinner⟩ := hready
      obtain ⟨iv, hiv⟩ := hvar
      obtain ⟨parentRange, hparent⟩ := hinput
      obtain ⟨-, innerRange, hrange⟩ := houtput
      let index := (outerIndex.mul innerRange.extent).add innerIndex
      refine ⟨state.insert parent ((index.offsetBy parentRange.min).castTo iv.dtype), ?_,
        .insert trivial rfl ?_⟩
      · simp only [liftIndex, readBoth?, houter, hinner, require_eq_ok hrange,
          require_eq_ok hparent, iterVar_eq_ok hiv, ok_bind]
        rfl
      · intro outerIndex' innerIndex' innerRange' parentRange' iv'
        simp only [IterMap.get?_insert, Ne.symm hapart.1, Ne.symm hapart.2, if_false, if_true,
          houter, hinner, hrange, hparent, hiv, Option.some.injEq]
        rintro rfl rfl rfl rfl rfl
        rfl
  | fuse outer inner fused =>
      simp only [Relation.inputs, Relation.outputs, List.mem_cons, List.not_mem_nil, or_false,
        forall_eq, forall_eq_or_imp, List.nodup_cons, Option.isSome_iff_exists] at *
      obtain ⟨index, hindex⟩ := hready
      obtain ⟨⟨outerVar, houterVar⟩, innerVar, hinnerVar⟩ := hvar
      obtain ⟨⟨outerRange, houter⟩, innerRange, hinner⟩ := hinput
      let quotient := (index.floorDiv innerRange.extent).offsetBy outerRange.min
      let remainder := (index.floorMod innerRange.extent).offsetBy innerRange.min
      refine ⟨(state.insert outer (quotient.castTo outerVar.dtype)).insert inner
        (remainder.castTo innerVar.dtype), ?_, .insert_insert trivial rfl ?_⟩
      · simp only [liftIndex, read?, hindex, require_eq_ok houter, require_eq_ok hinner,
          iterVar_eq_ok houterVar, iterVar_eq_ok hinnerVar, Halt.keeping_ok, ok_bind]
        rfl
      · intro index' outerRange' innerRange' outerVar' innerVar'
        simp only [IterMap.get?_insert, hnodup, Ne.symm hapart.1, Ne.symm hapart.2, if_false,
          if_true, hindex, houter, hinner, houterVar, hinnerVar, Option.some.injEq]
        rintro rfl rfl rfl rfl rfl
        exact ⟨rfl, rfl⟩
  | rebase parent rebased =>
      simp only [Relation.inputs, Relation.outputs, List.mem_cons, List.not_mem_nil, or_false,
        forall_eq, Option.isSome_iff_exists] at *
      obtain ⟨index, hindex⟩ := hready
      obtain ⟨parentRange, hparent⟩ := hinput
      refine ⟨state.insert parent (index.offsetBy parentRange.min), ?_, .insert trivial rfl ?_⟩
      · simp only [liftIndex, read?, hindex, require_eq_ok hparent, ok_bind]
        rfl
      · intro index' parentRange'
        simp only [IterMap.get?_insert, Ne.symm hapart, if_false, if_true, hindex, hparent,
          Option.some.injEq]
        rintro rfl rfl
        rfl
  | singleton iter =>
      refine ⟨state, rfl, trivial, by simp [Relation.inputs], fun _ _ => rfl, ?_⟩
      rw [List.forall_mem_singleton]
      trivial

/-- What is known once the indices of all loops were computed from those of the leaves. -/
structure Raises (stage : Stage) (ranges : IterMap Range) (seed indices : IterMap Expr) :
    Prop where
  known : ∀ id ∈ stage.defined, (indices.get? id).isSome
  leaves : ∀ id ∈ stage.leaves, indices.get? id = seed.get? id
  relations : ∀ relation ∈ stage.relations, stage.IndicesRaised ranges indices.get? relation

/-- All relations upward: every loop gets its index. -/
theorem Linked.indicesUp_ok (h : stage.Linked) (hvars : stage.HasVars)
    (hranges : stage.HasRanges ranges) (hleaves : ∀ id ∈ stage.leaves, (seed.get? id).isSome) :
    ∃ indices, stage.indicesUp ranges false seed = .ok indices ∧
      stage.Raises ranges seed indices := by
  obtain ⟨indices, hflow, hwrites⟩ := h.flowUp_ok (isLocal_indicesRaised stage ranges)
    (fun _ _ hrelation _ => h.liftIndex_ok hvars hranges hrelation) trivial hleaves
  have hleaf : ∀ id ∈ stage.leaves, id ∉ stage.consumed := by
    have hnodup := h.fate.nodup_iff.mpr h.origin
    exact fun id hid hused => (List.nodup_append'.mp hnodup).2.2 hid hused
  refine ⟨indices, hflow, fun id hid => ?_, fun id hid => hwrites.frame id (hleaf id hid),
    hwrites.conditions⟩
  rcases List.mem_append.mp (h.fate.symm.subset hid) with hid | hused
  · rw [hwrites.frame id (hleaf id hid)]
    exact hleaves id hid
  · exact hwrites.known id hused

end Up

section Down

/-- The ranges that have to start at zero literally do. -/
def StartsAtZero (ranges : IterMap Range) (relation : Relation) : Prop :=
  ∀ id ∈ relation.zeroBased, ∀ range ∈ ranges.get? id, range.min.isZero = true

theorem mem_of_mem_zeroBased {id : IterId} (h : id ∈ relation.zeroBased) :
    id ∈ relation.inputs ++ relation.outputs := by
  cases relation with
  | split | rebase =>
      rw [Relation.zeroBased, List.mem_singleton] at h
      simp [Relation.inputs, Relation.outputs, h]
  | fuse => exact List.mem_append_left _ h
  | singleton => cases h

/-- The indices of what a relation makes are those of what it consumes, taken apart. -/
def TakenApart (stage : Stage) (ranges : IterMap Range) (indices : IterId → Option Expr) :
    Relation → Prop
  | .split parent outer inner _ => ∀ range, ranges.get? inner = some range →
    indices outer = (indices parent).map (·.floorDiv range.extent) ∧
      indices inner = (indices parent).map (·.floorMod range.extent)
  | .fuse outer inner fused => ∀ range, ranges.get? inner = some range →
    indices fused = (indices outer).bind fun outerIndex => (indices inner).map fun innerIndex =>
      (outerIndex.mul range.extent).add innerIndex
  | .rebase parent rebased => indices rebased = indices parent
  | .singleton iter => ∀ iv, stage.iterVar? iter = some iv → indices iter = some (.zero iv.dtype)

/-- What a relation makes has an index where the relation can take indices apart, and only
there. -/
def IndicesLowered (stage : Stage) (ranges : IterMap Range) (indices : IterId → Option Expr)
    (relation : Relation) : Prop :=
  (StartsAtZero ranges relation → stage.TakenApart ranges indices relation) ∧
    (¬StartsAtZero ranges relation → ∀ id ∈ relation.outputs, indices id = none)

theorem isLocal_indicesLowered (stage : Stage) (ranges : IterMap Range) :
    IsLocal (stage.IndicesLowered ranges) := by
  intro relation left right hsame hlowered
  have hread : ∀ id ∈ relation.inputs ++ relation.outputs, right id = left id :=
    fun id hid => (hsame id hid).symm
  cases relation with
  | split | fuse | rebase | singleton =>
      simp only [Relation.inputs, Relation.outputs, List.cons_append, List.nil_append,
        List.forall_mem_cons] at hread
      simpa [IndicesLowered, TakenApart, Relation.outputs, hread] using hlowered

variable {lenient : Bool} {pass : PassName} {id id' : IterId}

theorem readBoth?_eq_ok (h : lenient = true ∨ (state.get? id).isSome = true)
    (h' : lenient = true ∨ (state.get? id').isSome = true) :
    stage.readBoth? pass lenient state id id' =
      .ok ((state.get? id).bind fun left => (state.get? id').map (left, ·)) := by
  rw [readBoth?]
  cases hfound : state.get? id with
  | none =>
      rw [hfound] at h
      rw [h.resolve_right (by simp)]
      rfl
  | some index =>
      cases hfound' : state.get? id' with
      | some index' => rfl
      | none =>
          rw [hfound'] at h'
          rw [h'.resolve_right (by simp)]
          rfl

theorem startsAtZero_eq_ok {range : Range} (h : lenient = true ∨ range.min.isZero = true) :
    stage.startsAtZero lenient id range = .ok range.min.isZero := by
  rw [startsAtZero]
  cases hzero : range.min.isZero with
  | true => rfl
  | false =>
      rw [hzero] at h
      rw [h.resolve_right (by simp)]
      rfl

/-- A part of a pass downward. One that may skip relations need not give every loop an
index. -/
abbrev Takes (stage : Stage) (ranges : IterMap Range) (lenient : Bool)
    (relations : List Relation) (targets : List IterId) (state next : IterMap Expr) : Prop :=
  Completes (fun index => lenient = true ∨ index.isSome = true) IterMap.get? (fun _ => True)
    (stage.IndicesLowered ranges) relations targets state next

theorem Writes.takes {targets : List IterId} {next : IterMap Expr}
    (h : Writes IterMap.get? (fun _ => True) (stage.IndicesLowered ranges) [relation] targets state
      next) : stage.Takes ranges lenient [relation] targets state next :=
  ⟨h.invariant, fun id hid => .inr (h.known id hid), h.frame, h.conditions⟩

/-- A lenient pass may skip a relation: it does where an index is missing or a range has an
offset. -/
theorem takes_unchanged (hlenient : lenient = true)
    (hnew : ∀ id ∈ relation.outputs, state.get? id = none)
    (htaken : StartsAtZero ranges relation → stage.TakenApart ranges state.get? relation) :
    stage.Takes ranges lenient [relation] relation.outputs state state :=
  ⟨trivial, fun _ _ => .inl hlenient, fun _ _ => rfl, by simpa using ⟨htaken, fun _ => hnew⟩⟩

/-- One relation downward. -/
theorem Linked.lowerIndex_ok (h : stage.Linked) (hvars : stage.HasVars)
    (hranges : stage.HasRanges ranges) (hrelation : relation ∈ stage.relations)
    (hzero : lenient = true ∨ StartsAtZero ranges relation)
    (hready : ∀ id ∈ relation.inputs, lenient = true ∨ (state.get? id).isSome = true)
    (hnew : ∀ id ∈ relation.outputs, state.get? id = none) :
    ∃ next, stage.lowerIndex ranges lenient lenient state relation = .ok next ∧
      stage.Takes ranges lenient [relation] relation.outputs state next := by
  have hinput : ∀ id ∈ relation.inputs, ∃ range, ranges.get? id = some range :=
    fun id hid => hranges id (h.mem_defined_of_mem_inputs hrelation hid)
  have houtput : ∀ id ∈ relation.outputs, ∃ range, ranges.get? id = some range :=
    fun id hid => hranges id (mem_defined_of_mem_outputs hrelation hid)
  have hvar : ∀ id ∈ relation.outputs, ∃ iv, stage.iterVar? id = some iv :=
    fun id hid => hvars id (mem_defined_of_mem_outputs hrelation hid)
  have hskip : ∀ id ∈ relation.zeroBased, ∀ range, ranges.get? id = some range →
      stage.startsAtZero lenient id range = .ok range.min.isZero :=
    fun id hid range hrange => startsAtZero_eq_ok (hzero.imp_right fun hzero =>
      hzero id hid range hrange)
  have hapart := h.apart relation hrelation
  have hnodup := h.nodup_outputs hrelation
  have hunwritten := hnew
  cases relation with
  | split parent outer inner size =>
      simp only [Relation.inputs, Relation.outputs, Relation.zeroBased, List.mem_cons,
        List.not_mem_nil, or_false, not_or, forall_eq, forall_eq_or_imp, List.nodup_cons,
        StartsAtZero] at hinput houtput hvar hskip hapart hnodup hready hnew hzero
      obtain ⟨-, range, hrange⟩ := houtput
      have hstart : StartsAtZero ranges (.split parent outer inner size) ↔
          range.min.isZero = true := by
        simp [StartsAtZero, Relation.zeroBased, hrange]
      simp only [lowerIndex, read?_eq_ok hready, require_eq_ok hrange, hskip range hrange, ok_bind]
      cases hparent : state.get? parent with
      | none =>
          rw [hparent] at hready
          exact ⟨state, rfl, takes_unchanged (hready.resolve_right (by simp)) hunwritten
            fun _ _ _ => by simp [hnew, hparent]⟩
      | some index =>
          by_cases hat : range.min.isZero = true
          · refine ⟨(state.insert outer (index.floorDiv range.extent)).insert inner
              (index.floorMod range.extent), by rw [hat]; rfl,
              (Writes.insert_insert trivial rfl ⟨fun _ other hother => ?_, ?_⟩).takes⟩
            · obtain rfl := Option.some.inj (hrange.symm.trans hother)
              simp [IterMap.get?_insert, hnodup, hapart, hparent]
            · exact absurd (hstart.mpr hat)
          · have hlenient : lenient = true := hzero.resolve_right fun h => hat (h range hrange)
            exact ⟨state, by rw [Bool.not_eq_true] at hat; rw [hat]; rfl,
              takes_unchanged hlenient hunwritten fun h => absurd (hstart.mp h) hat⟩
  | fuse outer inner fused =>
      simp only [Relation.inputs, Relation.outputs, Relation.zeroBased, List.mem_cons,
        List.not_mem_nil, or_false, forall_eq, forall_eq_or_imp, StartsAtZero]
        at hinput houtput hvar hskip hapart hnodup hready hnew hzero
      obtain ⟨⟨outerRange, houter⟩, innerRange, hinner⟩ := hinput
      have hstart : StartsAtZero ranges (.fuse outer inner fused) ↔
          outerRange.min.isZero = true ∧ innerRange.min.isZero = true := by
        simp [StartsAtZero, Relation.zeroBased, houter, hinner]
      simp only [lowerIndex, readBoth?_eq_ok hready.1 hready.2, require_eq_ok houter,
        require_eq_ok hinner, hskip.1 outerRange houter, hskip.2 innerRange hinner, ok_bind]
      cases houterIndex : state.get? outer with
      | none =>
          rw [houterIndex] at hready
          exact ⟨state, rfl, takes_unchanged (hready.1.resolve_right (by simp)) hunwritten
            fun _ _ _ => by simp [hnew, houterIndex]⟩
      | some outerIndex =>
      cases hinnerIndex : state.get? inner with
      | none =>
          rw [hinnerIndex] at hready
          exact ⟨state, rfl, takes_unchanged (hready.2.resolve_right (by simp)) hunwritten
            fun _ _ _ => by simp [hnew, hinnerIndex]⟩
      | some innerIndex =>
          by_cases hat : outerRange.min.isZero = true ∧ innerRange.min.isZero = true
          · refine ⟨state.insert fused ((outerIndex.mul innerRange.extent).add innerIndex),
              by rw [hat.1, hat.2]; rfl,
              (Writes.insert trivial rfl ⟨fun _ other hother => ?_, ?_⟩).takes⟩
            · obtain rfl := Option.some.inj (hinner.symm.trans hother)
              simp [IterMap.get?_insert, hapart, houterIndex, hinnerIndex]
            · exact absurd (hstart.mpr hat)
          · have hlenient : lenient = true :=
              hzero.resolve_right fun h => hat ⟨h.1 outerRange houter, h.2 innerRange hinner⟩
            refine ⟨state, ?_, takes_unchanged hlenient hunwritten fun h =>
              absurd (hstart.mp h) hat⟩
            cases houterZero : outerRange.min.isZero <;>
              cases hinnerZero : innerRange.min.isZero <;> first | rfl | simp_all
  | rebase parent rebased =>
      simp only [Relation.inputs, Relation.outputs, Relation.zeroBased, List.mem_cons,
        List.not_mem_nil, or_false, forall_eq, StartsAtZero]
        at hinput houtput hvar hskip hapart hnodup hready hnew hzero
      obtain ⟨range, hrange⟩ := hinput
      have hstart : StartsAtZero ranges (.rebase parent rebased) ↔ range.min.isZero = true := by
        simp [StartsAtZero, Relation.zeroBased, hrange]
      simp only [lowerIndex, read?_eq_ok hready, require_eq_ok hrange, hskip range hrange, ok_bind]
      cases hparent : state.get? parent with
      | none =>
          rw [hparent] at hready
          exact ⟨state, rfl, takes_unchanged (hready.resolve_right (by simp)) hunwritten
            fun _ => hnew.trans hparent.symm⟩
      | some index =>
          by_cases hat : range.min.isZero = true
          · refine ⟨state.insert rebased index, by rw [hat]; rfl,
              (Writes.insert trivial rfl ⟨fun _ => ?_, ?_⟩).takes⟩
            · simp [TakenApart, IterMap.get?_insert, hapart, hparent]
            · exact absurd (hstart.mpr hat)
          · have hlenient : lenient = true := hzero.resolve_right fun h => hat (h range hrange)
            exact ⟨state, by rw [Bool.not_eq_true] at hat; rw [hat]; rfl,
              takes_unchanged hlenient hunwritten fun h => absurd (hstart.mp h) hat⟩
  | singleton iter =>
      simp only [Relation.outputs, List.mem_singleton, forall_eq] at hvar
      obtain ⟨iv, hiv⟩ := hvar
      refine ⟨state.insert iter (.zero iv.dtype), by simp only [lowerIndex, iterVar_eq_ok hiv]; rfl,
        (Writes.insert trivial rfl ⟨fun _ other hother => ?_, fun h => ?_⟩).takes⟩
      · obtain rfl := Option.some.inj (hiv.symm.trans hother)
        rw [IterMap.get?_insert, if_pos rfl]
      · exact absurd (by simp [StartsAtZero, Relation.zeroBased]) h

/-- What is known once indices were computed from those of the roots. -/
structure TakesApart (stage : Stage) (ranges : IterMap Range) (lenient : Bool)
    (seed indices : IterMap Expr) : Prop where
  known : ∀ id ∈ stage.defined, lenient = true ∨ (indices.get? id).isSome = true
  roots : ∀ id ∈ stage.roots, indices.get? id = seed.get? id
  relations : ∀ relation ∈ stage.relations, stage.IndicesLowered ranges indices.get? relation

section Relations

variable (h : stage.Linked) (hvars : stage.HasVars) (hranges : stage.HasRanges ranges)
variable (hroots : ∀ id ∈ stage.roots, (seed.get? id).isSome)
variable (hnew : ∀ id ∈ stage.relations.flatMap Relation.outputs, seed.get? id = none)
include h hvars hranges hroots hnew

/-- All relations downward. -/
theorem Linked.lowerIndices_ok
    (hzero : ∀ relation ∈ stage.relations, lenient = true ∨ StartsAtZero ranges relation) :
    ∃ indices, stage.flowDown (Halt.atomically (stage.lowerIndex ranges lenient lenient)) seed =
        .ok indices ∧
      stage.TakesApart ranges lenient seed indices := by
  obtain ⟨indices, hflow, htakes⟩ : ∃ indices, _ ∧ stage.Takes ranges lenient _ _ seed indices :=
    h.flowDown_completes (isLocal_indicesLowered stage ranges)
      (fun state relation hrelation _ hready hnew => by
        obtain ⟨next, hnext, htakes⟩ := h.lowerIndex_ok hvars hranges hrelation
          (hzero relation hrelation) hready hnew
        exact ⟨next, congrArg (Halt.keeping state) hnext, htakes⟩)
      trivial (fun id hid => .inr (hroots id hid)) hnew
  have hroot : ∀ id ∈ stage.roots, indices.get? id = seed.get? id := by
    refine fun id hid => htakes.frame id fun hmade => ?_
    obtain ⟨relation, hrelation, houtput⟩ := List.mem_flatMap.mp hmade
    exact h.not_mem_roots_of_mem_outputs hrelation houtput hid
  refine ⟨indices, hflow, fun id hid => ?_, hroot, htakes.conditions⟩
  rcases List.mem_append.mp hid with hid | hmade
  · rw [hroot id hid]
    exact .inr (hroots id hid)
  · exact htakes.known id hmade

/-- Where all ranges that have to start at zero do, every loop gets its index. -/
theorem Linked.indicesDown_ok
    (hzero : ∀ relation ∈ stage.relations, StartsAtZero ranges relation) :
    ∃ indices, stage.indicesDown ranges false seed = .ok indices ∧
      stage.TakesApart ranges false seed indices :=
  h.lowerIndices_ok hvars hranges hroots hnew fun relation hrelation =>
    .inr (hzero relation hrelation)

/-- Indices that cannot be computed are left out. -/
theorem Linked.derivableIndicesDown_ok :
    ∃ indices, stage.derivableIndicesDown ranges seed = .ok indices ∧
      stage.TakesApart ranges true seed indices :=
  h.lowerIndices_ok hvars hranges hroots hnew fun _ _ => .inl rfl

end Relations

/-- The variable of an iteration variable as an expression. -/
def exprOf (stage : Stage) (id : IterId) : Expr :=
  ((stage.iterVar? id).map IterVar.expr).getD default

theorem exprOf_eq {iv : IterVar} (hiv : stage.iterVar? id = some iv) :
    stage.exprOf id = iv.expr := by
  rw [exprOf, hiv]
  rfl

/-- Every root is indexed by its own variable. -/
theorem HasVars.rootIndices_ok (h : stage.HasVars) :
    ∃ seed, stage.rootIndices = .ok seed ∧
      ∀ id, seed.get? id = if id ∈ stage.roots then some (stage.exprOf id) else none := by
  have hentries : stage.roots.mapM (fun root => do
      let iv ← stage.iterVar root
      return (root, iv.expr)) = .ok (stage.roots.map fun root => (root, stage.exprOf root)) := by
    refine mapM_eq_ok fun root hroot => ?_
    obtain ⟨iv, hiv⟩ := h root (mem_defined_of_mem_roots hroot)
    rw [iterVar_eq_ok hiv, exprOf_eq hiv]
    rfl
  refine ⟨.ofList (stage.roots.map fun root => (root, stage.exprOf root)), ?_,
    IterMap.get?_ofList_map _ _⟩
  rw [rootIndices, hentries]
  rfl

/-- What is indexed at the start is a root, and relations make no roots. -/
theorem Linked.get?_of_made (h : stage.Linked)
    (hget : ∀ id, seed.get? id = if id ∈ stage.roots then some (stage.exprOf id) else none) :
    ∀ id ∈ stage.relations.flatMap Relation.outputs, seed.get? id = none := by
  intro id hid
  obtain ⟨relation, hrelation, houtput⟩ := List.mem_flatMap.mp hid
  rw [hget id, if_neg (h.not_mem_roots_of_mem_outputs hrelation houtput)]

end Down

end Stage

end LoopNest
