/-
# Which guards there are

A loop of a scheduled stage that overruns is guarded by its inferred range, and a root by
its declared one, unless the distance from the start of the range provably stays below the
extent anyway. There are no other guards. The parent of a split with too many iterations
always overruns.

This is what `Guarding` says. That guards can be generated and are so is shown where the
generation is read back.
-/

import LoopNest.Guard.Predicates
import LoopNest.Proofs.Facts.Values
import LoopNest.Proofs.Flow.Indices

namespace LoopNest

namespace Stage

variable {stage : Stage} {ranges : IterMap Range} {id id' : IterId} {iv iv' : IterVar}

/-- A symbol belongs to one iteration variable. -/
theorem Regular.eq_of_var_eq (h : stage.Regular) (hget : stage.iterVar? id = some iv)
    (hget' : stage.iterVar? id' = some iv') (hvar : iv.var = iv'.var) : id = id' := by
  have hlt : id.index < (stage.iterVars.map IterVar.var).length := by
    rw [List.length_map]
    exact index_lt_size hget
  have hsame : (stage.iterVars.map IterVar.var)[id.index]? =
      (stage.iterVars.map IterVar.var)[id'.index]? := by
    rw [iterVar?] at hget hget'
    rw [List.getElem?_map, List.getElem?_map, hget, hget', Option.map_some, Option.map_some, hvar]
  have hindex := (List.getElem?_inj hlt h.labelled.symbols).mp hsame
  cases id
  cases id'
  exact congrArg IterId.mk hindex

/-- What is known about the ranges of a stage: nothing but the set of each variable. -/
structure Knows (stage : Stage) (ranges : IterMap Range) (known : RangedFacts) : Prop where
  unconstrained : known.facts.constraints = []
  domains : ∀ {id iv range}, stage.iterVar? id = some iv → ranges.get? id = some range →
    known.domains iv.var = some (.ofRange range)

theorem Regular.foldlM_insert (h : stage.Regular) {entries : List (IterId × Range)}
    (hnodup : (entries.map Prod.fst).Nodup)
    (hvars : ∀ entry ∈ entries, ∃ iv, stage.iterVar? entry.1 = some iv) (known : RangedFacts)
    (hfree : known.facts.constraints = []) :
    ∃ final, entries.foldlM (fun known (id, range) => do
        let iv ← stage.iterVar id
        return known.insert iv.var range) known = .ok final ∧
      final.facts.constraints = [] ∧
      (∀ entry ∈ entries, ∀ iv ∈ stage.iterVar? entry.1,
        final.domains iv.var = some (.ofRange entry.2)) ∧
      ∀ v, (∀ entry ∈ entries, ∀ iv ∈ stage.iterVar? entry.1, iv.var ≠ v) →
        final.domains v = known.domains v := by
  induction entries generalizing known with
  | nil => exact ⟨known, rfl, hfree, by simp, fun _ _ => rfl⟩
  | cons entry rest ih =>
      obtain ⟨id, range⟩ := entry
      rw [List.map_cons, List.nodup_cons] at hnodup
      rw [List.forall_mem_cons] at hvars
      obtain ⟨⟨iv, hiv⟩, hvars⟩ := hvars
      obtain ⟨final, hfold, hfinal, hentries, hothers⟩ :=
        ih hnodup.2 hvars (known.insert iv.var range) hfree
      refine ⟨final, ?_, hfinal, ?_, fun v hv => ?_⟩
      · rw [List.foldlM_cons]
        simp only [iterVar_eq_ok hiv, ok_bind]
        exact hfold
      · rw [List.forall_mem_cons]
        refine ⟨fun other hother => ?_, hentries⟩
        obtain rfl : iv = other := Option.some.inj (hiv.symm.trans hother)
        rw [hothers iv.var fun entry hentry other hother hsame =>
          hnodup.1 (h.eq_of_var_eq hother hiv hsame ▸ List.mem_map_of_mem hentry)]
        simp [RangedFacts.insert, Domains.insert]
      · rw [List.forall_mem_cons] at hv
        rw [hothers v hv.2]
        simp [RangedFacts.insert, Domains.insert, (hv.1 iv hiv).symm]

theorem Regular.rangedFacts_ok (h : stage.Regular)
    (hvars : ∀ id range, ranges.get? id = some range → ∃ iv, stage.iterVar? id = some iv) :
    ∃ known, stage.rangedFacts ranges (fun _ range => range) = .ok known ∧
      stage.Knows ranges known := by
  obtain ⟨known, hfold, hfree, hdomains, -⟩ := h.foldlM_insert ranges.nodup_keys
    (fun entry hentry => hvars entry.1 entry.2 (IterMap.mem_toList.mp hentry)) .empty rfl
  refine ⟨known, hfold, hfree, fun {id iv range} hiv hrange => ?_⟩
  exact hdomains (id, range) (IterMap.mem_toList.mpr hrange) iv hiv

/-- The parent of a split with too many iterations overruns, unless their number wraps. -/
def OverrunsFollow (box : Box) (overruns : IterId → Option Bool) : Relation → Prop
  | .split parent outer inner size => box.ProductFits .int32 (.split parent outer inner size) →
    box.IsLoose (.split parent outer inner size) → overruns parent = some true
  | _ => True

theorem isLocal_overrunsFollow (box : Box) : IsLocal (OverrunsFollow box) := by
  intro relation left right hsame hfollows
  cases relation with
  | split parent outer inner size =>
      intro hfit hloose
      rw [← hsame parent (by simp [Relation.inputs])]
      exact hfollows hfit hloose
  | fuse | rebase | singleton => trivial

variable {facts : Facts} {state : IterMap Bool} {relation : Relation}

/-- Whether a split has just as many iterations as its parent. -/
theorem coversExactly_ok (hranges : stage.HasLiteralRanges .int32 ranges)
    (hfree : facts.constraints = []) {parent outer inner : IterId}
    (hparent : parent ∈ stage.defined) (houter : outer ∈ stage.defined)
    (hinner : inner ∈ stage.defined) :
    stage.coversExactly ranges facts parent outer inner = .ok
      (decide (ranges.box.extent parent =
        DType.int32.truncate (ranges.box.extent outer * ranges.box.extent inner))) := by
  have hproduct : (Expr.const .int32 (ranges.box.extent inner)).mul
      (.const .int32 (ranges.box.extent outer)) =
        .const .int32 (DType.int32.truncate
          (ranges.box.extent outer * ranges.box.extent inner)) :=
    Expr.combine_const (congrArg some (mul_comm _ _))
  rw [coversExactly, (hranges.loops outer houter).get?, (hranges.loops inner hinner).get?]
  simp only [require, (hranges.loops parent hparent).get?, ok_bind, Range.between, hproduct,
    Facts.proves_eq (Facts.consistent_of_unconstrained hfree)]
  rfl

/-- One relation upward: the flags of what it consumes are decided. -/
theorem Regular.liftOverrun_ok (h : stage.Regular) (hranges : stage.HasLiteralRanges .int32 ranges)
    (hfree : facts.constraints = []) (hrelation : relation ∈ stage.relations)
    (hready : ∀ id ∈ relation.outputs, (state.get? id).isSome) :
    ∃ next, stage.liftOverrun ranges facts state relation = .ok next ∧
      Writes IterMap.get? (fun _ => True) (OverrunsFollow ranges.box) [relation] relation.inputs
        state next := by
  have hinputs : ∀ id ∈ relation.inputs, id ∈ stage.defined :=
    fun id hid => h.linked.mem_defined_of_mem_inputs hrelation hid
  have houtputs : ∀ id ∈ relation.outputs, id ∈ stage.defined :=
    fun id hid => mem_defined_of_mem_outputs hrelation hid
  simp only [Option.isSome_iff_exists] at hready
  cases relation with
  | split parent outer inner size =>
      simp only [Relation.inputs, Relation.outputs, List.mem_cons, List.not_mem_nil, or_false,
        forall_eq, forall_eq_or_imp] at *
      obtain ⟨⟨outerOverruns, houter⟩, innerOverruns, hinner⟩ := hready
      have hexactly := coversExactly_ok hranges hfree hinputs houtputs.1 houtputs.2
      obtain ⟨overruns, hnext, hloose⟩ : ∃ overruns,
          stage.liftOverrun ranges facts state (.split parent outer inner size) =
            .ok (state.insert parent overruns) ∧
          (ranges.box.ProductFits .int32 (.split parent outer inner size) →
            ranges.box.IsLoose (.split parent outer inner size) → overruns = true) := by
        cases outerOverruns with
        | true =>
            refine ⟨true, ?_, fun _ _ => rfl⟩
            simp only [liftOverrun, require, houter, ok_bind]
            rfl
        | false =>
            cases innerOverruns with
            | true =>
                refine ⟨true, ?_, fun _ _ => rfl⟩
                simp only [liftOverrun, require, houter, hinner, ok_bind]
                rfl
            | false =>
                refine ⟨!decide (ranges.box.extent parent = DType.int32.truncate
                  (ranges.box.extent outer * ranges.box.extent inner)), ?_, fun hfit hloose => ?_⟩
                · simp only [liftOverrun, require, houter, hinner, ok_bind, hexactly]
                  rfl
                · rw [Box.ProductFits] at hfit
                  rw [Box.IsLoose] at hloose
                  simp [DType.truncate_of_contains hfit, hloose.ne]
      refine ⟨_, hnext, .insert trivial rfl fun hfit h => ?_⟩
      rw [IterMap.get?_insert, if_pos rfl, hloose hfit h]
  | fuse outer inner fused =>
      simp only [Relation.inputs, Relation.outputs, List.mem_cons, List.not_mem_nil, or_false,
        forall_eq, forall_eq_or_imp] at *
      obtain ⟨overruns, hfused⟩ := hready
      refine ⟨(state.insert outer overruns).insert inner overruns, ?_,
        .insert_insert trivial rfl trivial⟩
      simp only [liftOverrun, require, hfused, ok_bind]
      rfl
  | rebase parent rebased =>
      simp only [Relation.inputs, Relation.outputs, List.mem_cons, List.not_mem_nil, or_false,
        forall_eq] at *
      obtain ⟨overruns, hrebased⟩ := hready
      refine ⟨state.insert parent overruns, ?_, .insert trivial rfl trivial⟩
      simp only [liftOverrun, require, hrebased, ok_bind]
      rfl
  | singleton iter =>
      exact ⟨state, rfl, trivial, by simp [Relation.inputs], fun _ _ => rfl,
        by simp [OverrunsFollow]⟩

/-- It can be decided for all loops whether they overrun. -/
theorem Regular.overrunsUp_ok (h : stage.Regular) (hranges : stage.HasLiteralRanges .int32 ranges)
    (hfree : facts.constraints = []) :
    ∃ overruns, stage.overrunsUp ranges facts stage.leafOverruns = .ok overruns ∧
      ∀ relation ∈ stage.relations, OverrunsFollow ranges.box overruns.get? relation := by
  have hstep : ∀ state, ∀ relation ∈ stage.relations, True →
      (∀ id ∈ relation.outputs, (state.get? id).isSome) →
      ∃ next, Halt.atomically (stage.liftOverrun ranges facts) state relation = .ok next ∧
        Writes IterMap.get? (fun _ => True) (OverrunsFollow ranges.box) [relation]
          relation.inputs state next := by
    intro state relation hrelation _ hready
    obtain ⟨next, hnext, hwrites⟩ := h.liftOverrun_ok hranges hfree hrelation hready
    exact ⟨next, by rw [Halt.atomically, hnext, Halt.keeping_ok], hwrites⟩
  have hleaves : ∀ id ∈ stage.leaves, (stage.leafOverruns.get? id).isSome := by
    intro id hid
    rw [leafOverruns, IterMap.get?_ofList_map, if_pos hid]
    rfl
  obtain ⟨overruns, hflow, hwrites⟩ :=
    h.linked.flowUp_ok (isLocal_overrunsFollow ranges.box) hstep trivial hleaves
  exact ⟨overruns, hflow, hwrites.conditions⟩

end Stage

namespace GuardContext

variable {context : GuardContext} {id : IterId} {iv : IterVar} {predicates more : List Expr}
  {range : Range}

/-- The index of a variable is kept below the end of a range, by a guard or because it
provably stays there. -/
def Settles (context : GuardContext) (predicates : List Expr) (id : IterId) (range : Range) :
    Prop :=
  ∃ index, context.indices.get? id = some index ∧
    ((index.sub range.min).lt range.extent ∈ predicates ∨
      context.provablyBelow (index.sub range.min) range.extent = .ok true)

theorem Settles.mono (h : context.Settles predicates id range) (hsubset : predicates ⊆ more) :
    context.Settles more id range := by
  obtain ⟨index, hindex, hsettled⟩ := h
  exact ⟨index, hindex, hsettled.imp_left fun hmem => hsubset hmem⟩

/-- It has to be decided whether the index of a variable needs to be guarded by a range. -/
inductive Decides (context : GuardContext) (overruns : IterMap Bool) (id : IterId)
    (range : Range) : Prop
  | inferred (loop : id ∈ context.stage.loops) (overrun : overruns.getDefault id = true)
      (known : context.ranges.get? id = some range)
  | declared (root : id ∈ context.stage.roots) (iv : IterVar) (inferred : Range)
      (found : context.stage.iterVar? id = some iv) (declared : iv.declared = some range)
      (known : context.ranges.get? id = some inferred)
      (different : context.sameRange inferred range = false)

/-- A predicate is the guard of some variable. -/
def Allows (context : GuardContext) (overruns : IterMap Bool) (predicate : Expr) : Prop :=
  ∃ id index range, context.Decides overruns id range ∧ context.indices.get? id = some index ∧
    predicate = (index.sub range.min).lt range.extent

theorem mayGuard_iff (h : context.stage.Regular) :
    context.mayGuard id = true ↔ id ∈ context.stage.loops := by
  rw [Stage.mem_loops, mayGuard]
  split
  · rename_i iv hiv
    have hskipped : context.stage.isSkipped id = false := by simp [Stage.isSkipped, h.unskipped]
    simp only [hskipped, Bool.not_false, Bool.true_and, Option.some.injEq, exists_eq_left', hiv]
    refine ⟨?_, h.labelled.guarded iv (List.mem_of_getElem? hiv)⟩
    rintro hguarded hkind
    rw [hkind] at hguarded
    cases hguarded
  · rename_i hnone
    simp [hnone]

theorem distanceFrom_ok {index : Expr} (h : context.indices.get? id = some index)
    (range : Range) : context.distanceFrom id range = .ok (index.sub range.min) := by
  rw [distanceFrom, Stage.require, h]
  rfl

end GuardContext

namespace Stage

/-- What the guards of a stage are. The parents of loose splits overrun, every guard that
has to be decided is settled, and there are no other guards. -/
structure Guarding (context : GuardContext) (overruns : IterMap Bool) (predicates : List Expr) :
    Prop where
  loose : ∀ relation ∈ context.stage.relations, context.ranges.box.ProductFits .int32 relation →
    context.ranges.box.IsLoose relation → ∀ id ∈ relation.inputs, overruns.getDefault id = true
  settled : ∀ {id range}, context.Decides overruns id range → context.Settles predicates id range
  allowed : ∀ p ∈ predicates, context.Allows overruns p

end Stage

end LoopNest
