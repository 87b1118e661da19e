/-
# The order of the relations

The relations of a stage are listed in one of several orders in which they could have been
applied. Exchanging two neighbours that share no iteration variable changes nothing: every
pass fails on both stages, or it ends with the same values on both. This needs nothing but
the locality of the steps, so it holds of stages that are not well-formed, too.

Range inference is different, because it also looks at what it has found out about other
variables. There the order may matter when ranges are symbolic. Where neither the ranges at
the start nor the extents of splits mention a variable, no other range is ever looked at, and
the order does not matter for the ranges that are inferred. The facts may still differ: where
two loops share a variable, the one that comes last decides about its range.
-/

import LoopNest.Proofs.Facts.Agree
import LoopNest.Proofs.Flow.Local
import LoopNest.Proofs.Flow.Mentions
import LoopNest.Stage.Edit
import LoopNest.Stage.Validate

namespace LoopNest

section Closed

variable {facts other : Facts} {extent given : Expr} {existing proposed : Range}
variable (hconstraints : facts.constraints = other.constraints)
include hconstraints

theorem Facts.agrees_eq (hexisting : ∀ v, existing.mentions v = false)
    (hproposed : ∀ v, proposed.mentions v = false) :
    facts.agrees existing proposed = other.agrees existing proposed := by
  have hdifference : ∀ v, (proposed.extent.sub existing.extent).mentions v = false := fun v =>
    Expr.mentions_combine (Range.mentions_eq_false_iff.mp (hproposed v)).2
      (Range.mentions_eq_false_iff.mp (hexisting v)).2
  have hequation : facts.AgreeOn other ((proposed.extent.sub existing.extent).eq
      (.zero (proposed.extent.sub existing.extent).dtype)) :=
    agreeOn_of_closed fun v => Expr.mentions_combine (hdifference v) rfl
  simp only [agrees, hequation.proves_eq hconstraints]

variable (hextent : ∀ v, extent.mentions v = false) (hgiven : ∀ v, given.mentions v = false)
include hextent hgiven

theorem Facts.ceilDiv_eq : facts.ceilDiv extent given = other.ceilDiv extent given := by
  have hremainder : facts.AgreeOn other ((extent.floorMod given).eq (.zero extent.dtype)) :=
    agreeOn_of_closed fun v =>
      Expr.mentions_combine (Expr.mentions_combine (hextent v) (hgiven v)) rfl
  have hexact : facts.AgreeOn other (extent.floorDiv given) :=
    agreeOn_of_closed fun v => Expr.mentions_combine (hextent v) (hgiven v)
  have hrounded : facts.AgreeOn other
      ((extent.add (given.sub (.one given.dtype))).floorDiv given) :=
    agreeOn_of_closed fun v => Expr.mentions_combine (Expr.mentions_combine (hextent v)
      (Expr.mentions_combine (hgiven v) rfl)) (hgiven v)
  rw [ceilDiv, ceilDiv, hremainder.proves_eq hconstraints, hexact.simplify_eq,
    hrounded.simplify_eq]

theorem Facts.smallerOrSecond_eq :
    facts.smallerOrSecond extent given = other.smallerOrSecond extent given := by
  have hless : facts.AgreeOn other (extent.lt given) :=
    agreeOn_of_closed fun v => Expr.mentions_combine (hextent v) (hgiven v)
  rw [smallerOrSecond, smallerOrSecond, hless.proves_eq hconstraints,
    (agreeOn_of_closed hextent).simplify_eq, (agreeOn_of_closed hgiven).simplify_eq]

theorem Stage.splitRanges_eq (keep : Bool) :
    splitRanges facts extent given keep = splitRanges other extent given keep := by
  rw [splitRanges, splitRanges, Facts.ceilDiv_eq hconstraints hextent hgiven,
    Facts.smallerOrSecond_eq hconstraints hextent hgiven]

end Closed

/-- What is done with related values is related. -/
theorem rel_bind {α α' β β' : Type} {related : α → α' → Prop} {related' : β → β' → Prop}
    {left : Option α} {right : Option α'} {next : α → Option β} {next' : α' → Option β'}
    (h : Option.Rel related left right)
    (hnext : ∀ value value', related value value' →
      Option.Rel related' (next value) (next' value')) :
    Option.Rel related' (left.bind next) (right.bind next') := by
  cases h with
  | none => exact .none
  | some hrelated => exact hnext _ _ hrelated

/-- Two inferences that have the same ranges and constraints. No range mentions a variable. -/
structure Alike (constraints : List Expr) (left right : Inference) : Prop where
  ranges : left.ranges = right.ranges
  before : left.facts.constraints = constraints
  after : right.facts.constraints = constraints
  closed : ∀ v, RangesAvoid (fun _ => True) v right.ranges

namespace Alike

variable {stage : Stage} {constraints : List Expr} {left right : Inference} {id : IterId}
  {range : Range} {relation : Relation}

theorem insert (h : Alike constraints left right) (hrange : ∀ v, range.mentions v = false)
    (id : IterId) (v : Var) :
    Alike constraints (left.insert id v range) (right.insert id v range) where
  ranges := congrArg (·.insert id range) h.ranges
  before := h.before
  after := h.after
  closed u := (h.closed u).insert (fun _ => hrange u) v

theorem constraints_eq (h : Alike constraints left right) :
    left.facts.constraints = right.facts.constraints :=
  h.before.trans h.after.symm

theorem recordRange (h : Alike constraints left right) (hrange : ∀ v, range.mentions v = false) :
    Option.Rel (Alike constraints) (stage.recordRange left id range).toOption
      (stage.recordRange right id range).toOption := by
  rw [Stage.recordRange, Stage.recordRange, h.ranges]
  cases hknown : right.ranges.get? id with
  | none =>
      simp only [toOption_bind]
      cases (stage.iterVar id).toOption with
      | none => exact .none
      | some iv => exact .some (h.insert hrange id iv.var)
  | some existing =>
      have hclosed : ∀ v, existing.mentions v = false :=
        fun v => h.closed v id trivial existing hknown
      simp only [Facts.agrees_eq h.constraints_eq hclosed hrange]
      cases right.facts.agrees existing range with
      | true => exact .some h
      | false => exact .none

/-- One relation, under facts that hold the same constraints. -/
theorem inferRanges (h : Alike constraints left right) (dominance : IterMap Bool)
    (lenient : Bool) (hsize : ∀ v, relation.mentions v = false) :
    Option.Rel (Alike constraints) (stage.inferRanges dominance lenient left relation).toOption
      (stage.inferRanges dominance lenient right relation).toOption := by
  have hextent : ∀ {id range}, right.ranges.get? id = some range →
      ∀ v, range.extent.mentions v = false := fun {id range} hrange v =>
    (Range.mentions_eq_false_iff.mp (h.closed v id trivial range hrange)).2
  cases relation with
  | split parent outer inner size =>
      simp only [Stage.inferRanges, toOption_bind, Halt.toOption_keeping, h.ranges]
      cases hread : stage.read? .ranges lenient right.ranges parent with
      | error => exact .none
      | ok found =>
      cases found with
      | none => exact .some h
      | some parentRange =>
          have hparent := hextent (Stage.get?_of_read? hread)
          have hmade := fun keep v => Stage.mentions_splitRanges right.facts
            (hparent v) (hsize v) keep
          simp only [toOption_ok, Option.bind_some, toOption_bind, Halt.toOption_keeping,
            Stage.splitRanges_eq h.constraints_eq hparent hsize]
          exact rel_bind (h.recordRange fun v => (hmade _ v).1) fun _ _ hrecorded =>
            hrecorded.recordRange fun v => (hmade _ v).2
  | fuse outer inner fused =>
      simp only [Stage.inferRanges, toOption_bind, Halt.toOption_keeping, h.ranges]
      cases hread : stage.readBoth? .ranges lenient right.ranges outer inner with
      | error => exact .none
      | ok found =>
      rcases found with _ | ⟨outerRange, innerRange⟩
      · exact .some h
      · obtain ⟨houter, hinner⟩ := Stage.get?_of_readBoth? hread
        have hproduct : ∀ v, (outerRange.extent.mul innerRange.extent).mentions v = false :=
          fun v => Expr.mentions_combine (hextent houter v) (hextent hinner v)
        have hsame : left.facts.simplify (outerRange.extent.mul innerRange.extent) =
            right.facts.simplify (outerRange.extent.mul innerRange.extent) :=
          (Facts.agreeOn_of_closed hproduct).simplify_eq
        simp only [toOption_ok, Option.bind_some, toOption_bind, hsame]
        cases stage.iterVar fused with
        | error => exact .none
        | ok iv => exact .some (h.insert (fun v => Range.mentions_ofExtent
            (right.facts.mentions_simplify (hproduct v))) fused iv.var)
  | rebase parent rebased =>
      simp only [Stage.inferRanges, toOption_bind, Halt.toOption_keeping, h.ranges]
      cases hread : stage.read? .ranges lenient right.ranges parent with
      | error => exact .none
      | ok found =>
      cases found with
      | none => exact .some h
      | some parentRange =>
          exact h.recordRange fun v =>
            Range.mentions_ofExtent (hextent (Stage.get?_of_read? hread) v)
  | singleton iter =>
      simp only [Stage.inferRanges, toOption_bind, Halt.toOption_keeping]
      cases stage.iterVar iter with
      | error => exact .none
      | ok iv => exact h.recordRange fun v => rfl

theorem inferThreadRange (h : Alike constraints left right) (lenient : Bool)
    (binding : IterId × IterId) :
    Option.Rel (Alike constraints) (stage.inferThreadRange lenient left binding).toOption
      (stage.inferThreadRange lenient right binding).toOption := by
  simp only [Stage.inferThreadRange, toOption_bind, Halt.toOption_keeping, h.ranges]
  cases hread : stage.read? .ranges lenient right.ranges binding.1 with
  | error => exact .none
  | ok found =>
  cases found with
  | none => exact .some h
  | some range =>
      exact h.recordRange fun v => h.closed v _ trivial _ (Stage.get?_of_read? hread)

end Alike

section Folds

variable {α σ τ : Type} {step : σ → α → Option σ} {first second : α}

/-- Steps that can be exchanged in every state can be exchanged within a fold. -/
theorem foldlM_exchange
    (hcomm : ∀ state, ((step state first).bind fun next => step next second) =
      (step state second).bind fun next => step next first)
    (before after : List α) (state : σ) :
    (before ++ first :: second :: after).foldlM step state =
      (before ++ second :: first :: after).foldlM step state := by
  simp only [List.foldlM_append, List.foldlM_cons, Option.bind_eq_bind, ← Option.bind_assoc,
    hcomm]

/-- Related states stay related in a fold. -/
theorem rel_foldlM {related : σ → τ → Prop} {step' : τ → α → Option τ} {items : List α}
    (hstep : ∀ item ∈ items, ∀ state other, related state other →
      Option.Rel related (step state item) (step' other item))
    {state : σ} {other : τ} (h : related state other) :
    Option.Rel related (items.foldlM step state) (items.foldlM step' other) := by
  induction items generalizing state other with
  | nil => exact .some h
  | cons item rest ih =>
      rw [List.forall_mem_cons] at hstep
      rw [List.foldlM_cons, List.foldlM_cons]
      exact rel_bind (hstep.1 state other h) fun _ _ hnext => ih hstep.2 hnext

end Folds

namespace Stage

/-- Two stages that are the same but for two neighbouring relations. These are listed in
different orders and share no iteration variable. -/
def Exchanged (stage other : Stage) : Prop :=
  ∃ before first second after, first.touched.Disjoint second.touched ∧
    stage.relations = before ++ first :: second :: after ∧
    other = { stage with relations := before ++ second :: first :: after }

variable {stage other : Stage} {before after : List Relation} {first second : Relation}

theorem foldlM_exchange_of_local {ε σ α : Type} {view : StateView σ α}
    {step : σ → Relation → Except ε σ}
    (hlocal : ∀ relation, view.Local relation.touched fun state => (step state relation).toOption)
    (hapart : first.touched.Disjoint second.touched) (state : σ) :
    ((before ++ first :: second :: after).foldlM step state).toOption =
      ((before ++ second :: first :: after).foldlM step state).toOption := by
  rw [toOption_foldlM, toOption_foldlM]
  exact foldlM_exchange (fun state => (hlocal first).comm (hlocal second) hapart state) _ _ _

theorem flowUp_exchange {σ α : Type} {view : StateView σ α}
    {step : σ → Relation → Except (Halt σ) σ}
    (hlocal : ∀ relation, view.Local relation.touched fun state => (step state relation).toOption)
    (hapart : first.touched.Disjoint second.touched) (state : σ) :
    ((before ++ first :: second :: after).reverse.foldlM step state).toOption =
      ((before ++ second :: first :: after).reverse.foldlM step state).toOption := by
  simp only [List.reverse_append, List.reverse_cons, List.append_assoc, List.singleton_append]
  exact foldlM_exchange_of_local hlocal (List.disjoint_symm hapart) state

theorem local_atomically {σ α : Type} {view : StateView σ α}
    {step : σ → Relation → Except StageError σ}
    (hlocal : ∀ relation, view.Local relation.touched fun state => (step state relation).toOption)
    (relation : Relation) :
    view.Local relation.touched fun state => (Halt.atomically step state relation).toOption := by
  simp only [Halt.atomically, Halt.toOption_keeping]
  exact hlocal relation

/-- Whether threads depend on a loop does not depend on the order. -/
theorem Exchanged.threadDominance_eq (h : stage.Exchanged other) :
    stage.threadDominance = other.threadDominance := by
  obtain ⟨before, first, second, after, hapart, hrelations, rfl⟩ := h
  have hcomm : ∀ flags, inheritThreads (inheritThreads flags second) first =
      inheritThreads (inheritThreads flags first) second := fun flags =>
    Option.some.inj ((local_inheritThreads second).comm (local_inheritThreads first)
      (List.disjoint_symm hapart) flags)
  simp only [threadDominance, leafThreads, threadOf?, hrelations, List.reverse_append,
    List.reverse_cons, List.append_assoc, List.singleton_append, List.foldl_append,
    List.foldl_cons, hcomm]

section Ranges

variable {state : Inference} {lenient : Bool} {facts : Facts}

/-- Infer ranges from ranges, always under the same facts. -/
def inferUnder (stage : Stage) (dominance : IterMap Bool) (lenient : Bool) (facts : Facts)
    (ranges : IterMap Range) (relation : Relation) : Option (IterMap Range) :=
  (stage.inferRanges dominance lenient ⟨ranges, facts⟩ relation).toOption.bind fun inferred =>
    some inferred.ranges

/-- Infer the range of a thread under certain facts. -/
def inferThreadUnder (stage : Stage) (lenient : Bool) (facts : Facts) (ranges : IterMap Range)
    (binding : IterId × IterId) : Option (IterMap Range) :=
  (stage.inferThreadRange lenient ⟨ranges, facts⟩ binding).toOption.bind fun inferred =>
    some inferred.ranges

/-- An inference has these ranges and the constraints of these facts. No range mentions a
variable. -/
def Tracks (facts : Facts) (inferred : Inference) (ranges : IterMap Range) : Prop :=
  Alike facts.constraints inferred ⟨ranges, facts⟩

theorem Tracks.of_alike {left right : Option Inference}
    (h : Option.Rel (Alike facts.constraints) left right) :
    Option.Rel (Tracks facts) left (right.bind fun inferred => some inferred.ranges) := by
  cases h with
  | none => exact .none
  | some halike => exact .some ⟨halike.ranges, halike.before, rfl, halike.closed⟩

/-- Where no variable is mentioned, it does not matter which facts were found on the way. -/
theorem rangesDown_tracks (hrelations : ∀ relation ∈ stage.relations, ∀ v,
      relation.mentions v = false)
    (hranges : ∀ v, RangesAvoid (fun _ => True) v state.ranges) :
    Option.Rel (Tracks state.facts) (stage.rangesDown lenient state).toOption
      ((stage.relations.foldlM (stage.inferUnder stage.threadDominance lenient state.facts)
        state.ranges).bind fun inferred =>
          stage.threads.toList.foldlM (stage.inferThreadUnder lenient state.facts) inferred) := by
  have hrelation : ∀ relation ∈ stage.relations, ∀ inferred ranges,
      Tracks state.facts inferred ranges → Option.Rel (Tracks state.facts)
        (stage.inferRanges stage.threadDominance lenient inferred relation).toOption
        (stage.inferUnder stage.threadDominance lenient state.facts ranges relation) :=
    fun relation hrelation _ _ htracks => Tracks.of_alike
      (htracks.inferRanges _ lenient (hrelations relation hrelation))
  have hthread : ∀ binding ∈ stage.threads.toList, ∀ inferred ranges,
      Tracks state.facts inferred ranges → Option.Rel (Tracks state.facts)
        (stage.inferThreadRange lenient inferred binding).toOption
        (stage.inferThreadUnder lenient state.facts ranges binding) :=
    fun binding _ _ _ htracks => Tracks.of_alike (htracks.inferThreadRange lenient binding)
  have hstart : Tracks state.facts state state.ranges := ⟨rfl, rfl, rfl, hranges⟩
  rw [rangesDown, flowDown, toOption_bind, toOption_foldlM]
  refine rel_bind (rel_foldlM hrelation hstart) fun _ _ htracks => ?_
  rw [toOption_foldlM]
  exact rel_foldlM hthread htracks

theorem Tracks.map_ranges {inferred : Option Inference} {ranges : Option (IterMap Range)}
    (h : Option.Rel (Tracks facts) inferred ranges) : inferred.map Inference.ranges = ranges := by
  cases h with
  | none => rfl
  | some htracks => exact congrArg some htracks.ranges

/-- Ranges without variables are inferred alike in both orders. -/
theorem Exchanged.rangesDown_eq (h : stage.Exchanged other) (lenient : Bool) (state : Inference)
    (hrelations : ∀ relation ∈ stage.relations, ∀ v, relation.mentions v = false)
    (hranges : ∀ v, RangesAvoid (fun _ => True) v state.ranges) :
    (stage.rangesDown lenient state).toOption.map Inference.ranges =
      (other.rangesDown lenient state).toOption.map Inference.ranges := by
  have hdominance := h.threadDominance_eq
  obtain ⟨before, first, second, after, hapart, hsplit, rfl⟩ := h
  have hother : ∀ relation ∈ before ++ second :: first :: after, ∀ v,
      relation.mentions v = false := by
    intro relation hrelation
    refine hrelations relation (hsplit ▸ ?_)
    simp only [List.mem_append, List.mem_cons] at hrelation ⊢
    tauto
  rw [Tracks.map_ranges (rangesDown_tracks hrelations hranges),
    Tracks.map_ranges (rangesDown_tracks hother hranges), ← hdominance, hsplit]
  have hlocal := local_inferRanges stage stage.threadDominance lenient state.facts
  exact congrArg (Option.bind · _) (foldlM_exchange
    (fun ranges => (hlocal first).comm (hlocal second) hapart ranges) before after state.ranges)

end Ranges

/-- Passes do not depend on the order in which relations that share no iteration variable are
listed. All of them fail on both stages or end with the same values on both. For the inference
of ranges, neither the ranges at the start nor the extents of splits may mention variables. -/
theorem Exchanged.passes_agree (h : stage.Exchanged other) :
    stage.threadDominance = other.threadDominance ∧
      (∀ ranges lenient state, (stage.indicesUp ranges lenient state).toOption =
        (other.indicesUp ranges lenient state).toOption) ∧
      (∀ ranges lenient state, (stage.indicesDown ranges lenient state).toOption =
        (other.indicesDown ranges lenient state).toOption) ∧
      (∀ lenient state, (stage.flagsUp lenient state).toOption =
        (other.flagsUp lenient state).toOption) ∧
      (∀ lenient state, (stage.flagsDown lenient state).toOption =
        (other.flagsDown lenient state).toOption) ∧
      (∀ ranges facts state, (stage.overrunsUp ranges facts state).toOption =
        (other.overrunsUp ranges facts state).toOption) ∧
      (∀ ranges facts state, (stage.accessesUp ranges facts state).toOption =
        (other.accessesUp ranges facts state).toOption) ∧
      ∀ lenient state, (∀ relation ∈ stage.relations, ∀ v, relation.mentions v = false) →
        (∀ id range v, state.ranges.get? id = some range → range.mentions v = false) →
        (stage.rangesDown lenient state).toOption.map Inference.ranges =
          (other.rangesDown lenient state).toOption.map Inference.ranges := by
  refine ⟨h.threadDominance_eq, ?_⟩
  have hranges := h.rangesDown_eq
  obtain ⟨before, first, second, after, hapart, hrelations, rfl⟩ := h
  simp only [indicesUp, indicesDown, flagsUp, flagsDown, overrunsUp, accessesUp, flowUp, flowDown,
    hrelations]
  refine ⟨fun ranges lenient state => ?_, fun ranges lenient state => ?_,
    fun lenient state => ?_, fun lenient state => ?_, fun ranges facts state => ?_,
    fun ranges facts state => ?_, fun lenient state hsizes hseeds => ?_⟩
  · exact flowUp_exchange (stage.local_liftIndex ranges lenient) hapart state
  · exact foldlM_exchange_of_local (local_atomically fun relation =>
      stage.local_lowerIndex ranges lenient relation false) hapart state
  · exact flowUp_exchange (local_atomically (stage.local_liftFlags lenient)) hapart state
  · exact foldlM_exchange_of_local (local_atomically (stage.local_lowerFlags lenient)) hapart state
  · exact flowUp_exchange (local_atomically (stage.local_liftOverrun ranges facts)) hapart state
  · exact flowUp_exchange (local_atomically (stage.local_liftAccesses ranges facts)) hapart state
  · exact hranges lenient state (hrelations ▸ hsizes)
      fun v id _ range hrange => hseeds id range v hrange

/-- Two loops that are split. -/
def twoSplits : Stage :=
  (Stage.empty "stage" .globalMemory).executeAll
    [.root "i" (.const .int32 8), .root "j" (.const .int32 9), .split ⟨0⟩ (.const .int32 2),
      .split ⟨1⟩ (.const .int32 3)]

/-- The ranges of the loops of `twoSplits` before they are split. -/
def twoRanges : IterMap Range :=
  .ofList [(⟨0⟩, .constant .int32 8), (⟨1⟩, .constant .int32 9)]

theorem passes_agree_of_twoSplits :
    let other := { twoSplits with relations := twoSplits.relations.reverse }
    twoSplits.validate = .ok () ∧ other.validate = .ok () ∧ twoSplits ≠ other ∧
      twoSplits.Exchanged other ∧ twoSplits.threadDominance = other.threadDominance ∧
      (twoSplits.rangesDown false ⟨twoRanges, .empty⟩).toOption.map Inference.ranges =
        (other.rangesDown false ⟨twoRanges, .empty⟩).toOption.map Inference.ranges ∧
      ((twoSplits.rangesDown false ⟨twoRanges, .empty⟩).toOption.map
        Inference.ranges).isSome = true := by
  intro other
  have hexchanged : twoSplits.Exchanged other :=
    ⟨[], .split ⟨0⟩ ⟨2⟩ ⟨3⟩ (.factor (.const .int32 2)),
      .split ⟨1⟩ ⟨4⟩ ⟨5⟩ (.factor (.const .int32 3)), [], by simp, rfl, rfl⟩
  have hsizes : ∀ relation ∈ twoSplits.relations, ∀ v, relation.mentions v = false := by
    have hlisted : twoSplits.relations = [.split ⟨0⟩ ⟨2⟩ ⟨3⟩ (.factor (.const .int32 2)),
      .split ⟨1⟩ ⟨4⟩ ⟨5⟩ (.factor (.const .int32 3))] := rfl
    rw [hlisted]
    simp [Relation.mentions, SplitSize.extent, Expr.mentions, Expr.anyVar]
  have hseeds : ∀ id range v, twoRanges.get? id = some range → range.mentions v = false := by
    intro id range v hrange
    have hlisted : twoRanges.toList =
      [(⟨0⟩, .constant .int32 8), (⟨1⟩, .constant .int32 9)] := rfl
    have hmem := IterMap.mem_toList.mpr hrange
    simp only [hlisted, List.mem_cons, Prod.mk.injEq, List.not_mem_nil, or_false] at hmem
    rcases hmem with ⟨-, rfl⟩ | ⟨-, rfl⟩ <;> rfl
  obtain ⟨hthreads, -, -, -, -, -, -, hranges⟩ := hexchanged.passes_agree
  exact ⟨by decide, by decide, by decide, hexchanged, hthreads,
    hranges false ⟨twoRanges, .empty⟩ hsizes hseeds, by decide +kernel⟩

end Stage

end LoopNest
