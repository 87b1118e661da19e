/-
# What lowering can fail on

A stage that commands put together can be lowered, whatever its extents are, once each root
has a range: the pass over ranges reaches every loop, and the passes that follow find all
that they look up. The one exception are threads. A thread that several leaves run on, or
that has a range of its own, may get ranges whose extents cannot be proved equal, and then
this is reported for the thread.

Overflow is no exception: words wrap, and the main theorem names the proviso that holds
where they do not.

Roots come first and threads second, and a thread keeps the range that it has. So the loops
that relations make, which declare no ranges, still have none when inference starts.
-/

import LoopNest.Proofs.Flow.RoundTrip
import LoopNest.Proofs.Guard.Total
import LoopNest.Proofs.Lowering.Threads
import LoopNest.Proofs.Stage.Derived

namespace LoopNest

namespace Stage

variable {stage : Stage} {aside : List IterId} {supplied ranges : IterMap Range}
  {state next : Inference} {id root : IterId} {iv : IterVar} {range : Range}

/-- The range that a root starts with: the supplied one, or else the declared one. -/
def domain? (stage : Stage) (supplied : IterMap Range) (root : IterId) : Option Range :=
  (supplied.get? root).or ((stage.iterVar? root).bind IterVar.declared)

/-- Every root has a range to start with. -/
def HasDomains (stage : Stage) (supplied : IterMap Range) : Prop :=
  ∀ root ∈ stage.roots, (stage.domain? supplied root).isSome = true

instance (stage : Stage) (supplied : IterMap Range) : Decidable (stage.HasDomains supplied) :=
  inferInstanceAs (Decidable (∀ root ∈ stage.roots, _))

theorem rangesKnown_empty (stage : Stage) : stage.RangesKnown Inference.empty.ranges := by
  intro _ _ hnone
  cases hnone

theorem RangesKnown.insert (h : stage.RangesKnown state.ranges)
    (hiv : stage.iterVar? id = some iv) (v : Var) (range : Range) :
    stage.RangesKnown (state.insert id v range).ranges := by
  intro other found hfound
  rw [Inference.get?_insert] at hfound
  split at hfound
  · rename_i heq
    exact ⟨iv, heq ▸ hiv⟩
  · exact h other found hfound

section Seeds

theorem seedRoot_new (hiv : stage.iterVar? root = some iv)
    (hdomain : stage.domain? supplied root = some range) (hnew : state.ranges.get? root = none) :
    stage.seedRoot supplied state root = .ok (state.insert root iv.var range) := by
  rw [domain?, hiv, Option.bind_some] at hdomain
  rw [seedRoot]
  cases hsupplied : supplied.get? root with
  | some found =>
      rw [hsupplied] at hdomain
      obtain rfl : found = range := Option.some.inj hdomain
      exact recordRange_new hiv hnew
  | none =>
      rw [hsupplied, Option.none_or] at hdomain
      simp only [iterVar_eq_ok hiv, ok_bind, hdomain]
      exact recordRange_new hiv hnew

/-- Different roots get their ranges, and nothing else does. -/
theorem foldlM_seedRoot_ok {roots : List IterId} (hnodup : roots.Nodup)
    (hroots : ∀ root ∈ roots, (∃ iv, stage.iterVar? root = some iv) ∧
      (stage.domain? supplied root).isSome)
    (hnew : ∀ root ∈ roots, state.ranges.get? root = none)
    (hstate : stage.RangesKnown state.ranges) :
    ∃ next, roots.foldlM (stage.seedRoot supplied) state = .ok next ∧
      stage.RangesKnown next.ranges ∧ (∀ root ∈ roots, (next.ranges.get? root).isSome) ∧
      ∀ id, id ∉ roots → next.ranges.get? id = state.ranges.get? id := by
  induction roots generalizing state with
  | nil => exact ⟨state, rfl, hstate, by simp, fun _ _ => rfl⟩
  | cons root rest ih =>
      rw [List.forall_mem_cons] at hroots hnew
      obtain ⟨⟨⟨iv, hiv⟩, hdomain⟩, hroots⟩ := hroots
      obtain ⟨range, hrange⟩ := Option.isSome_iff_exists.mp hdomain
      obtain ⟨hfresh, hnodup⟩ := List.nodup_cons.mp hnodup
      have hrest : ∀ other ∈ rest, (state.insert root iv.var range).ranges.get? other = none := by
        intro other hother
        rw [Inference.get?_insert, if_neg (ne_of_mem_of_not_mem hother hfresh),
          hnew.2 other hother]
      obtain ⟨next, hfold, hknown, hranges, hframe⟩ :=
        ih hnodup hroots hrest (hstate.insert hiv iv.var range)
      refine ⟨next, ?_, hknown, ?_, fun id hid => ?_⟩
      · rw [List.foldlM_cons, seedRoot_new hiv hrange hnew.1, ok_bind, hfold]
      · rw [List.forall_mem_cons]
        refine ⟨?_, hranges⟩
        rw [hframe root hfresh, Inference.get?_insert, if_pos rfl]
        rfl
      · rw [List.mem_cons, not_or] at hid
        rw [hframe id hid.2, Inference.get?_insert, if_neg hid.1]

/-- What is still true after the declared ranges of threads were recorded. -/
structure SeedsThreads (stage : Stage) (state next : Inference) : Prop where
  known : stage.RangesKnown next.ranges
  keeps : ∀ id, (state.ranges.get? id).isSome → (next.ranges.get? id).isSome
  undeclared : ∀ id iv, stage.iterVar? id = some iv → iv.declared = none →
    next.ranges.get? id = state.ranges.get? id

theorem SeedsThreads.seedThread_ok {middle : Inference} (h : stage.SeedsThreads state middle)
    {thread : IterId} (hiv : stage.iterVar? thread = some iv) :
    ∃ next, stage.seedThread middle thread = .ok next ∧ stage.SeedsThreads state next := by
  simp only [seedThread, iterVar_eq_ok hiv, ok_bind]
  split
  · rename_i range hdeclared
    cases hget : middle.ranges.get? thread with
    | some found => exact ⟨middle, by rw [IterMap.contains, hget]; rfl, h⟩
    | none =>
        refine ⟨middle.insert thread iv.var range, ?_, h.known.insert hiv _ _, fun id hid => ?_,
          fun id other hother hnone => ?_⟩
        · rw [IterMap.contains, hget]
          exact recordRange_new hiv hget
        · rw [Inference.get?_insert]
          split
          · rfl
          · exact h.keeps id hid
        · rw [Inference.get?_insert, if_neg, h.undeclared id other hother hnone]
          rintro rfl
          obtain rfl := Option.some.inj (hiv.symm.trans hother)
          rw [hdeclared] at hnone
          cases hnone
  · exact ⟨middle, rfl, h⟩

end Seeds

section Threads

/-- Either the threads agree with the leaves that run on them, or the first one that does not
is reported. The induction is on the bindings that are left. -/
theorem foldlM_inferThreadRange_or_conflict {bindings : List (IterId × IterId)}
    (hstate : stage.RangesKnown state.ranges)
    (hbound : ∀ binding ∈ bindings, (∃ range, state.ranges.get? binding.1 = some range) ∧
      ∃ iv, stage.iterVar? binding.2 = some iv) :
    (∃ next, bindings.foldlM (stage.inferThreadRange false) state = .ok next ∧
        stage.RangesKnown next.ranges ∧ ∀ id range, state.ranges.get? id = some range →
          next.ranges.get? id = some range) ∨
      ∃ binding ∈ bindings, ∃ halt existing proposed,
        bindings.foldlM (stage.inferThreadRange false) state = .error halt ∧
          halt.error = .inconsistentRange (stage.ref binding.2) existing proposed := by
  induction bindings generalizing state with
  | nil => exact .inl ⟨state, rfl, hstate, fun _ _ h => h⟩
  | cons binding rest ih =>
      rw [List.forall_mem_cons] at hbound
      obtain ⟨⟨⟨range, hrange⟩, iv, hiv⟩, hrest⟩ := hbound
      have hread : stage.inferThreadRange false state binding =
          Halt.keeping state (stage.recordRange state binding.2 range) := by
        simp only [inferThreadRange, read?, hrange, ok_bind]
      have hgoes : ∀ next, stage.recordRange state binding.2 range = .ok next →
          stage.RangesKnown next.ranges →
          (∀ id range, state.ranges.get? id = some range → next.ranges.get? id = some range) →
          (∃ final, (binding :: rest).foldlM (stage.inferThreadRange false) state = .ok final ∧
              stage.RangesKnown final.ranges ∧ ∀ id range, state.ranges.get? id = some range →
                final.ranges.get? id = some range) ∨
            ∃ binding' ∈ binding :: rest, ∃ halt existing proposed,
              (binding :: rest).foldlM (stage.inferThreadRange false) state = .error halt ∧
                halt.error = .inconsistentRange (stage.ref binding'.2) existing proposed := by
        intro next hnext hknown hkeeps
        have hfold : (binding :: rest).foldlM (stage.inferThreadRange false) state =
            rest.foldlM (stage.inferThreadRange false) next := by
          rw [List.foldlM_cons, hread, hnext, Halt.keeping_ok, ok_bind]
        rw [hfold]
        rcases ih hknown fun other hother =>
          ⟨(hrest other hother).1.imp fun range h => hkeeps _ range h, (hrest other hother).2⟩
          with ⟨final, hfinal, hknown', hkeeps'⟩ | ⟨other, hother, hconflict⟩
        · exact .inl ⟨final, hfinal, hknown', fun id range h => hkeeps' id range (hkeeps id range h)⟩
        · exact .inr ⟨other, List.mem_cons_of_mem _ hother, hconflict⟩
      cases hget : state.ranges.get? binding.2 with
      | none =>
          refine hgoes _ (recordRange_new hiv hget) (hstate.insert hiv _ _) fun id range h => ?_
          rw [Inference.get?_insert, if_neg, h]
          rintro rfl
          rw [hget] at h
          cases h
      | some existing =>
          by_cases hagrees : state.facts.agrees existing range
          · exact hgoes state (by simp only [recordRange, hget, hagrees, if_true]) hstate
              fun _ _ h => h
          · refine .inr ⟨binding, List.mem_cons_self,
              ⟨.inconsistentRange (stage.ref binding.2) existing range, state⟩, existing, range,
              ?_, rfl⟩
            rw [List.foldlM_cons, hread]
            simp only [recordRange, hget, hagrees]
            rfl

end Threads

section Inference

theorem exists_iterVar?_of_mem_ids (hid : id ∈ stage.ids) :
    ∃ iv, stage.iterVar? id = some iv := by
  obtain ⟨iv, hiv⟩ := exists_iterVar_iff.mpr hid
  exact ⟨iv, iterVar?_eq_some hiv⟩

variable (h : stage.Assembled aside)
  (hderived : ∀ relation ∈ stage.relations, stage.Introduces relation)
include h

theorem Assembled.bindings_known {binding : IterId × IterId}
    (hbinding : binding ∈ stage.threads.toList) :
    binding.1 ∈ stage.defined ∧ ∃ iv, stage.iterVar? binding.2 = some iv := by
  obtain ⟨hleaf, hthread⟩ := h.bound (IterMap.mem_toList.mp hbinding)
  exact ⟨hleaf, exists_iterVar?_of_mem_ids hthread⟩

include hderived

/-- All ranges can be inferred, unless threads are in conflict. -/
theorem Assembled.inferAll_or_conflict (hvars : stage.HasVars)
    (hdomains : stage.HasDomains supplied) :
    (∃ inferred, stage.inferAll supplied = .ok inferred ∧ stage.RangesKnown inferred.ranges ∧
        stage.HasRanges inferred.ranges) ∨
      ∃ leaf thread existing proposed, stage.threads.get? leaf = some thread ∧
        stage.inferAll supplied =
          .error (.inconsistentRange (stage.ref thread) existing proposed) := by
  obtain ⟨withRoots, hroots, hrootsKnown, hrootRanges, hothers⟩ :=
    foldlM_seedRoot_ok h.toLinked.nodup_roots
      (fun root hroot => ⟨hvars root (mem_defined_of_mem_roots hroot), hdomains root hroot⟩)
      (fun _ _ => rfl) stage.rangesKnown_empty
  have hthread : ∀ middle, ∀ thread ∈ stage.threads.values, stage.SeedsThreads withRoots middle →
      ∃ next, stage.seedThread middle thread = .ok next ∧ stage.SeedsThreads withRoots next := by
    intro middle thread hmem hmiddle
    obtain ⟨binding, hbinding, rfl⟩ := List.mem_map.mp hmem
    obtain ⟨iv, hiv⟩ := (h.bindings_known hbinding).2
    exact hmiddle.seedThread_ok hiv
  obtain ⟨withThreads, hthreads, hseeds⟩ := foldlM_ok (stage.SeedsThreads withRoots) hthread
    ⟨hrootsKnown, fun _ h => h, fun _ _ _ _ => rfl⟩
  -- The loops that relations make declare nothing, so nothing was recorded for them.
  have hnew : ∀ id ∈ stage.relations.flatMap Relation.outputs,
      withThreads.ranges.get? id = none := by
    intro id hid
    obtain ⟨relation, hrelation, houtput⟩ := List.mem_flatMap.mp hid
    obtain ⟨iv, hiv⟩ := hvars id (mem_defined_of_mem_outputs hrelation houtput)
    obtain ⟨dtype, hloop⟩ := (hderived relation hrelation).isDerived houtput
    rw [hseeds.undeclared id iv hiv (hloop.undeclared hiv),
      hothers id (h.toLinked.not_mem_roots_of_mem_outputs hrelation houtput)]
    rfl
  have hkept : stage.KeptByRanges fun state => stage.RangesKnown state.ranges :=
    fun range hknown hiv _ => hknown.insert hiv _ range
  obtain ⟨flowed, hflow, hwrites⟩ := h.toLinked.inferFlow_ok hkept hvars ⟨rfl, hseeds.known⟩
    (fun root hroot => hseeds.keeps root (hrootRanges root hroot)) hnew
  have hloops : stage.HasRanges flowed.ranges := by
    intro id hid
    rw [← Option.isSome_iff_exists]
    by_cases hmade : id ∈ stage.relations.flatMap Relation.outputs
    · exact hwrites.known id hmade
    · rw [hwrites.frame id hmade]
      exact hseeds.keeps id (hrootRanges id ((List.mem_append.mp hid).resolve_right hmade))
  have hdown : stage.inferAll supplied =
      (stage.threads.toList.foldlM (stage.inferThreadRange false) flowed).mapError Halt.error := by
    rw [inferAll, hroots, ok_bind, hthreads, ok_bind, rangesDown, hflow, ok_bind]
  rw [hdown]
  rcases foldlM_inferThreadRange_or_conflict hwrites.invariant.2
    (fun binding hbinding => ⟨hloops _ (h.bindings_known hbinding).1,
      (h.bindings_known hbinding).2⟩) with
    ⟨inferred, hinferred, hknown, hkeeps⟩ | ⟨binding, hbinding, halt, existing, proposed, herror,
      hconflict⟩
  · refine .inl ⟨inferred, by rw [hinferred]; rfl, hknown, fun id hid => ?_⟩
    exact (hloops id hid).imp fun range hrange => hkeeps id range hrange
  · refine .inr ⟨binding.1, binding.2, existing, proposed, IterMap.mem_toList.mp hbinding, ?_⟩
    rw [herror, ← hconflict]
    rfl

end Inference

/-- Every leaf gets an index. -/
theorem Assembled.mapM_leafIndex_ok (h : stage.Assembled aside) (hvars : stage.HasVars)
    (hranges : stage.HasRanges ranges) :
    ∃ entries, stage.leaves.mapM (stage.leafIndex ranges) = .ok entries ∧
      ∀ leaf ∈ stage.leaves, ((indexMap entries).get? leaf).isSome := by
  have hentry : ∀ leaf, ∃ entry : LeafIndex, leaf ∈ stage.leaves →
      stage.leafIndex ranges leaf = .ok entry ∧ entry.leaf = leaf := by
    intro leaf
    by_cases hleaf : leaf ∈ stage.leaves
    · have hloop := h.mem_defined_of_mem_leaves hleaf
      obtain ⟨iv, hiv⟩ := hvars leaf hloop
      obtain ⟨range, hrange⟩ := hranges leaf hloop
      cases hthread : stage.threadOf? leaf with
      | none =>
          refine ⟨⟨leaf, iv.expr, range⟩, fun _ => ⟨?_, rfl⟩⟩
          simp only [leafIndex, iterVar_eq_ok hiv, require_eq_ok hrange, hthread, ok_bind]
          rfl
      | some thread =>
          obtain ⟨threadVar, hthreadVar⟩ := exists_iterVar?_of_mem_ids (h.bound hthread).2
          refine ⟨⟨leaf, (threadVar.expr.offsetBy range.min).castTo iv.dtype, range⟩,
            fun _ => ⟨?_, rfl⟩⟩
          simp only [leafIndex, iterVar_eq_ok hiv, require_eq_ok hrange, hthread,
            iterVar_eq_ok hthreadVar, ok_bind]
          rfl
    · exact ⟨⟨leaf, default, default⟩, fun hmem => absurd hmem hleaf⟩
  choose entryOf hentryOf using hentry
  refine ⟨stage.leaves.map entryOf, mapM_eq_ok fun leaf hleaf => (hentryOf leaf hleaf).1,
    fun leaf hleaf => ?_⟩
  have hmap : indexMap (stage.leaves.map entryOf) =
      .ofList (stage.leaves.map fun leaf => (leaf, (entryOf leaf).index)) := by
    rw [indexMap, List.map_map]
    congr 1
    exact List.map_congr_left fun leaf hleaf => by
      rw [Function.comp_apply, (hentryOf leaf hleaf).2]
  rw [hmap, IterMap.get?_ofList_map, if_pos hleaf]
  rfl

/-- Once ranges are inferred, lowering goes through. -/
theorem Assembled.lower_of_inferAll (h : stage.Assembled aside) (hvars : stage.HasVars)
    {inferred : Inference} (hinferred : stage.inferAll supplied = .ok inferred)
    (hknown : stage.RangesKnown inferred.ranges) (hranges : stage.HasRanges inferred.ranges)
    (policy : GuardPolicy) :
    ∃ lowering, stage.lower supplied policy = .ok lowering ∧
      ∀ id ∈ stage.defined, (lowering.ranges.get? id).isSome ∧
        (lowering.upIndices.get? id).isSome := by
  obtain ⟨entries, hentries, hindexed⟩ := h.mapM_leafIndex_ok hvars hranges
  obtain ⟨up, hup, hraises⟩ := h.toLinked.indicesUp_ok hvars hranges hindexed
  obtain ⟨roots, hroots, hget⟩ := hvars.rootIndices_ok
  obtain ⟨down, hdown, -⟩ := h.toLinked.derivableIndicesDown_ok hvars hranges
    (fun root hroot => by rw [hget, if_pos hroot]; rfl) (h.toLinked.get?_of_made hget)
  let facts := LeafIndex.assumeAll inferred.facts entries
  have hindices : ∀ id ∈ stage.defined, ((up.map facts.simplify).get? id).isSome := by
    intro id hid
    rw [IterMap.get?_map, Option.isSome_map]
    exact hraises.known id hid
  obtain ⟨predicates, hpredicates⟩ := h.toLinked.guards_ok hvars hranges hknown
    (fun id hid => Option.isSome_iff_exists.mp (hindices id hid)) policy
  refine ⟨⟨inferred.ranges, up.map facts.simplify, down.map facts.simplify, predicates⟩, ?_,
    fun id hid => ⟨Option.isSome_iff_exists.mpr (hranges id hid), hindices id hid⟩⟩
  rw [lower, validate_eq_ok_iff.mpr h.ordered_stage, ok_bind, hinferred, ok_bind, hentries,
    ok_bind]
  simp only [← indexMap.eq_1, hup, hroots, hdown, Except.mapError, ok_bind]
  change (stage.guards inferred.ranges (up.map facts.simplify) policy >>= _) = _
  rw [hpredicates, ok_bind]
  rfl

/-- A stage with symbolic extents and factors and without threads. -/
def symbolicNest : List Command :=
  [.root "i" (.var ⟨.parameter 0, "n", .int32⟩), .split ⟨0⟩ (.var ⟨.parameter 1, "f", .int32⟩),
    .root "j" (.var ⟨.parameter 2, "m", .int64⟩), .fuse ⟨2⟩ ⟨3⟩]

/-- The proviso is not idle. To find the extent of the outer loop of this nest, a constant next
to the least word is split by ten, and the product wraps. -/
example :
    let ten := Expr.literal .int64 10
    let extent := ((Expr.var ⟨.parameter 0, "n", .int64⟩).mul ten).add
      (.literal .int64 (-9223372036854775806))
    let stage := (Stage.empty "stage" .globalMemory).executeAll [.root "i" extent, .split ⟨0⟩ ten]
    ¬Facts.empty.SimplifiesInWords (extent.floorDiv ten) ∧
      (stage.lower .empty .standard).toOption.isSome = true := by
  decide +kernel

end Stage

end LoopNest
