/-
# Inferred ranges

On a scheduled stage all ranges are literal, so inferring them is arithmetic. Nothing is
inferred twice, hence nothing can disagree and the inference succeeds.

As long as no extent wraps, the ranges cover the nest.
-/

import LoopNest.Lowering
import LoopNest.Proofs.Flow.Extents
import LoopNest.Proofs.Stage.Scheduled

namespace LoopNest

theorem SplitSize.IsLiteral.isConst {size : SplitSize} {given : Int} (h : size.IsLiteral given) :
    size.IsConst .int32 given :=
  ⟨h.eq, h.contains, h.pos⟩

namespace Inference

/-- The facts say no more than the ranges. -/
def IsBound (stage : Stage) (state : Inference) : Prop :=
  ∀ {v range}, state.facts.ranges v = some range →
    ∃ id iv, stage.iterVar? id = some iv ∧ iv.var = v ∧ state.ranges.get? id = some range

/-- A new range is a new fact. -/
theorem keptByRanges_isBound (stage : Stage) : stage.KeptByRanges (IsBound stage) := by
  intro state id iv given h hiv hnew v range hrange
  simp only [Inference.insert, Facts.bind, IterMap.get?_insert] at hrange ⊢
  split at hrange
  · rename_i heq
    exact ⟨id, iv, hiv, heq.symm, by rw [if_pos rfl, hrange]⟩
  · obtain ⟨other, found, hfound, hvar, hother⟩ := h hrange
    have hne : other ≠ id := fun heq => by
      rw [heq, hnew] at hother
      cases hother
    exact ⟨other, found, hfound, hvar, by rw [if_neg hne, hother]⟩

/-- Every range found so far is literal, no constraint was assumed, and the facts say no
more than the ranges. -/
structure IsLiteral (stage : Stage) (state : Inference) : Prop where
  unconstrained : state.facts.constraints = []
  literal : ∀ {id range}, state.ranges.get? id = some range → ∃ low extent,
    DType.int32.contains low = true ∧ DType.int32.contains extent = true ∧
      range = .ofInts low extent
  bound : state.IsBound stage

theorem isLiteral_empty (stage : Stage) : empty.IsLiteral stage where
  unconstrained := rfl
  literal h := nomatch h
  bound h := nomatch h

variable {stage : Stage} {state : Inference} {id : IterId} {iv : IterVar} {low extent : Int}

/-- A literal range for a variable that has none keeps all ranges literal. -/
theorem IsLiteral.insert (h : state.IsLiteral stage) (hiv : stage.iterVar? id = some iv)
    (hnew : state.ranges.get? id = none) (hlow : DType.int32.contains low = true)
    (hextent : DType.int32.contains extent = true) :
    (state.insert id iv.var (.ofInts low extent)).IsLiteral stage := by
  refine ⟨h.unconstrained, fun {other range} hother => ?_,
    keptByRanges_isBound stage _ h.bound hiv hnew⟩
  rw [get?_insert] at hother
  split at hother
  · exact ⟨low, extent, hlow, hextent, (Option.some.inj hother).symm⟩
  · exact h.literal hother

end Inference

namespace Stage

variable {stage : Stage} {state : Inference} {id : IterId} {iv : IterVar} {low extent : Int}

/-- A state with one more literal range. -/
structure Records (stage : Stage) (state : Inference) (id : IterId) (low extent : Int)
    (next : Inference) : Prop where
  literal : next.IsLiteral stage
  get? : ∀ other, next.ranges.get? other =
    if other = id then some (.ofInts low extent) else state.ranges.get? other

/-- A literal range is recorded for a variable that has none. -/
theorem recordRange_literal (h : state.IsLiteral stage) (hiv : stage.iterVar? id = some iv)
    (hnew : state.ranges.get? id = none) (hlow : DType.int32.contains low = true)
    (hextent : DType.int32.contains extent = true) :
    ∃ next, stage.recordRange state id (.ofInts low extent) = .ok next ∧
      stage.Records state id low extent next :=
  ⟨_, recordRange_new hiv hnew, h.insert hiv hnew hlow hextent, fun _ => Inference.get?_insert⟩

/-- The range that a root starts with, the supplied one before the declared one. -/
def rootRange? (stage : Stage) (supplied : IterMap Range) (root : IterId) : Option Range :=
  match supplied.get? root with
  | some range => some range
  | none => (stage.iterVar? root).bind IterVar.declared

/-- All supplied ranges of roots are literal. -/
def SuppliesLiterals (stage : Stage) (supplied : IterMap Range) : Prop :=
  ∀ root ∈ stage.roots, ∀ range ∈ supplied.get? root, ∃ low extent, range.IsLiteral low extent

theorem Regular.rootRange?_isLiteral (h : stage.Regular) {supplied : IterMap Range}
    (hsupplied : stage.SuppliesLiterals supplied) {root : IterId} (hroot : root ∈ stage.roots) :
    ∃ range low extent, stage.rootRange? supplied root = some range ∧
      range.IsLiteral low extent := by
  obtain ⟨iv, hiv, range, hrange, low, extent, hliteral⟩ := h.declared root hroot
  cases hfound : supplied.get? root with
  | some found =>
      obtain ⟨low', extent', hliteral'⟩ := hsupplied root hroot found hfound
      exact ⟨found, low', extent', by rw [rootRange?, hfound], hliteral'⟩
  | none =>
      refine ⟨range, low, extent, ?_, hliteral⟩
      rw [rootRange?, hfound, hiv]
      exact hrange

/-- Roots that have no range yet get theirs. -/
theorem Regular.foldlM_seedRoot (h : stage.Regular) {supplied : IterMap Range}
    (hsupplied : stage.SuppliesLiterals supplied) {roots : List IterId} (hnodup : roots.Nodup)
    (hroots : ∀ root ∈ roots, root ∈ stage.roots) (hliteral : state.IsLiteral stage)
    (hnew : ∀ root ∈ roots, state.ranges.get? root = none) :
    ∃ seeded, roots.foldlM (stage.seedRoot supplied) state = .ok seeded ∧
      seeded.IsLiteral stage ∧ ∀ id, seeded.ranges.get? id =
        if id ∈ roots then stage.rootRange? supplied id else state.ranges.get? id := by
  induction roots generalizing state with
  | nil => exact ⟨state, rfl, hliteral, by simp⟩
  | cons root rest ih =>
      obtain ⟨hfresh, hnodup⟩ := List.nodup_cons.mp hnodup
      rw [List.forall_mem_cons] at hroots hnew
      obtain ⟨iv, hiv, -⟩ := h.declared root hroots.1
      obtain ⟨range, low, extent, hrange, rfl, hlow, hextent, -⟩ :=
        h.rootRange?_isLiteral hsupplied hroots.1
      obtain ⟨next, hnext, hrecords⟩ := recordRange_literal hliteral hiv hnew.1 hlow hextent
      have hseed : stage.seedRoot supplied state root = .ok next := by
        rw [seedRoot]
        rw [rootRange?] at hrange
        cases hfound : supplied.get? root with
        | some range =>
            rw [hfound] at hrange
            obtain rfl := Option.some.inj hrange
            exact hnext
        | none =>
            simp only [hfound, hiv, Option.bind_some] at hrange
            simp only [iterVar_eq_ok hiv, ok_bind, hrange]
            exact hnext
      obtain ⟨seeded, hfold, hseeded, hget⟩ := ih hnodup hroots.2 hrecords.literal
        (fun other hother => by
          rw [hrecords.get?, if_neg fun heq : other = root => hfresh (heq ▸ hother)]
          exact hnew.2 other hother)
      refine ⟨seeded, by rw [List.foldlM_cons, hseed, ok_bind, hfold], hseeded, fun id => ?_⟩
      rw [hget, hrecords.get?]
      by_cases hrest : id ∈ rest
      · simp [hrest]
      · by_cases hself : id = root
        · subst hself
          simp [hrest, hrange]
        · simp [hrest, hself]

/-- A thread of a scheduled stage declares no range. -/
theorem Regular.foldlM_seedThread (h : stage.Regular) (state : Inference) :
    stage.threads.values.foldlM stage.seedThread state = .ok state := by
  have hvalues : ∀ thread ∈ stage.threads.values, stage.seedThread state thread = .ok state := by
    intro thread hthread
    obtain ⟨⟨leaf, other⟩, hentry, rfl⟩ := List.mem_map.mp hthread
    obtain ⟨-, iv, hiv, hkind⟩ := h.threads (IterMap.mem_toList.mp hentry)
    have hnone := h.labelled.undeclared iv (List.mem_of_getElem? hiv) hkind
    simp only [seedThread, iterVar_eq_ok hiv, ok_bind, hnone]
    rfl
  generalize stage.threads.values = threads at hvalues
  induction threads with
  | nil => rfl
  | cons thread rest ih =>
      rw [List.forall_mem_cons] at hvalues
      rw [List.foldlM_cons, hvalues.1, ok_bind, ih hvalues.2]

/-- Threads that have no range yet get those of their leaves. -/
theorem Regular.foldlM_inferThreadRange (h : stage.Regular) {bindings : List (IterId × IterId)}
    (hnodup : (bindings.map Prod.snd).Nodup)
    (hbindings : ∀ binding ∈ bindings, stage.threads.get? binding.1 = some binding.2)
    (hliteral : state.IsLiteral stage)
    (hloops : ∀ id ∈ stage.loops, (state.ranges.get? id).isSome)
    (hnew : ∀ binding ∈ bindings, state.ranges.get? binding.2 = none) :
    ∃ inferred, bindings.foldlM (stage.inferThreadRange false) state = .ok inferred ∧
      inferred.IsLiteral stage ∧
      (∀ binding ∈ bindings, inferred.ranges.get? binding.2 = state.ranges.get? binding.1) ∧
      ∀ id, id ∉ bindings.map Prod.snd → inferred.ranges.get? id = state.ranges.get? id := by
  induction bindings generalizing state with
  | nil => exact ⟨state, rfl, hliteral, by simp, by simp⟩
  | cons binding rest ih =>
      rw [List.map_cons] at hnodup
      obtain ⟨hfresh, hnodup⟩ := List.nodup_cons.mp hnodup
      rw [List.forall_mem_cons] at hbindings hnew
      obtain ⟨hleaf, iv, hiv, -⟩ := h.threads hbindings.1
      obtain ⟨range, hrange⟩ := Option.isSome_iff_exists.mp (hloops _ hleaf)
      obtain ⟨low, extent, hlow, hextent, rfl⟩ := hliteral.literal hrange
      obtain ⟨next, hnext, hrecords⟩ := recordRange_literal hliteral hiv hnew.1 hlow hextent
      have hstep : stage.inferThreadRange false state binding = .ok next := by
        simp only [inferThreadRange, read?, hrange, ok_bind, hnext, Halt.keeping_ok]
      have hloop : ∀ id ∈ stage.loops, id ≠ binding.2 := fun id hid heq =>
        h.thread_notMem_loops hbindings.1 (heq ▸ hid)
      obtain ⟨inferred, hfold, hinferred, hthreads, hothers⟩ := ih hnodup hbindings.2
        hrecords.literal
        (fun id hid => by rw [hrecords.get?, if_neg (hloop id hid)]; exact hloops id hid)
        (fun other hother => by
          rw [hrecords.get?, if_neg fun heq : other.2 = binding.2 =>
            hfresh (heq ▸ List.mem_map_of_mem hother)]
          exact hnew.2 other hother)
      refine ⟨inferred, by rw [List.foldlM_cons, hstep, ok_bind, hfold], hinferred, ?_, ?_⟩
      · rw [List.forall_mem_cons]
        refine ⟨?_, fun other hother => ?_⟩
        · rw [hothers _ hfresh, hrecords.get?, if_pos rfl, hrange]
        · rw [hthreads other hother, hrecords.get?,
            if_neg (hloop _ (h.threads (hbindings.2 other hother)).1)]
      · intro id hid
        simp only [List.map_cons, List.mem_cons, not_or] at hid
        rw [hothers id hid.2, hrecords.get?, if_neg hid.1]

theorem Regular.hasVars (h : stage.Regular) : stage.HasVars := by
  intro id hid
  obtain ⟨iv, hiv, -⟩ := mem_loops.mp (h.mem_defined_iff.mp hid)
  exact ⟨iv, hiv⟩

theorem Regular.hasConstSize (h : stage.Regular) {relation : Relation}
    (hrelation : relation ∈ stage.relations) : relation.HasConstSize .int32 := by
  have hsize := h.sizes relation hrelation
  cases relation with
  | split parent outer inner size => exact hsize.imp fun _ hgiven => hgiven.isConst
  | fuse | rebase | singleton => trivial

/-- The ranges of all loops are literal when those of the roots are. -/
theorem Regular.hasNumbers (h : stage.Regular) {ranges : IterMap Range}
    (hroots : ∀ root ∈ stage.roots, ranges.HasNumbers .int32 root)
    (hfollows : ∀ relation ∈ stage.relations, stage.RangesFollow .int32 ranges.get? relation) :
    ∀ id ∈ stage.loops, ranges.HasNumbers .int32 id := by
  refine h.induction_down hroots fun relation hrelation hinputs id hid => ?_
  exact ((hfollows relation hrelation).hasNumbers (h.hasConstSize hrelation) hinputs
    (fun id hid given => Word.floorMod?_of_int32 (hinputs id hid).extent) id hid).1

/-- What is known of the ranges before threads get theirs: the loops have ranges, and nothing
else has one. -/
structure RangesFlowed (stage : Stage) (supplied : IterMap Range) (flowed : Inference) : Prop where
  literal : flowed.IsLiteral stage
  roots : ∀ root ∈ stage.roots, flowed.ranges.get? root = stage.rootRange? supplied root
  relations : ∀ relation ∈ stage.relations, stage.RangesInferred [] flowed.ranges.get? relation
  loops : ∀ id ∈ stage.loops, (flowed.ranges.get? id).isSome
  others : ∀ {id}, id ∉ stage.loops → flowed.ranges.get? id = none

/-- The ranges of the roots flow down to all loops of a scheduled stage. -/
theorem Regular.inferFlow_ok (h : stage.Regular) {supplied : IterMap Range}
    (hsupplied : stage.SuppliesLiterals supplied) :
    ∃ seeded flowed, stage.roots.foldlM (stage.seedRoot supplied) .empty = .ok seeded ∧
      stage.flowDown (stage.inferRanges stage.threadDominance false) seeded = .ok flowed ∧
      stage.RangesFlowed supplied flowed := by
  obtain ⟨seeded, hseeds, hliteral, hseeded⟩ := h.foldlM_seedRoot hsupplied h.linked.nodup_roots
    (fun _ hroot => hroot) (Inference.isLiteral_empty stage) (fun _ _ => rfl)
  have hmade : ∀ {id}, id ∈ stage.relations.flatMap Relation.outputs → id ∉ stage.roots := by
    intro id hid
    obtain ⟨relation, hrelation, houtput⟩ := List.mem_flatMap.mp hid
    exact h.linked.not_mem_roots_of_mem_outputs hrelation houtput
  obtain ⟨flowed, hflow, hwrites⟩ := h.linked.inferFlow_ok
    (Inference.keptByRanges_isBound stage) h.hasVars ⟨hliteral.unconstrained, hliteral.bound⟩
    (by
      intro root hroot
      obtain ⟨range, -, -, hrange, -⟩ := h.rootRange?_isLiteral hsupplied hroot
      rw [hseeded, if_pos hroot, hrange]
      rfl)
    (by
      intro id hid
      rw [hseeded, if_neg (hmade hid)]
      rfl)
  have hroots : ∀ root ∈ stage.roots,
      flowed.ranges.get? root = stage.rootRange? supplied root := by
    intro root hroot
    rw [hwrites.frame root fun hid => hmade hid hroot, hseeded, if_pos hroot]
  have hnumbers : ∀ id ∈ stage.loops, flowed.ranges.HasNumbers .int32 id := by
    refine h.hasNumbers (fun root hroot => ?_) fun relation hrelation =>
      (hwrites.conditions relation hrelation).follow (by simp) fun _ _ _ hiv => h.dtype_eq hiv
    obtain ⟨range, low, extent, hrange, rfl, hlow, hextent, -⟩ :=
      h.rootRange?_isLiteral hsupplied hroot
    exact IterMap.hasNumbers_of_get? ((hroots root hroot).trans hrange) hlow hextent
  have hothers : ∀ {id}, id ∉ stage.loops → flowed.ranges.get? id = none := by
    intro id hid
    have hneither := mt (fun hmem => h.origin.subset hmem) hid
    rw [List.mem_append, not_or] at hneither
    rw [hwrites.frame id hneither.2, hseeded, if_neg hneither.1]
    rfl
  refine ⟨seeded, flowed, hseeds, hflow, ⟨hwrites.invariant.1, fun {id range} hrange => ?_,
    hwrites.invariant.2⟩, hroots, hwrites.conditions, fun id hid => ?_, hothers⟩
  · by_cases hid : id ∈ stage.loops
    · obtain ⟨hget, hlow, hextent⟩ := hnumbers id hid
      exact ⟨_, _, hlow, hextent, Option.some.inj (hrange.symm.trans hget)⟩
    · rw [hothers hid] at hrange
      cases hrange
  · rw [(hnumbers id hid).get?]
    rfl

/-- What is known once all ranges of a scheduled stage were inferred. -/
structure Infers (stage : Stage) (supplied : IterMap Range) (inferred : Inference) : Prop where
  literal : inferred.IsLiteral stage
  roots : ∀ root ∈ stage.roots, inferred.ranges.get? root = stage.rootRange? supplied root
  relations : ∀ relation ∈ stage.relations,
    stage.RangesFollow .int32 inferred.ranges.get? relation
  loops : ∀ id ∈ stage.loops, (inferred.ranges.get? id).isSome
  threads : ∀ {leaf thread}, stage.threads.get? leaf = some thread →
    inferred.ranges.get? thread = inferred.ranges.get? leaf
  others : ∀ {id range}, inferred.ranges.get? id = some range →
    id ∈ stage.loops ∨ ∃ leaf, stage.threads.get? leaf = some id

/-- The inference of all ranges succeeds on a scheduled stage. -/
theorem Regular.inferAll_ok (h : stage.Regular) {supplied : IterMap Range}
    (hsupplied : stage.SuppliesLiterals supplied) :
    ∃ inferred, stage.inferAll supplied = .ok inferred ∧ stage.Infers supplied inferred := by
  obtain ⟨seeded, flowed, hseeds, hflow, hflowed⟩ := h.inferFlow_ok hsupplied
  have hbindings : ∀ binding ∈ stage.threads.toList,
      stage.threads.get? binding.1 = some binding.2 := fun binding => IterMap.mem_toList.mp
  obtain ⟨inferred, hfold, hinferred, hthreads, hothers⟩ := h.foldlM_inferThreadRange
    h.nodup_threads hbindings hflowed.literal hflowed.loops fun binding hbinding =>
      hflowed.others (h.thread_notMem_loops (hbindings binding hbinding))
  have hloop : ∀ id ∈ stage.loops, inferred.ranges.get? id = flowed.ranges.get? id := by
    intro id hid
    refine hothers id fun hmem => ?_
    obtain ⟨binding, hbinding, rfl⟩ := List.mem_map.mp hmem
    exact h.thread_notMem_loops (hbindings binding hbinding) hid
  refine ⟨inferred, ?_, hinferred, fun root hroot => ?_, fun relation hrelation => ?_,
    fun id hid => ?_, fun {leaf thread} hget => ?_, fun {id range} hget => ?_⟩
  · rw [inferAll, hseeds, ok_bind, h.foldlM_seedThread, ok_bind, rangesDown, hflow, ok_bind, hfold]
    rfl
  · rw [hloop root (h.mem_loops_of_mem_roots hroot), hflowed.roots root hroot]
  · refine (isLocal_rangesInferred stage [] relation (fun id hid => (hloop id ?_).symm)
      (hflowed.relations relation hrelation)).follow (by simp) fun _ _ _ hiv => h.dtype_eq hiv
    exact h.mem_defined_iff.mp (h.linked.mem_defined_of_mem_relation hrelation hid)
  · rw [hloop id hid]
    exact hflowed.loops id hid
  · rw [hthreads (leaf, thread) (IterMap.mem_toList.mpr hget), hloop leaf (h.threads hget).1]
  · by_cases hid : id ∈ stage.loops
    · exact .inl hid
    · refine .inr ?_
      by_contra hnone
      rw [not_exists] at hnone
      rw [hothers id, hflowed.others hid] at hget
      · cases hget
      · intro hmem
        obtain ⟨binding, hbinding, rfl⟩ := List.mem_map.mp hmem
        exact hnone binding.1 (hbindings binding hbinding)

end Stage

namespace Stage.Infers

variable {stage : Stage} {supplied : IterMap Range} {inferred : Inference} {relation : Relation}
  {id : IterId}

/-- The range of a loop is literal, and its numbers lie in their type. -/
theorem hasNumbers (h : stage.Infers supplied inferred) (hid : id ∈ stage.loops) :
    inferred.ranges.HasNumbers .int32 id := by
  obtain ⟨range, hrange⟩ := Option.isSome_iff_exists.mp (h.loops id hid)
  obtain ⟨low, extent, hlow, hextent, rfl⟩ := h.literal.literal hrange
  exact IterMap.hasNumbers_of_get? hrange hlow hextent

section Made

variable (h : stage.Infers supplied inferred) (hregular : stage.Regular)
include h hregular

/-- What a relation makes starts at zero. -/
theorem low_made (hrelation : relation ∈ stage.relations) (hid : id ∈ relation.outputs) :
    inferred.ranges.box.low id = 0 :=
  ((h.relations relation hrelation).hasNumbers (hregular.hasConstSize hrelation)
    (fun _ hid => h.hasNumbers (hregular.mem_loops_of_mem_inputs hrelation hid))
    (fun _ hid _ => Word.floorMod?_of_int32
      (h.hasNumbers (hregular.mem_loops_of_mem_inputs hrelation hid)).extent) id hid).2

/-- One relation downward: where extents do not wrap, positive extents make positive ones,
and what the relation makes covers what it consumes. -/
theorem covers_of_positive (hrelation : relation ∈ stage.relations)
    (hfit : inferred.ranges.box.ExtentsFit relation)
    (hpositive : ∀ id ∈ relation.inputs, 1 ≤ inferred.ranges.box.extent id) :
    (∀ id ∈ relation.outputs, 1 ≤ inferred.ranges.box.extent id) ∧
      inferred.ranges.box.Covers relation ∧ inferred.ranges.box.ProductFits .int32 relation :=
  (h.relations relation hrelation).covers_of_positive (hregular.hasConstSize hrelation)
    (fun _ hid => h.hasNumbers (hregular.mem_loops_of_mem_inputs hrelation hid))
    (fun _ hid _ => Word.floorMod?_of_int32
      (h.hasNumbers (hregular.mem_loops_of_mem_inputs hrelation hid)).extent)
    hfit.roundsWithin hfit.fusesWithin hpositive

variable (hsupplied : stage.SuppliesLiterals supplied)
variable (hfit : ∀ relation ∈ stage.relations, inferred.ranges.box.ExtentsFit relation)
include hsupplied hfit

/-- Where no extent wraps, every loop has an iteration. -/
theorem positive : ∀ id ∈ stage.loops, 1 ≤ inferred.ranges.box.extent id := by
  refine hregular.induction_down (fun root hroot => ?_) fun relation hrelation hinputs =>
    (h.covers_of_positive hregular hrelation (hfit relation hrelation) hinputs).1
  obtain ⟨range, low, extent, hrange, rfl, -, -, hpos⟩ :=
    hregular.rootRange?_isLiteral hsupplied hroot
  rw [(IterMap.box_of_get? ((h.roots root hroot).trans hrange)).2]
  exact hpos

/-- Where no extent wraps, the inferred ranges cover the nest. -/
theorem fits : inferred.ranges.box.Fits stage := by
  have hpositive := h.positive hregular hsupplied hfit
  refine ⟨fun id hid => hpositive id (hregular.mem_defined_iff.mp hid),
    fun relation hrelation => ?_⟩
  exact (h.covers_of_positive hregular hrelation (hfit relation hrelation) fun id hid =>
    hpositive id (hregular.mem_loops_of_mem_inputs hrelation hid)).2.1

/-- Where no extent wraps, neither does the number of iterations of a split. -/
theorem product_fits :
    ∀ relation ∈ stage.relations, inferred.ranges.box.ProductFits .int32 relation :=
  fun relation hrelation =>
    (h.covers_of_positive hregular hrelation (hfit relation hrelation) fun id hid =>
      h.positive hregular hsupplied hfit id (hregular.mem_loops_of_mem_inputs hrelation hid)).2.2

end Made

end Stage.Infers

end LoopNest
