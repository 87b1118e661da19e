/-
# The variables of a lowering

Lowering consults facts about every loop and every thread of a stage, but none of these
variables gets into a result that way. What is reported upward mentions the variables that
drive the leaves, what is reported downward mentions the variables of the roots, and both
mention the symbols that the stage was built with: those of the ranges of the roots and of
the extents that splits fix. Guards also mention the ranges that roots declare, which differ
from those they start with when others are supplied.

Everything is shown for one variable at a time. If the stage does not bring it in, no range
of a loop mentions it, and then no pass over indices puts it into an index. Ranges of threads
are another matter: a thread that declares a range keeps it, whatever it mentions, but no
loop and no guard takes its range from a thread.
-/

import LoopNest.Proofs.Flow.Mentions
import LoopNest.Proofs.Lowering.Total

namespace LoopNest

namespace IterMap

variable {α : Type} {map : IterMap α} {entries : List (IterId × α)} {id : IterId} {value : α}

theorem mem_or_get?_of_insertAll (h : (map.insertAll entries).get? id = some value) :
    (id, value) ∈ entries ∨ map.get? id = some value := by
  induction entries generalizing map with
  | nil => exact .inr h
  | cons entry rest ih =>
      rcases ih h with hrest | hmap
      · exact .inl (List.mem_cons_of_mem _ hrest)
      · rw [get?_insert] at hmap
        split at hmap
        · rename_i heq
          obtain rfl := Option.some.inj hmap
          exact .inl (heq ▸ List.mem_cons_self)
        · exact .inr hmap

/-- What can be read from the map of a list stands in the list. -/
theorem mem_of_get?_ofList (h : (ofList entries).get? id = some value) : (id, value) ∈ entries :=
  (mem_or_get?_of_insertAll h).resolve_right nofun

end IterMap

namespace Stage

variable {stage : Stage} {aside : List IterId} {v : Var} {supplied ranges : IterMap Range}
  {state next inferred : Inference} {relation : Relation} {id root : IterId} {range : Range}

/-- The ranges that the roots start with, or the extents that splits fix, mention a
variable. -/
def HasSymbol (stage : Stage) (supplied : IterMap Range) (v : Var) : Prop :=
  (∃ root ∈ stage.roots, ∃ range, stage.domain? supplied root = some range ∧
      range.mentions v = true) ∨
    ∃ relation ∈ stage.relations, relation.mentions v = true

/-- The ranges that the roots declare mention a variable. -/
def DeclaresSymbol (stage : Stage) (v : Var) : Prop :=
  ∃ root ∈ stage.roots, ∃ iv range, stage.iterVar? root = some iv ∧ iv.declared = some range ∧
    range.mentions v = true

/-- A variable is that of a leaf that is bound to no thread, or of a thread that a leaf is bound
to. -/
def Drives (stage : Stage) (v : Var) : Prop :=
  ∃ leaf ∈ stage.leaves, ∃ iv, stage.iterVar? (stage.driver leaf) = some iv ∧ iv.var = v

/-- A variable is that of a root. -/
def IsRootVar (stage : Stage) (v : Var) : Prop :=
  ∃ root ∈ stage.roots, ∃ iv, stage.iterVar? root = some iv ∧ iv.var = v

section Ranges

/-- No range of a loop mentions a variable. Ranges of threads may. -/
abbrev LoopsAvoid (stage : Stage) (v : Var) (ranges : IterMap Range) : Prop :=
  RangesAvoid (· ∈ stage.defined) v ranges

theorem recordRange_known (h : stage.recordRange state id range = .ok next) :
    (next.ranges.get? id).isSome = true := by
  unfold recordRange at h
  split at h
  · obtain ⟨iv, -, hnext⟩ := bind_eq_ok.mp h
    rw [← Except.ok.inj hnext, Inference.get?_insert, if_pos rfl]
    rfl
  · rename_i existing hexisting
    split at h
    · rw [← Except.ok.inj h, hexisting]
      rfl
    · cases h

theorem recordRange_keeps_known {other : IterId}
    (h : stage.recordRange state id range = .ok next)
    (hother : (state.ranges.get? other).isSome = true) :
    (next.ranges.get? other).isSome = true := by
  obtain ⟨known, hknown⟩ := Option.isSome_iff_exists.mp hother
  rw [(recordRange_keeps h).2 other known hknown]
  rfl

/-- What is recorded for a root is the range that it starts with. -/
theorem seedRoot_inv (h : stage.seedRoot supplied state root = .ok next) :
    ∃ range, stage.domain? supplied root = some range ∧
      stage.recordRange state root range = .ok next := by
  unfold seedRoot at h
  rw [domain?]
  split at h
  · rename_i range hsupplied
    exact ⟨range, by rw [hsupplied, Option.some_or], h⟩
  · rename_i hnone
    obtain ⟨iv, hiv, h⟩ := bind_eq_ok.mp h
    split at h
    · rename_i range hdeclared
      refine ⟨range, ?_, h⟩
      rw [hnone, Option.none_or, iterVar?_eq_some hiv, Option.bind_some, hdeclared]
    · cases h

/-- All roots have ranges, and no range of a loop mentions a variable. -/
structure RootsAvoid (stage : Stage) (v : Var) (ranges : IterMap Range) : Prop where
  avoids : stage.LoopsAvoid v ranges
  known : ∀ root ∈ stage.roots, (ranges.get? root).isSome = true

/-- The roots get the ranges that they start with. -/
theorem foldlM_seedRoot_avoids
    (hdomains : ∀ root ∈ stage.roots, ∀ range, stage.domain? supplied root = some range →
      range.mentions v = false)
    (h : stage.roots.foldlM (stage.seedRoot supplied) Inference.empty = .ok next) :
    stage.RootsAvoid v next.ranges := by
  obtain ⟨havoids, hknown, -⟩ := foldlM_settles
    (fun state => stage.LoopsAvoid v state.ranges)
    (fun root state => (state.ranges.get? root).isSome = true)
    (fun state root hroot next hnext hstate => by
      obtain ⟨range, hrange, hrecord⟩ := seedRoot_inv hnext
      exact ⟨hstate.recordRange hrecord fun _ => hdomains root hroot range hrange,
        recordRange_known hrecord, fun _ => recordRange_keeps_known hrecord⟩) h nofun
  exact ⟨havoids, hknown⟩

/-- A declared range of a thread is not recorded for any loop: a root has its range already,
and a loop that a relation makes declares none. -/
theorem RootsAvoid.seedThread
    (hderived : ∀ relation ∈ stage.relations, stage.Introduces relation)
    (h : stage.RootsAvoid v state.ranges) {thread : IterId}
    (hnext : stage.seedThread state thread = .ok next) : stage.RootsAvoid v next.ranges := by
  obtain ⟨iv, hiv, hnext⟩ := bind_eq_ok.mp hnext
  split at hnext
  · rename_i range hdeclared
    split at hnext
    · exact Except.ok.inj hnext ▸ h
    · rename_i hfresh
      refine ⟨h.avoids.recordRange hnext fun hloop => absurd hfresh ?_,
        fun root hroot => recordRange_keeps_known hnext (h.known root hroot)⟩
      rw [not_not, IterMap.contains]
      rcases List.mem_append.mp hloop with hroot | hmade
      · exact h.known thread hroot
      · obtain ⟨relation, hrelation, houtput⟩ := List.mem_flatMap.mp hmade
        obtain ⟨dtype, hmade⟩ := (hderived relation hrelation).isDerived houtput
        rw [hmade.undeclared (iterVar?_eq_some hiv)] at hdeclared
        cases hdeclared
  · exact Except.ok.inj hnext ▸ h

/-- No range of a loop mentions a variable that the stage is not built with. -/
theorem Assembled.inferAll_avoids (h : stage.Assembled aside)
    (hderived : ∀ relation ∈ stage.relations, stage.Introduces relation)
    (hfree : ¬stage.HasSymbol supplied v) (hinferred : stage.inferAll supplied = .ok inferred) :
    stage.LoopsAvoid v inferred.ranges := by
  simp only [HasSymbol, not_or, not_exists, not_and, Bool.not_eq_true] at hfree
  simp only [inferAll, rangesDown, bind_eq_ok, mapError_eq_ok] at hinferred
  obtain ⟨withRoots, hroots, withThreads, hthreads, flowed, hflow, hinferred⟩ := hinferred
  have hseeded := foldlM_keeps (fun state => stage.RootsAvoid v state.ranges)
    (fun _ _ _ _ hnext hstate => hstate.seedThread hderived hnext) hthreads
    (foldlM_seedRoot_avoids hfree.1 hroots)
  have hflowed := foldlM_keeps (fun state => stage.LoopsAvoid v state.ranges)
    (fun _ relation hrelation _ hnext hstate => hstate.inferRanges
      (fun id hid => h.toLinked.mem_defined_of_mem_inputs hrelation hid)
      (hfree.2 relation hrelation) hnext) hflow hseeded.avoids
  exact foldlM_keeps (fun state => stage.LoopsAvoid v state.ranges)
    (fun _ _ hbinding _ hnext hstate =>
      hstate.inferThreadRange (h.bindings_known hbinding).1 hnext) hinferred hflowed

end Ranges

section Indices

variable {indices up : IterMap Expr} {index : Expr} {leaf : IterId}

/-- Only loops have indices, and none of them mentions a variable. -/
def IndicesAvoid (stage : Stage) (v : Var) (indices : IterMap Expr) : Prop :=
  ∀ id index, indices.get? id = some index → id ∈ stage.defined ∧ index.mentions v = false

theorem IndicesAvoid.insert (h : stage.IndicesAvoid v indices) (hid : id ∈ stage.defined)
    (hindex : index.mentions v = false) : stage.IndicesAvoid v (indices.insert id index) := by
  intro other found hfound
  rw [IterMap.get?_insert] at hfound
  split at hfound
  · rename_i heq
    exact ⟨heq ▸ hid, Option.some.inj hfound ▸ hindex⟩
  · exact h other found hfound

theorem IndicesAvoid.map_simplify (h : stage.IndicesAvoid v indices) (facts : Facts) :
    stage.IndicesAvoid v (indices.map facts.simplify) := by
  intro id index hindex
  rw [IterMap.get?_map, Option.map_eq_some_iff] at hindex
  obtain ⟨original, horiginal, rfl⟩ := hindex
  exact ⟨(h id original horiginal).1, facts.mentions_simplify (h id original horiginal).2⟩

section Step

variable (hlinked : stage.Linked) (hranges : stage.LoopsAvoid v ranges)
  (hrelation : relation ∈ stage.relations)
include hlinked hranges hrelation

theorem Linked.require_avoids (pass : PassName) :
    ∀ id ∈ relation.inputs ++ relation.outputs, ∀ range,
      stage.require pass ranges id = .ok range →
        range.min.mentions v = false ∧ range.extent.mentions v = false :=
  fun id hid range hrange => Range.mentions_eq_false_iff.mp
    (hranges id (hlinked.mem_defined_of_mem_relation hrelation hid) range (get?_of_require hrange))

/-- One relation upward. -/
theorem Linked.liftIndex_avoids {lenient : Bool}
    (hnext : stage.liftIndex ranges lenient indices relation = .ok up)
    (h : stage.IndicesAvoid v indices) : stage.IndicesAvoid v up := by
  have hloop : ∀ id ∈ relation.inputs, id ∈ stage.defined :=
    fun id hid => hlinked.mem_defined_of_mem_inputs hrelation hid
  have hrange := hlinked.require_avoids hranges hrelation .upIndices
  cases relation with
  | split parent outer inner size =>
      simp only [liftIndex, bind_eq_ok, Halt.keeping_eq_ok] at hnext
      obtain ⟨found, hfound, hnext⟩ := hnext
      cases found with
      | none => exact Except.ok.inj hnext ▸ h
      | some both =>
          obtain ⟨outerIndex, innerIndex⟩ := both
          obtain ⟨houter, hinner⟩ := get?_of_readBoth? hfound
          simp only [bind_eq_ok] at hnext
          obtain ⟨innerRange, hinnerRange, parentRange, hparentRange, iv, -, hnext⟩ := hnext
          have hextent := (hrange inner (by simp [Relation.outputs]) _ hinnerRange).2
          have hmin := (hrange parent (by simp [Relation.inputs]) _ hparentRange).1
          refine Except.ok.inj hnext ▸ h.insert (hloop parent List.mem_cons_self) ?_
          exact Expr.mentions_castTo (Expr.mentions_offsetBy (Expr.mentions_combine
            (Expr.mentions_combine (h _ _ houter).2 hextent) (h _ _ hinner).2) hmin) _
  | fuse outer inner fused =>
      simp only [liftIndex, bind_eq_ok, Halt.keeping_eq_ok] at hnext
      obtain ⟨found, hfound, hnext⟩ := hnext
      cases found with
      | none => exact Except.ok.inj hnext ▸ h
      | some index =>
          have hindex := (h fused index (get?_of_read? hfound)).2
          simp only [bind_eq_ok, Halt.keeping_eq_ok] at hnext
          obtain ⟨innerRange, hinnerRange, outerRange, houterRange, outerVar, -, innerVar, -,
            hnext⟩ := hnext
          have hinner := hrange inner (by simp [Relation.inputs]) _ hinnerRange
          have houter := hrange outer (by simp [Relation.inputs]) _ houterRange
          have hquotient : (index.floorDiv innerRange.extent).mentions v = false :=
            Expr.mentions_combine hindex hinner.2
          have hremainder : (index.floorMod innerRange.extent).mentions v = false :=
            Expr.mentions_combine hindex hinner.2
          exact Except.ok.inj hnext ▸ (h.insert (hloop outer (by simp [Relation.inputs]))
            (Expr.mentions_castTo (Expr.mentions_offsetBy hquotient houter.1) _)).insert
            (hloop inner (by simp [Relation.inputs]))
            (Expr.mentions_castTo (Expr.mentions_offsetBy hremainder hinner.1) _)
  | rebase parent rebased =>
      simp only [liftIndex, bind_eq_ok, Halt.keeping_eq_ok] at hnext
      obtain ⟨found, hfound, hnext⟩ := hnext
      cases found with
      | none => exact Except.ok.inj hnext ▸ h
      | some index =>
          simp only [bind_eq_ok] at hnext
          obtain ⟨parentRange, hparentRange, hnext⟩ := hnext
          exact Except.ok.inj hnext ▸ h.insert (hloop parent List.mem_cons_self)
            (Expr.mentions_offsetBy (h rebased index (get?_of_read? hfound)).2
              (hrange parent (by simp [Relation.inputs]) _ hparentRange).1)
  | singleton iter => exact Except.ok.inj hnext ▸ h

/-- One relation downward. -/
theorem Linked.lowerIndex_avoids {lenient skipOffsets : Bool}
    (hnext : stage.lowerIndex ranges lenient skipOffsets indices relation = .ok up)
    (h : stage.IndicesAvoid v indices) : stage.IndicesAvoid v up := by
  have hloop : ∀ id ∈ relation.outputs, id ∈ stage.defined :=
    fun id hid => mem_defined_of_mem_outputs hrelation hid
  have hrange := hlinked.require_avoids hranges hrelation .downIndices
  cases relation with
  | split parent outer inner size =>
      simp only [lowerIndex, bind_eq_ok] at hnext
      obtain ⟨found, hfound, hnext⟩ := hnext
      cases found with
      | none => exact Except.ok.inj hnext ▸ h
      | some index =>
          have hindex := (h parent index (get?_of_read? hfound)).2
          simp only [bind_eq_ok] at hnext
          obtain ⟨innerRange, hinnerRange, atZero, -, hnext⟩ := hnext
          have hextent := (hrange inner (by simp [Relation.outputs]) _ hinnerRange).2
          split at hnext
          · exact Except.ok.inj hnext ▸ (h.insert (hloop outer (by simp [Relation.outputs]))
              (Expr.mentions_combine hindex hextent)).insert
              (hloop inner (by simp [Relation.outputs])) (Expr.mentions_combine hindex hextent)
          · exact Except.ok.inj hnext ▸ h
  | fuse outer inner fused =>
      simp only [lowerIndex, bind_eq_ok] at hnext
      obtain ⟨found, hfound, hnext⟩ := hnext
      cases found with
      | none => exact Except.ok.inj hnext ▸ h
      | some both =>
          obtain ⟨outerIndex, innerIndex⟩ := both
          obtain ⟨houter, hinner⟩ := get?_of_readBoth? hfound
          simp only [bind_eq_ok] at hnext
          obtain ⟨outerRange, -, innerRange, hinnerRange, outerAtZero, -, hnext⟩ := hnext
          have hextent := (hrange inner (by simp [Relation.inputs]) _ hinnerRange).2
          split at hnext
          · obtain ⟨innerAtZero, -, hnext⟩ := bind_eq_ok.mp hnext
            split at hnext
            · exact Except.ok.inj hnext ▸ h.insert (hloop fused List.mem_cons_self)
                (Expr.mentions_combine (Expr.mentions_combine (h _ _ houter).2 hextent)
                  (h _ _ hinner).2)
            · exact Except.ok.inj hnext ▸ h
          · exact Except.ok.inj hnext ▸ h
  | rebase parent rebased =>
      simp only [lowerIndex, bind_eq_ok] at hnext
      obtain ⟨found, hfound, hnext⟩ := hnext
      cases found with
      | none => exact Except.ok.inj hnext ▸ h
      | some index =>
          simp only [bind_eq_ok] at hnext
          obtain ⟨parentRange, -, atZero, -, hnext⟩ := hnext
          split at hnext
          · exact Except.ok.inj hnext ▸ h.insert (hloop rebased List.mem_cons_self)
              (h parent index (get?_of_read? hfound)).2
          · exact Except.ok.inj hnext ▸ h
  | singleton iter =>
      simp only [lowerIndex, bind_eq_ok] at hnext
      obtain ⟨iv, -, hnext⟩ := hnext
      exact Except.ok.inj hnext ▸ h.insert (hloop iter List.mem_cons_self) rfl

end Step

/-- The index of a leaf mentions the variable that drives it and the start of its range. -/
theorem leafIndex_avoids (hranges : stage.LoopsAvoid v ranges) (hfree : ¬stage.Drives v)
    (hleaf : leaf ∈ stage.leaves) (hloop : leaf ∈ stage.defined) {entry : LeafIndex}
    (h : stage.leafIndex ranges leaf = .ok entry) :
    entry.leaf = leaf ∧ entry.index.mentions v = false := by
  have hdriver : ∀ iv, stage.iterVar? (stage.driver leaf) = some iv →
      iv.expr.mentions v = false := by
    intro iv hiv
    exact decide_eq_false fun heq => hfree ⟨leaf, hleaf, iv, hiv, heq⟩
  simp only [leafIndex, bind_eq_ok] at h
  obtain ⟨iv, hiv, range, hrange, h⟩ := h
  split at h
  · rename_i thread hthread
    rw [driver, hthread] at hdriver
    obtain ⟨threadVar, hthreadVar, h⟩ := bind_eq_ok.mp h
    obtain rfl := Except.ok.inj h
    have hmin := (Range.mentions_eq_false_iff.mp
      (hranges leaf hloop range (get?_of_require hrange))).1
    exact ⟨rfl, Expr.mentions_castTo
      (Expr.mentions_offsetBy (hdriver threadVar (iterVar?_eq_some hthreadVar)) hmin) _⟩
  · rename_i hunbound
    rw [driver, hunbound] at hdriver
    obtain rfl := Except.ok.inj h
    exact ⟨rfl, hdriver iv (iterVar?_eq_some hiv)⟩

theorem Linked.leafIndices_avoid (hlinked : stage.Linked)
    (hranges : stage.LoopsAvoid v ranges) (hfree : ¬stage.Drives v) {entries : List LeafIndex}
    (h : stage.leaves.mapM (stage.leafIndex ranges) = .ok entries) :
    stage.IndicesAvoid v (indexMap entries) := by
  intro id index hindex
  obtain ⟨entry, hentry, heq⟩ := List.mem_map.mp (IterMap.mem_of_get?_ofList hindex)
  obtain ⟨rfl, rfl⟩ := Prod.mk.inj heq
  obtain ⟨leaf, hleaf, hmade⟩ := exists_of_mem_mapM h entry hentry
  have hloop := hlinked.mem_defined_of_mem_leaves hleaf
  obtain ⟨rfl, hindex⟩ := leafIndex_avoids hranges hfree hleaf hloop hmade
  exact ⟨hloop, hindex⟩

/-- The indices to start from downward mention the variables of the roots. -/
theorem HasVars.rootIndices_avoid (hvars : stage.HasVars) (hfree : ¬stage.IsRootVar v)
    {roots : IterMap Expr} (h : stage.rootIndices = .ok roots) :
    stage.IndicesAvoid v roots := by
  obtain ⟨found, hfound, hget⟩ := hvars.rootIndices_ok
  obtain rfl := Except.ok.inj (h.symm.trans hfound)
  intro id index hindex
  rw [hget, Option.ite_none_right_eq_some, Option.some.injEq] at hindex
  obtain ⟨hroot, rfl⟩ := hindex
  have hloop := mem_defined_of_mem_roots hroot
  obtain ⟨iv, hiv⟩ := hvars id hloop
  rw [exprOf_eq hiv]
  exact ⟨hloop, decide_eq_false fun heq => hfree ⟨id, hroot, iv, hiv, heq⟩⟩

end Indices

end Stage

section Guards

variable {context : GuardContext} {policy : GuardPolicy} {v : Var} {id root : IterId}
  {range : Range} {value : Expr}

/-- No predicate mentions a variable. -/
def PredicatesAvoid (v : Var) (predicates : List Expr) : Prop :=
  ∀ p ∈ predicates, p.mentions v = false

theorem PredicatesAvoid.concat {predicates : List Expr} {predicate : Expr}
    (h : PredicatesAvoid v predicates) (hpredicate : predicate.mentions v = false) :
    PredicatesAvoid v (predicates ++ [predicate]) := by
  intro p hp
  rcases List.mem_append.mp hp with hp | hp
  · exact h p hp
  · exact List.mem_singleton.mp hp ▸ hpredicate

namespace GuardContext

variable (hindices : context.stage.IndicesAvoid v context.indices)
include hindices

theorem distanceFrom_avoids (hmin : range.min.mentions v = false)
    (h : context.distanceFrom id range = .ok value) :
    id ∈ context.stage.defined ∧ value.mentions v = false := by
  simp only [distanceFrom, bind_eq_ok] at h
  obtain ⟨index, hindex, h⟩ := h
  obtain ⟨hloop, hfree⟩ := hindices id index (Stage.get?_of_require hindex)
  exact ⟨hloop, Except.ok.inj h ▸ Expr.mentions_combine hfree hmin⟩

/-- A guard of a loop that overruns. Threads have no index, so their ranges never get here. -/
theorem guardOverrun_avoids (hranges : context.stage.LoopsAvoid v context.ranges)
    {overruns : IterMap Bool} {guards next : Guards} {entry : IterId × IterVar}
    (hnext : context.guardOverrun policy overruns guards entry = .ok next)
    (h : PredicatesAvoid v guards.predicates) : PredicatesAvoid v next.predicates := by
  obtain ⟨id, iv⟩ := entry
  simp only [guardOverrun] at hnext
  split at hnext
  · exact Except.ok.inj hnext ▸ h
  · simp only [bind_eq_ok] at hnext
    obtain ⟨range, hrange, value, hvalue, below, -, hnext⟩ := hnext
    split at hnext
    · exact Except.ok.inj hnext ▸ h
    · have hloop : id ∈ context.stage.defined := by
        obtain ⟨index, hindex, -⟩ := bind_eq_ok.mp hvalue
        exact (hindices id index (Stage.get?_of_require hindex)).1
      obtain ⟨hmin, hextent⟩ := Range.mentions_eq_false_iff.mp
        (hranges id hloop range (Stage.get?_of_require hrange))
      exact Except.ok.inj hnext ▸ h.concat
        (Expr.mentions_combine (distanceFrom_avoids hindices hmin hvalue).2 hextent)

/-- A guard of a root. -/
theorem guardDeclared_avoids (hroot : root ∈ context.stage.roots)
    (hfree : ¬context.stage.DeclaresSymbol v) {predicates next : List Expr}
    (hnext : context.guardDeclared policy predicates root = .ok next)
    (h : PredicatesAvoid v predicates) : PredicatesAvoid v next := by
  simp only [guardDeclared] at hnext
  split at hnext
  · exact Except.ok.inj hnext ▸ h
  · obtain ⟨iv, hiv, hnext⟩ := bind_eq_ok.mp hnext
    split at hnext
    · exact Except.ok.inj hnext ▸ h
    · rename_i declared hdeclared
      have havoids : declared.mentions v = false := Bool.eq_false_iff.mpr fun hmentions =>
        hfree ⟨root, hroot, iv, declared, Stage.iterVar?_eq_some hiv, hdeclared, hmentions⟩
      obtain ⟨hmin, hextent⟩ := Range.mentions_eq_false_iff.mp havoids
      obtain ⟨range, -, hnext⟩ := bind_eq_ok.mp hnext
      split at hnext
      · exact Except.ok.inj hnext ▸ h
      · simp only [bind_eq_ok] at hnext
        obtain ⟨value, hvalue, below, -, hnext⟩ := hnext
        split at hnext
        · exact Except.ok.inj hnext ▸ h
        · exact Except.ok.inj hnext ▸ h.concat
            (Expr.mentions_combine (distanceFrom_avoids hindices hmin hvalue).2 hextent)

end GuardContext

end Guards

namespace Stage

variable {stage : Stage} {aside : List IterId} {v : Var} {supplied ranges : IterMap Range}
  {indices : IterMap Expr} {policy : GuardPolicy} {lowering : Lowering}

theorem guards_avoid (hranges : stage.LoopsAvoid v ranges)
    (hindices : stage.IndicesAvoid v indices) (hfree : ¬stage.DeclaresSymbol v)
    {predicates : List Expr} (h : stage.guards ranges indices policy = .ok predicates) :
    PredicatesAvoid v predicates := by
  simp only [guards, bind_eq_ok, mapError_eq_ok] at h
  obtain ⟨known, -, overruns, -, guards, hguards, h⟩ := h
  have hoverruns : PredicatesAvoid v guards.predicates :=
    foldlM_keeps (fun guards => PredicatesAvoid v guards.predicates)
      (fun _ _ _ _ hnext hguards =>
        GuardContext.guardOverrun_avoids hindices hranges hnext hguards) hguards
      (fun _ hmem => absurd hmem List.not_mem_nil)
  split at h
  · exact Except.ok.inj h ▸ hoverruns
  · exact foldlM_keeps (PredicatesAvoid v) (fun _ _ hroot _ hnext hguards =>
      GuardContext.guardDeclared_avoids hindices hroot hfree hnext hguards) h hoverruns

/-- A variable that the stage does not bring in is in no result of lowering it. What brings
it in differs from one result to the other. -/
theorem Assembled.lower_avoids (h : stage.Assembled aside) (hvars : stage.HasVars)
    (hderived : ∀ relation ∈ stage.relations, stage.Introduces relation)
    (hlower : stage.lower supplied policy = .ok lowering) (hfree : ¬stage.HasSymbol supplied v) :
    (¬stage.Drives v → stage.IndicesAvoid v lowering.upIndices ∧
        (¬stage.DeclaresSymbol v → PredicatesAvoid v lowering.predicates)) ∧
      (¬stage.IsRootVar v → stage.IndicesAvoid v lowering.downIndices) := by
  obtain ⟨inferred, entries, indices, roots, down, hinferred, hentries, hindices, hroots, hdown,
    hranges, hup, hdownIndices, hguards⟩ := lower_inv hlower
  have havoids := h.inferAll_avoids hderived hfree hinferred
  constructor
  · intro hdrives
    have hleaves := h.toLinked.leafIndices_avoid havoids hdrives hentries
    have hindices := foldlM_keeps (stage.IndicesAvoid v) (fun _ _ hrelation _ hnext hstate =>
      h.toLinked.liftIndex_avoids havoids (List.mem_reverse.mp hrelation) hnext hstate)
      hindices hleaves
    have hupIndices : stage.IndicesAvoid v lowering.upIndices := hup ▸ hindices.map_simplify _
    exact ⟨hupIndices, fun hdeclares =>
      guards_avoid (hranges ▸ havoids) hupIndices hdeclares hguards⟩
  · intro hroot
    have hdown := foldlM_keeps (stage.IndicesAvoid v) (fun _ _ hrelation _ hnext hstate =>
      h.toLinked.lowerIndex_avoids havoids hrelation (Halt.keeping_eq_ok.mp hnext) hstate)
      hdown (hvars.rootIndices_avoid hroot hroots)
    exact hdownIndices ▸ hdown.map_simplify _

/-- What a lowering reports is closed over the variables of its stage. Indices upward and
guards mention the variables of unbound leaves and of threads that leaves are bound to, and
indices downward mention the variables of roots. All other variables are symbols: they come
from the ranges that the roots start with, the extents that splits fix and, in guards, the
ranges that the roots declare. -/
theorem lower_mentions (name : String) (scope : StorageScope) (commands : List Command)
    (supplied : IterMap Range) (policy : GuardPolicy) (lowering : Lowering)
    (hlower : ((Stage.empty name scope).executeAll commands).lower supplied policy =
      .ok lowering) :
    let stage := (Stage.empty name scope).executeAll commands
    (∀ id index v, lowering.upIndices.get? id = some index → index.mentions v = true →
        stage.Drives v ∨ stage.HasSymbol supplied v) ∧
      (∀ predicate ∈ lowering.predicates, ∀ v, predicate.mentions v = true →
        stage.Drives v ∨ stage.HasSymbol supplied v ∨ stage.DeclaresSymbol v) ∧
      ∀ id index v, lowering.downIndices.get? id = some index → index.mentions v = true →
        stage.IsRootVar v ∨ stage.HasSymbol supplied v := by
  intro stage
  have h : stage.Assembled _ := (Assembled.empty name scope).executeAll commands
  have hderived : ∀ relation ∈ stage.relations, stage.Introduces relation :=
    introduces_executeAll (by simp [Stage.empty]) commands
  refine ⟨fun id index v hindex hmentions => ?_, fun predicate hpredicate v hmentions => ?_,
    fun id index v hindex hmentions => ?_⟩ <;> by_contra hfree <;> rw [not_or] at hfree
  · have havoids := ((h.lower_avoids h.hasVars hderived hlower hfree.2).1 hfree.1).1
    rw [(havoids id index hindex).2] at hmentions
    cases hmentions
  · obtain ⟨hdrives, hfree⟩ := hfree
    rw [not_or] at hfree
    have havoids := ((h.lower_avoids h.hasVars hderived hlower hfree.1).1 hdrives).2 hfree.2
    rw [havoids predicate hpredicate] at hmentions
    cases hmentions
  · have havoids := (h.lower_avoids h.hasVars hderived hlower hfree.2).2 hfree.1
    rw [(havoids id index hindex).2] at hmentions
    cases hmentions

/-- A split loop of a symbolic extent whose outer loop runs on a thread. -/
def threadedNest : List Command :=
  [.root "i" (.var ⟨.parameter 0, "n", .int32⟩), .split ⟨0⟩ (.var ⟨.parameter 1, "f", .int32⟩),
    .bindThread ⟨1⟩ "blockIdx.x"]

/-- A range that starts at a symbol, for the root of `threadedNest`. -/
def threadedRange : IterMap Range :=
  .ofList [(⟨0⟩, ⟨.var ⟨.parameter 2, "b", .int32⟩, .var ⟨.parameter 0, "n", .int32⟩⟩)]

theorem lower_mentions_of_threadedNest :
    let stage := (Stage.empty "stage" .globalMemory).executeAll threadedNest
    ∃ lowering, stage.lower threadedRange .standard = .ok lowering ∧
      (∀ id index v, lowering.upIndices.get? id = some index → index.mentions v = true →
        stage.Drives v ∨ stage.HasSymbol threadedRange v) ∧
      (∀ predicate ∈ lowering.predicates, ∀ v, predicate.mentions v = true →
        stage.Drives v ∨ stage.HasSymbol threadedRange v ∨ stage.DeclaresSymbol v) ∧
      ∀ id index v, lowering.downIndices.get? id = some index → index.mentions v = true →
        stage.IsRootVar v ∨ stage.HasSymbol threadedRange v := by
  intro stage
  obtain ⟨lowering, hlower⟩ : ∃ lowering, stage.lower threadedRange .standard = .ok lowering := by
    have hok : (stage.lower threadedRange .standard).toOption.isSome = true := by decide +kernel
    obtain ⟨lowering, hlower⟩ := Option.isSome_iff_exists.mp hok
    exact ⟨lowering, toOption_eq_some.mp hlower⟩
  exact ⟨lowering, hlower, lower_mentions _ _ threadedNest threadedRange .standard lowering hlower⟩

end Stage

end LoopNest
