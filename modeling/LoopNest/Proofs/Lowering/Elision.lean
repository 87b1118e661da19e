/-
# Guards that are left out as redundant

A policy may leave out the guard of a loop that is named `i.outer` or `i.outer.outer` where a
loop `i` is guarded already. For a loop that comes from splitting `i` this is right: when the
index of the parent stays below its end, so does that of the outer loop, and the parent
overruns, and is dealt with, whenever the outer loop does. But names are all that is looked at,
and a root may be named like that, too. Such a root has nothing to do with the loop `i`, and if
it is left out, nothing may be there to keep it inside.

So the guards that are left accept the same points as all of them do, except where a root with
the name of an outer loop leaves its range. Fused, rebased and inner loops have other names,
and singletons have one iteration only.
-/

import LoopNest.Proofs.Flow.Dominance
import LoopNest.Proofs.Lowering.Downward
import LoopNest.Proofs.Lowering.Total
import LoopNest.Proofs.Stage.Names

namespace LoopNest

/-- The policy that leaves out redundant guards, with all other knobs off. -/
def GuardPolicy.eliding : GuardPolicy :=
  { GuardPolicy.standard with elideRedundant := true }

namespace Box

variable {box : Box} {value : IterId → Int} {stage : Stage} {relation : Relation}

/-- A loop of one iteration is split into loops of one iteration. -/
def KeepsUnits (box : Box) : Relation → Prop
  | .split parent outer inner _ => box.extent parent = 1 →
    box.extent outer = 1 ∧ box.extent inner = 1
  | _ => True

/-- The parent of a loose split has more than one iteration. -/
theorem KeepsUnits.not_isLoose (h : box.KeepsUnits relation)
    (hunit : ∀ id ∈ relation.inputs, box.extent id = 1) : ¬ box.IsLoose relation := by
  cases relation with
  | split parent outer inner size =>
      obtain ⟨houter, hinner⟩ := h (hunit parent (by simp [Relation.inputs]))
      rw [IsLoose, houter, hinner, hunit parent (by simp [Relation.inputs])]
      decide
  | fuse | rebase | singleton => exact id

/-- The outer loop of a split stays below its end when the parent does. -/
theorem Covers.outer_lt {parent outer inner : IterId} {size : SplitSize}
    (h : box.Covers (.split parent outer inner size))
    (hfollows : box.Follows value (.split parent outer inner size))
    (hinner : box.low inner ≤ value inner) (hpositive : 1 ≤ box.extent inner)
    (hparent : value parent < box.low parent + box.extent parent) :
    value outer < box.low outer + box.extent outer := by
  obtain ⟨hlow, hlow', hextent⟩ := h
  simp only [Follows] at hfollows
  have hproduct : value outer * box.extent inner < box.extent outer * box.extent inner := by omega
  have := lt_of_mul_lt_mul_right hproduct (by omega)
  omega

end Box

namespace Stage

variable {stage : Stage} {ranges : IterMap Range} {id root : IterId} {iv : IterVar}
  {guarded : List String} {relation : Relation}

section Units

/-- A split of one iteration, by whatever size, gives each loop one iteration. -/
theorem splitExtents_one {dtype : DType} {given : Int} (hgiven : dtype.contains given = true)
    (hpositive : 1 ≤ given) : splitExtents dtype false 1 given = (1, 1) := by
  by_cases hone : given = 1
  · subst hone
    rfl
  · have hremainder : (1 : Int) % given = 1 := Int.emod_eq_of_lt (by omega) (by omega)
    simp only [splitExtents, hremainder, Bool.false_eq_true, if_false, one_ne_zero,
      if_pos (by omega : 1 < given), add_sub_cancel, DType.truncate_of_contains hgiven,
      Int.ediv_self (by omega : given ≠ 0)]

/-- Without threads no loop depends on one. -/
theorem Linked.threadDominance_of_free (h : stage.Linked)
    (hfree : ∀ leaf ∈ stage.leaves, stage.threadOf? leaf = none) (hid : id ∈ stage.defined) :
    stage.threadDominance.getDefault id = false := by
  rw [← Bool.not_eq_true, h.threadDominance_iff hid]
  rintro ⟨leaf, hleaf, hthread, -⟩
  rw [hfree leaf hleaf] at hthread
  cases hthread

/-- Without threads the fixed loop of a split is cut down to a parent of one iteration. -/
theorem Infers.keepsUnits {supplied : IterMap Range} {inferred : Inference}
    (h : stage.Infers supplied inferred) (hregular : stage.Regular)
    (hfree : ∀ leaf ∈ stage.leaves, stage.threadOf? leaf = none)
    (hrelation : relation ∈ stage.relations) : inferred.ranges.box.KeepsUnits relation := by
  have hfollow := h.relations relation hrelation
  have hsize := hregular.hasConstSize hrelation
  have hdominance : ∀ id ∈ relation.outputs, stage.threadDominance.getDefault id = false :=
    fun id hid => hregular.linked.threadDominance_of_free hfree
      (mem_defined_of_mem_outputs hrelation hid)
  cases relation with
  | split parent outer inner size =>
      intro hunit
      obtain ⟨given, hgiven⟩ := hsize
      have hparent := h.hasNumbers
        (hregular.mem_loops_of_mem_inputs hrelation (by simp [Relation.inputs]) : parent ∈ _)
      have hranges := hfollow _ _ given hparent.get? hgiven hparent.extent
        (Word.floorMod?_of_int32 hparent.extent hgiven.contains hgiven.pos)
      simp only [Relation.outputs, List.forall_mem_cons] at hdominance
      cases size with
      | factor factor =>
          simp only [fixedAndDerived, hunit, hdominance.2.1, one_ne_zero, decide_false,
            Bool.or_false, splitExtents_one hgiven.contains hgiven.pos] at hranges
          exact ⟨(IterMap.box_of_get? hranges.2).2, (IterMap.box_of_get? hranges.1).2⟩
      | parts parts =>
          simp only [fixedAndDerived, hunit, hdominance.1, one_ne_zero, decide_false,
            Bool.or_false, splitExtents_one hgiven.contains hgiven.pos] at hranges
          exact ⟨(IterMap.box_of_get? hranges.1).2, (IterMap.box_of_get? hranges.2).2⟩
  | fuse | rebase | singleton => trivial

end Units

section Names

/-- A name counts as covered only if it ends like that of an outer loop. -/
theorem isCoveredBy_eq_false {stem ending : String} (hlength : ending.length = 6)
    (hne : ending ≠ ".outer") : isCoveredBy guarded (stem ++ ending) = false := by
  rw [← Bool.not_eq_true, isCoveredBy_iff]
  rintro ⟨parent, -, hname | hname⟩
  · exact hne (ending_eq_of_append_eq hname hlength)
  · rw [show ".outer.outer" = ".outer" ++ ".outer" from rfl, ← String.append_assoc] at hname
    exact hne (ending_eq_of_append_eq hname hlength)

/-- Of what relations make, only outer loops and singletons can count as covered. -/
theorem NamesOutputs.of_isCoveredBy (h : stage.NamesOutputs relation)
    (hid : id ∈ relation.outputs) (hiv : stage.iterVar? id = some iv)
    (hcovered : isCoveredBy guarded iv.name = true) :
    (∃ parent inner size, relation = .split parent id inner size) ∨ relation = .singleton id := by
  cases relation with
  | split parent outer inner size =>
      obtain ⟨name, -, -, hinner⟩ := h
      rcases List.mem_pair.mp hid with rfl | rfl
      · exact .inl ⟨parent, inner, size, rfl⟩
      · rw [hinner.name_eq hiv, isCoveredBy_eq_false rfl (by decide)] at hcovered
        cases hcovered
  | fuse outer inner fused =>
      obtain ⟨name, name', -, -, hfused⟩ := h
      obtain rfl := List.mem_singleton.mp hid
      rw [hfused.name_eq hiv, isCoveredBy_eq_false rfl (by decide)] at hcovered
      cases hcovered
  | rebase parent rebased =>
      obtain ⟨name, -, hrebased⟩ := h
      obtain rfl := List.mem_singleton.mp hid
      rw [hrebased.name_eq hiv, show ".rebased" = ".r" ++ "ebased" from rfl,
        ← String.append_assoc, isCoveredBy_eq_false rfl (by decide)] at hcovered
      cases hcovered
  | singleton iter =>
      obtain rfl := List.mem_singleton.mp hid
      exact .inr rfl

/-- A root with the name that the outer loop of some iteration variable would have, or the
outer loop of that. -/
def IsNamesake (stage : Stage) (root : IterId) : Prop :=
  root ∈ stage.roots ∧ ∃ iv id other, stage.iterVar? root = some iv ∧
    stage.iterVar? id = some other ∧
    (iv.name = other.name ++ ".outer" ∨ iv.name = other.name ++ ".outer.outer")

theorem IsNamesake.length_le (h : stage.IsNamesake root) (hiv : stage.iterVar? root = some iv) :
    6 ≤ iv.name.length := by
  obtain ⟨-, found, -, other, hfound, -, hname⟩ := h
  rw [Option.some.inj (hiv.symm.trans hfound)]
  rcases hname with hname | hname <;> rw [hname, String.length_append]
  · exact Nat.le_add_left _ _
  · exact Nat.le_add_left_of_le (by decide)

end Names

end Stage

namespace GuardContext

variable {context : GuardContext} {overruns : IterMap Bool} {policy : GuardPolicy}
  {guards : Guards} {predicates full : List Expr} {assignment : Assignment} {value : IterId → Int}
  {id : IterId}

section AtPoint

variable (h : context.AtPoint overruns assignment value)
  (hselected : context.Selected policy overruns guards predicates)
  (haccepts : Accepts predicates assignment)
include h hselected haccepts

/-- Where the guards that are left are true, a loop that overruns stays below its end unless its
name counts as covered. -/
theorem AtPoint.lt_or_covered (hid : id ∈ context.stage.loops)
    (hoverruns : overruns.getDefault id = true) :
    value id < context.ranges.box.low id + context.ranges.box.extent id ∨
      ∃ iv, context.stage.iterVar? id = some iv ∧ isCoveredBy guards.guarded iv.name = true := by
  obtain ⟨iv, hiv, -⟩ := Stage.mem_loops.mp hid
  have hnumbers := h.literal.loops id (h.regular.mem_defined_iff.mpr hid)
  obtain ⟨range, hrange, hsettles | ⟨-, hcovered⟩⟩ :=
    hselected.inferred id iv hiv ((mayGuard_iff h.regular).mpr hid) hoverruns
  · obtain rfl := Option.some.inj (hrange.symm.trans hnumbers.get?)
    obtain ⟨index, hindex, htyped, hx⟩ := h.indices id hid
    exact .inl ((hsettles.mono hselected.kept).lt_of_accepts hindex htyped hnumbers.low
      hnumbers.extent h.unconstrained h.regular.unshaped h.cover
      (h.distances _ _ _ (.inferred hid hoverruns hrange) hindex) hx haccepts)
  · exact .inr ⟨iv, hiv, hcovered⟩

variable (hnames : ∀ relation ∈ context.stage.relations, context.stage.NamesOutputs relation)
  (hrises : ∀ relation ∈ context.stage.relations, Stage.OverrunsRise overruns.get? relation)
  (hunits : ∀ relation ∈ context.stage.relations, context.ranges.box.KeepsUnits relation)
  (hroots : ∀ root, context.stage.IsNamesake root →
    value root < context.ranges.box.low root + context.ranges.box.extent root)
include hnames hrises hunits hroots

/-- Provided that roots with the name of an outer loop stay below their ends, all loops that
overrun do, unless they have only one iteration. The induction is on the way down: an outer
loop stays below its end because the loop that it was split from does. -/
theorem AtPoint.lt_or_unit : ∀ id ∈ context.stage.loops, overruns.getDefault id = true →
    value id < context.ranges.box.low id + context.ranges.box.extent id ∨
      context.ranges.box.extent id = 1 := by
  have hlow := h.fits.low_le_of_leaves h.regular.linked h.follows fun leaf hleaf =>
    (h.leaves leaf hleaf).1
  have htrue : ∀ {id}, overruns.getDefault id = true ↔ overruns.get? id = some true := by
    intro id
    rw [IterMap.getDefault]
    cases overruns.get? id <;> simp
  refine h.regular.induction_down (fun root hroot hoverruns => .inl ?_)
    fun relation hrelation hinputs id hid hoverruns => ?_
  · rcases h.lt_or_covered hselected haccepts (h.regular.mem_loops_of_mem_roots hroot) hoverruns
      with hlt | ⟨iv, hiv, hcovered⟩
    · exact hlt
    · obtain ⟨name, hname, hcovers⟩ := isCoveredBy_iff.mp hcovered
      obtain ⟨id, other, hother, rfl⟩ := hselected.named name hname
      exact hroots root ⟨hroot, iv, id, other, hiv, hother, hcovers⟩
  · have hcovers := h.fits.covers relation hrelation
    rcases h.lt_or_covered hselected haccepts
      (h.regular.mem_loops_of_mem_outputs hrelation hid) hoverruns with hlt | ⟨iv, hiv, hcovered⟩
    · exact .inl hlt
    · rcases (hnames relation hrelation).of_isCoveredBy hid hiv hcovered with
        ⟨parent, inner, size, rfl⟩ | rfl
      · have hinner : inner ∈ context.stage.defined :=
          Stage.mem_defined_of_mem_outputs hrelation (by simp [Relation.outputs])
        refine (hinputs parent (by simp [Relation.inputs])
          (htrue.mpr (hrises _ hrelation (htrue.mp hoverruns)))).imp (fun hparent => ?_)
          fun hunit => (hunits _ hrelation hunit).1
        exact hcovers.outer_lt (h.follows _ hrelation) (hlow inner hinner)
          (h.fits.positive inner hinner) hparent
      · exact .inr hcovers.2

/-- All loops stay inside, since the parents of loose splits do. -/
theorem AtPoint.contains_of_left (hguarding : Stage.Guarding context overruns full) :
    ∀ id ∈ context.stage.loops, context.ranges.box.Contains id (value id) := by
  refine fun id hid => h.fits.contains_of_leaves h.regular.linked h.follows
    (fun relation hrelation hloose => ?_) h.leaves id (h.regular.mem_defined_iff.mpr hid)
  have hflagged := hguarding.loose relation hrelation (h.products relation hrelation) hloose
  cases relation with
  | split parent outer inner size =>
      intro id hid
      rcases h.lt_or_unit hselected haccepts hnames hrises hunits hroots id
        (h.regular.mem_loops_of_mem_inputs hrelation hid) (hflagged id hid) with hlt | hunit
      · exact hlt
      · obtain rfl := List.mem_singleton.mp hid
        exact absurd hloose ((hunits _ hrelation).not_isLoose (by simpa [Relation.inputs]))
  | fuse | rebase | singleton => exact hloose.elim

end AtPoint

end GuardContext

namespace Stage

variable {stage : Stage} {full kept : Lowering} {inferred : Inference} {indices : IterMap Expr}
  {known : RangedFacts} {overruns : IterMap Bool} {point : IterId → Int}

/-- A scheduled stage is assembled from its loops and its threads. -/
theorem Regular.assembled (h : stage.Regular) : ∃ aside, stage.Assembled aside := by
  have hids : ∀ {id iv}, stage.iterVar? id = some iv → id ∈ stage.ids :=
    fun hiv => exists_iterVar_iff.mp ⟨_, iterVar_eq_ok hiv⟩
  refine ⟨stage.ids.filter fun id => decide (id ∉ stage.loops), h.linked, ?_,
    fun hbound => ?_⟩
  · have hloops : stage.loops.Perm (stage.ids.filter fun id => decide (id ∈ stage.loops)) := by
      rw [List.perm_ext_iff_of_nodup stage.nodup_loops (stage.nodup_ids.filter _)]
      intro id
      rw [List.mem_filter, decide_eq_true_eq]
      refine ⟨fun hid => ⟨?_, hid⟩, fun hid => hid.2⟩
      obtain ⟨iv, hiv, -⟩ := mem_loops.mp hid
      exact hids hiv
    refine ((h.origin.trans hloops).append_right _).trans ?_
    simpa using List.filter_append_perm (fun id => decide (id ∈ stage.loops)) stage.ids
  · obtain ⟨hleaf, iv, hiv, -⟩ := h.threads hbound
    exact ⟨h.mem_defined_iff.mpr hleaf, hids hiv⟩

/-- A scheduled stage can be lowered by every policy. -/
theorem Regular.lower_ok (h : stage.Regular) (policy : GuardPolicy) :
    ∃ lowering, stage.lower .empty policy = .ok lowering := by
  obtain ⟨aside, hassembled⟩ := h.assembled
  obtain ⟨inferred, hinferred, hinfers⟩ := h.inferAll_ok (suppliesLiterals_empty stage)
  obtain ⟨lowering, hlower, -⟩ := hassembled.lower_of_inferAll h.hasVars hinferred
    (hinfers.exists_iterVar? h) (hinfers.hasLiteralRanges h).hasRanges policy
  exact ⟨lowering, hlower⟩

/-- A policy decides about guards and nothing else. -/
theorem lower_congr {supplied : IterMap Range} {policy policy' : GuardPolicy}
    (hfull : stage.lower supplied policy = .ok full)
    (hkept : stage.lower supplied policy' = .ok kept) :
    kept.ranges = full.ranges ∧ kept.upIndices = full.upIndices ∧
      kept.downIndices = full.downIndices := by
  obtain ⟨inferred, entries, indices, roots, down, hinferred, hentries, hindices, hroots, hdown,
    hranges, hup, hdowns, -⟩ := lower_inv hfull
  obtain ⟨inferred', entries', indices', roots', down', hinferred', hentries', hindices', hroots',
    hdown', hranges', hup', hdowns', -⟩ := lower_inv hkept
  obtain rfl := Except.ok.inj (hinferred.symm.trans hinferred')
  obtain rfl := Except.ok.inj (hentries.symm.trans hentries')
  obtain rfl := Except.ok.inj (hindices.symm.trans hindices')
  obtain rfl := Except.ok.inj (hroots.symm.trans hroots')
  obtain rfl := Except.ok.inj (hdown.symm.trans hdown')
  exact ⟨hranges'.trans hranges.symm, hup'.trans hup.symm, hdowns'.trans hdowns.symm⟩

/-- The guards that another policy selects for a lowering. -/
theorem Lowers.selected (h : stage.Lowers full inferred indices known overruns)
    {policy : GuardPolicy} (hfull : stage.lower .empty .standard = .ok full)
    (hkept : stage.lower .empty policy = .ok kept) :
    ∃ guards, GuardContext.Selected ⟨stage, inferred.ranges, full.upIndices, known⟩ policy overruns
      guards kept.predicates := by
  obtain ⟨hranges, hup, -⟩ := lower_congr hfull hkept
  obtain ⟨-, -, -, -, -, -, -, -, -, -, -, -, -, hguards⟩ := lower_inv hkept
  rw [hranges, hup, h.ranges] at hguards
  obtain ⟨known', overruns', guards, hfacts, hflow, hselected⟩ := guards_inv hguards
  obtain rfl := Except.ok.inj (h.facts.symm.trans hfacts)
  obtain rfl := Except.ok.inj (h.flow.symm.trans hflow)
  exact ⟨guards, hselected⟩

/-- What a policy selects is among all guards, for each guard that is needed is there. -/
theorem Lowers.predicates_subset (h : stage.Lowers full inferred indices known overruns)
    (hregular : stage.Regular) {policy : GuardPolicy} {guards : Guards} {predicates : List Expr}
    (hselected : GuardContext.Selected ⟨stage, inferred.ranges, full.upIndices, known⟩ policy
      overruns guards predicates) : predicates ⊆ full.predicates := by
  intro p hp
  obtain ⟨id, index, range, hdecides, hindex, rfl, hunproved⟩ :=
    (hselected.needed p hp).decides hregular
  obtain ⟨found, hfound, hguard | hproved⟩ := h.guarding.settled hdecides
  · obtain rfl := Option.some.inj (hindex.symm.trans hfound)
    exact hguard
  · obtain rfl := Option.some.inj (hindex.symm.trans hfound)
    rw [hunproved] at hproved
    cases hproved

/-- Split a leaf by two. -/
def halve (stage : Stage) (leaf : IterId) : Stage :=
  match stage.split leaf (.const .int32 2) with
  | .ok (_, nest) => nest
  | .error _ => stage

theorem Scheduled.halve (h : Scheduled stage) (leaf : IterId) : Scheduled (stage.halve leaf) := by
  rw [Stage.halve]
  split
  · exact .split ⟨2, rfl, by decide, by decide⟩ ‹_› h
  · exact h

/-- Add a root of some values from zero on, with a symbol of its own. -/
def addCounted (stage : Stage) (number : Nat) (name : String) (count : Int) : Stage :=
  (stage.addRootVar ⟨⟨.parameter number, name, .int32⟩, some (.ofInts 0 count), .parallel⟩).2

theorem Scheduled.addCounted (h : Scheduled stage) {number : Nat} {name : String} {count : Int}
    (hnew : ⟨.parameter number, name, .int32⟩ ∉ stage.iterVars.map IterVar.var)
    (hcount : DType.int32.contains count = true) (hpositive : 1 ≤ count) :
    Scheduled (stage.addCounted number name count) :=
  .root _ rfl rfl (.inr ⟨⟨number, rfl⟩, hnew⟩)
    ⟨_, rfl, 0, count, rfl, by decide, hcount, hpositive⟩ h

/-- A root of five values, of which the outer loop of three iterations is split, too. -/
def outerInPairs : Stage :=
  (((empty "compute" .globalMemory).addCounted 0 "i" 5).halve ⟨0⟩).halve ⟨1⟩

theorem scheduled_outerInPairs : Scheduled outerInPairs :=
  (((Scheduled.empty "compute" .globalMemory).addCounted (by decide) (by decide)
    (by decide)).halve ⟨0⟩).halve ⟨1⟩

/-- The guards of two lowerings accept the same points inside. -/
def AcceptSame (stage : Stage) (kept full : Lowering) : Prop :=
  ∀ point, Inside full.ranges stage.leaves point →
    (Accepts kept.predicates (stage.assignmentAt stage.leaves point) ↔
      Accepts full.predicates (stage.assignmentAt stage.leaves point))

/-- A root with the name of an outer loop stays below its end where all guards are true. -/
def NamesakesStay (stage : Stage) (lowering : Lowering) : Prop :=
  ∀ root, stage.IsNamesake root → ∀ point, Inside lowering.ranges stage.leaves point →
    Accepts lowering.predicates (stage.assignmentAt stage.leaves point) →
      ∃ x, lowering.upIndices.HasValue (stage.assignmentAt stage.leaves point) root x ∧
        x < lowering.ranges.box.low root + lowering.ranges.box.extent root

/-- Redundant guards can be left out of the lowering of every scheduled stage without threads.
Ranges and indices stay the same, and all guards that are left are guards of the full lowering.
Where nothing wraps, they accept the same points if and only if no root with the name of an
outer loop leaves its range; in particular they do if no root has such a name. -/
theorem Scheduled.elision_exact_iff (h : Scheduled stage)
    (hfree : ∀ leaf ∈ stage.leaves, stage.threadOf? leaf = none) :
    ∃ full kept, stage.lower .empty .standard = .ok full ∧
      stage.lower .empty .eliding = .ok kept ∧ kept.ranges = full.ranges ∧
      kept.upIndices = full.upIndices ∧ kept.predicates ⊆ full.predicates ∧
      (full.WrapFree stage → (stage.AcceptSame kept full ↔ stage.NamesakesStay kept)) := by
  have hregular := h.regular
  obtain ⟨full, hfull⟩ := hregular.lower_ok .standard
  obtain ⟨kept, hkept⟩ := hregular.lower_ok .eliding
  obtain ⟨hranges, hup, -⟩ := lower_congr hfull hkept
  obtain ⟨inferred, indices, known, overruns, hlowers⟩ := hregular.lowers hfull
  obtain ⟨guards, hselected⟩ := hlowers.selected hfull hkept
  have hsubset := hlowers.predicates_subset hregular hselected
  refine ⟨full, kept, hfull, hkept, hranges, hup, hsubset, fun hwrap => ?_⟩
  obtain ⟨_, hflow, -, hrises⟩ := hregular.linked.overrunsUp_ok
    (hlowers.infers.hasLiteralRanges hregular).hasRanges known.facts
  obtain rfl := Except.ok.inj (hlowers.flow.symm.trans hflow)
  have hpoint : ∀ point, Inside full.ranges stage.leaves point →
      ∃ value, GuardContext.AtPoint ⟨stage, inferred.ranges, full.upIndices, known⟩ overruns
        (stage.assignmentAt stage.leaves point) value := by
    intro point hinside
    rw [hlowers.ranges] at hinside
    rw [← drivers_eq_leaves hfree] at hinside ⊢
    exact ⟨_, (hlowers.atPoint hwrap hinside hregular (bindsFromZero_of_free hfree)).2⟩
  rw [AcceptSame, NamesakesStay, hranges, hup]
  constructor
  · intro hsame root hnamesake point hinside haccepts
    obtain ⟨value, hat⟩ := hpoint point hinside
    have hloop := hregular.mem_loops_of_mem_roots hnamesake.1
    obtain ⟨index, hindex, -, hx⟩ := hat.indices root hloop
    rw [hlowers.ranges]
    exact ⟨value root, ⟨index, hindex, hx⟩, (hat.contains_of_accepts hlowers.guarding
      ((hsame point hinside).mp haccepts) root hloop).2⟩
  · intro hstays point hinside
    refine ⟨fun haccepts => ?_, fun haccepts p hp => haccepts p (hsubset hp)⟩
    obtain ⟨value, hat⟩ := hpoint point hinside
    have hcontains := hat.contains_of_left hselected haccepts h.namesOutputs hrises
      (fun relation => hlowers.infers.keepsUnits hregular hfree)
      (fun root hnamesake => by
        obtain ⟨x, ⟨index, hindex, hx⟩, hlt⟩ := hstays root hnamesake point hinside haccepts
        obtain ⟨found, hfound, -, hy⟩ :=
          hat.indices root (hregular.mem_loops_of_mem_roots hnamesake.1)
        obtain rfl := Option.some.inj (hindex.symm.trans hfound)
        rw [hlowers.ranges] at hlt
        exact Except.ok.inj (hx.symm.trans hy) ▸ hlt) hlowers.guarding
    refine hat.accepts hlowers.guarding hcontains fun root hroot iv hiv low extent hdeclared => ?_
    obtain ⟨hlow, hextent⟩ := hlowers.infers.box_root hroot hiv hdeclared
    rw [← hlow, ← hextent]
    exact (hcontains root (hregular.mem_loops_of_mem_roots hroot)).2

theorem elision_exact_iff_of_outerInPairs :
    Scheduled outerInPairs ∧ (∀ leaf ∈ outerInPairs.leaves, outerInPairs.threadOf? leaf = none) ∧
      ∃ full kept, outerInPairs.lower .empty .standard = .ok full ∧
        outerInPairs.lower .empty .eliding = .ok kept ∧ full.WrapFree outerInPairs ∧
        kept.predicates.length < full.predicates.length ∧ outerInPairs.AcceptSame kept full := by
  have hfree : ∀ leaf ∈ outerInPairs.leaves, outerInPairs.threadOf? leaf = none := by decide
  have hcheck : ∀ full ∈ (outerInPairs.lower .empty .standard).toOption,
      ∀ kept ∈ (outerInPairs.lower .empty .eliding).toOption,
        full.WrapFree outerInPairs ∧ kept.predicates.length < full.predicates.length := by
    decide +kernel
  have hroots : ∀ root, ¬ outerInPairs.IsNamesake root := by
    intro root hnamesake
    obtain rfl : root = ⟨0⟩ := List.mem_singleton.mp hnamesake.1
    exact absurd (hnamesake.length_le rfl) (by decide)
  obtain ⟨full, kept, hfull, hkept, -, -, -, hexact⟩ :=
    scheduled_outerInPairs.elision_exact_iff hfree
  obtain ⟨hwrap, hless⟩ :=
    hcheck full (toOption_eq_some.mpr hfull) kept (toOption_eq_some.mpr hkept)
  exact ⟨scheduled_outerInPairs, hfree, full, kept, hfull, hkept, hwrap, hless,
    (hexact hwrap).mpr fun root hnamesake => absurd hnamesake (hroots root)⟩

/-- Two roots of three values, each split by two. The second one has the name of the outer loop
of the first one. -/
def namesakeNest : Stage :=
  ((((empty "compute" .globalMemory).addCounted 0 "i" 3).halve ⟨0⟩).addCounted 1 "i.outer" 3).halve
    ⟨3⟩

theorem scheduled_namesakeNest : Scheduled namesakeNest :=
  ((((Scheduled.empty "compute" .globalMemory).addCounted (by decide) (by decide)
    (by decide)).halve ⟨0⟩).addCounted (by decide) (by decide) (by decide)).halve ⟨3⟩

/-- Two roots with one name, of three values and of six. Both are split, and so is the outer loop
of the second one, which has three iterations. A third root has the symbol of the inner loop of
the second one, but its only value is far below zero. -/
def sharedInner : Stage :=
  let first := ((empty "compute" .globalMemory).addCounted 0 "i" 3).halve ⟨0⟩
  let second := ((first.addCounted 1 "i" 6).halve ⟨3⟩).halve ⟨4⟩
  match second.iterVar? ⟨5⟩ with
  | none => second
  | some inner => (second.addRootVar ⟨inner.var, some (.ofInts (-8) 1), .parallel⟩).2.halve ⟨8⟩

/-- Eliding weakens the guard where a root has the name of an outer loop, and also, whatever the
names are, where a root has the symbol of a loop: the value of the root then counts for that
loop, too, so that the parent of an outer loop needs no guard that would imply the one left
out. -/
theorem elision_weakens :
    (Scheduled namesakeNest ∧ ∃ full kept, namesakeNest.lower .empty .standard = .ok full ∧
      namesakeNest.lower .empty .eliding = .ok kept ∧ full.WrapFree namesakeNest ∧
      ¬ namesakeNest.AcceptSame kept full) ∧
    (∀ root ∈ sharedInner.roots, ∀ iv ∈ sharedInner.iterVar? root,
        iv.name = "i" ∨ iv.name = "i.inner") ∧
      ((sharedInner.leaves.filterMap sharedInner.iterVar?).map IterVar.var).Nodup ∧
      ∃ full kept, sharedInner.lower .empty .standard = .ok full ∧
        sharedInner.lower .empty .eliding = .ok kept ∧ full.WrapFree sharedInner ∧
        ¬ sharedInner.AcceptSame kept full := by
  -- The last iteration of the loop whose guard is left out, and the first one of all others.
  let renamed : IterId → Int := fun id => if id = ⟨4⟩ ∨ id = ⟨5⟩ then 1 else 0
  let outermost : IterId → Int :=
    fun id => if id = ⟨6⟩ ∨ id = ⟨7⟩ then 1 else 0
  obtain ⟨full, hfull, kept, hkept, hwrap, hinside, haccepts, hrejects⟩ :
      ∃ full ∈ (namesakeNest.lower .empty .standard).toOption,
        ∃ kept ∈ (namesakeNest.lower .empty .eliding).toOption, full.WrapFree namesakeNest ∧
        (∀ leaf ∈ namesakeNest.leaves, full.ranges.box.Contains leaf (renamed leaf)) ∧
        (∀ p ∈ kept.predicates,
          p.eval (namesakeNest.assignmentAt namesakeNest.leaves renamed) = .ok 1) ∧
        ¬ ∀ p ∈ full.predicates,
          p.eval (namesakeNest.assignmentAt namesakeNest.leaves renamed) = .ok 1 := by
    decide +kernel
  obtain ⟨full', hfull', kept', hkept', hwrap', hinside', haccepts', hrejects'⟩ :
      ∃ full ∈ (sharedInner.lower .empty .standard).toOption,
        ∃ kept ∈ (sharedInner.lower .empty .eliding).toOption, full.WrapFree sharedInner ∧
        (∀ leaf ∈ sharedInner.leaves, full.ranges.box.Contains leaf (outermost leaf)) ∧
        (∀ p ∈ kept.predicates,
          p.eval (sharedInner.assignmentAt sharedInner.leaves outermost) = .ok 1) ∧
        ¬ ∀ p ∈ full.predicates,
          p.eval (sharedInner.assignmentAt sharedInner.leaves outermost) = .ok 1 := by
    decide +kernel
  exact ⟨⟨scheduled_namesakeNest, full, kept, toOption_eq_some.mp hfull,
      toOption_eq_some.mp hkept, hwrap, fun hsame =>
        hrejects ((hsame renamed hinside).mp haccepts)⟩, by decide, by decide,
    full', kept', toOption_eq_some.mp hfull', toOption_eq_some.mp hkept', hwrap', fun hsame =>
      hrejects' ((hsame outermost hinside').mp haccepts')⟩

end Stage

end LoopNest
