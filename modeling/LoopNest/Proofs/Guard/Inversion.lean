/-
# What the generation of guards says

When guards could be generated, the steps of the generation can be read back. A loop that
overruns was guarded by its inferred range, or its index provably stays below the end, or the
policy took it for covered by its name. A root was treated likewise with its declared range.
And every guard that there is could not be proved.

Nothing is assumed about the stage, the ranges or the policy. Together with the fact that
guards can always be generated this says what the guards of a scheduled stage are.
-/

import LoopNest.Proofs.Guard.Predicates
import LoopNest.Proofs.Guard.Total

namespace LoopNest

theorem isCoveredBy_iff {guarded : List String} {name : String} :
    isCoveredBy guarded name = true ↔
      ∃ parent ∈ guarded, name = parent ++ ".outer" ∨ name = parent ++ ".outer.outer" := by
  simp [isCoveredBy]

theorem isCoveredBy_mono {guarded more : List String} {name : String}
    (h : isCoveredBy guarded name = true) (hsubset : guarded ⊆ more) :
    isCoveredBy more name = true := by
  obtain ⟨parent, hparent, hname⟩ := isCoveredBy_iff.mp h
  exact isCoveredBy_iff.mpr ⟨parent, hsubset hparent, hname⟩

namespace GuardContext

variable {context : GuardContext} {policy : GuardPolicy} {overruns : IterMap Bool}
  {guards next more : Guards} {before after predicates : List Expr} {predicate : Expr}
  {id root : IterId} {iv : IterVar} {entry : IterId × IterVar} {range : Range}

section Steps

theorem get?_of_rangeOf (h : context.rangeOf id = .ok range) :
    context.ranges.get? id = some range :=
  Stage.get?_of_require h

theorem distanceFrom_inv {value : Expr} (h : context.distanceFrom id range = .ok value) :
    ∃ index, context.indices.get? id = some index ∧ value = index.sub range.min := by
  obtain ⟨index, hindex, hvalue⟩ := bind_eq_ok.mp h
  exact ⟨index, Stage.get?_of_require hindex, (Except.ok.inj hvalue).symm⟩

/-- Only variables of the stage may be guarded. -/
theorem exists_of_mayGuard (h : context.mayGuard id = true) :
    ∃ iv, context.stage.iterVar? id = some iv := by
  rw [mayGuard] at h
  split at h
  · exact ⟨_, ‹_›⟩
  · cases h

/-- A variable is passed over, or it overruns and is guarded unless this provably is not
needed or its name says that it is covered. -/
theorem guardOverrun_inv (h : context.guardOverrun policy overruns guards (id, iv) = .ok next) :
    (context.mayGuard id && overruns.getDefault id) = false ∧ next = guards ∨
      ∃ range index below, context.mayGuard id = true ∧ overruns.getDefault id = true ∧
        context.ranges.get? id = some range ∧ context.indices.get? id = some index ∧
        context.provablyBelow (index.sub range.min) range.extent = .ok below ∧
        next = if below || policy.elideRedundant && isCoveredBy guards.guarded iv.name then guards
          else guards.push ((index.sub range.min).lt range.extent) iv.name := by
  simp only [guardOverrun] at h
  split at h
  · rename_i hskip
    refine .inl ⟨?_, (Except.ok.inj h).symm⟩
    rwa [← Bool.not_and, Bool.not_eq_true'] at hskip
  · rename_i hguarded
    rw [← Bool.not_and, Bool.not_eq_true', Bool.not_eq_false, Bool.and_eq_true] at hguarded
    simp only [bind_eq_ok] at h
    obtain ⟨range, hrange, value, hvalue, below, hbelow, hnext⟩ := h
    obtain ⟨index, hindex, rfl⟩ := distanceFrom_inv hvalue
    refine .inr ⟨range, index, below, hguarded.1, hguarded.2, get?_of_rangeOf hrange, hindex,
      hbelow, ?_⟩
    split at hnext
    · rw [if_pos ‹_›]
      exact (Except.ok.inj hnext).symm
    · rw [if_neg ‹_›]
      exact (Except.ok.inj hnext).symm

/-- A root is passed over, or its declared range is not the inferred one and it is guarded
unless this provably is not needed or it is a cache that goes unguarded. -/
theorem guardDeclared_inv (h : context.guardDeclared policy before root = .ok after) :
    (context.mayGuard root = false ∨
        ∃ iv, context.stage.iterVar? root = some iv ∧ iv.declared = none) ∧ after = before ∨
      ∃ iv declared range, context.mayGuard root = true ∧
        context.stage.iterVar? root = some iv ∧ iv.declared = some declared ∧
        context.ranges.get? root = some range ∧
        (context.sameRange range declared = true ∧ after = before ∨
          ∃ index below, context.sameRange range declared = false ∧
            context.indices.get? root = some index ∧
            context.provablyBelow (index.sub declared.min) declared.extent = .ok below ∧
            after = if below || context.isUnguardedCache policy iv then before
              else before ++ [(index.sub declared.min).lt declared.extent]) := by
  rw [guardDeclared] at h
  split at h
  · rename_i hskip
    rw [Bool.not_eq_true'] at hskip
    exact .inl ⟨.inl hskip, (Except.ok.inj h).symm⟩
  · rename_i hguarded
    rw [Bool.not_eq_true', Bool.not_eq_false] at hguarded
    obtain ⟨iv, hiv, h⟩ := bind_eq_ok.mp h
    replace hiv := Stage.iterVar?_eq_some hiv
    split at h
    · exact .inl ⟨.inr ⟨iv, hiv, ‹_›⟩, (Except.ok.inj h).symm⟩
    · rename_i declared hdeclared
      obtain ⟨range, hrange, h⟩ := bind_eq_ok.mp h
      refine .inr ⟨iv, declared, range, hguarded, hiv, hdeclared, get?_of_rangeOf hrange, ?_⟩
      split at h
      · exact .inl ⟨‹_›, (Except.ok.inj h).symm⟩
      · rename_i hdifferent
        rw [Bool.not_eq_true] at hdifferent
        simp only [bind_eq_ok] at h
        obtain ⟨value, hvalue, below, hbelow, h⟩ := h
        obtain ⟨index, hindex, rfl⟩ := distanceFrom_inv hvalue
        refine .inr ⟨index, below, hdifferent, hindex, hbelow, ?_⟩
        split at h
        · rw [if_pos ‹_›]
          exact (Except.ok.inj h).symm
        · rw [if_neg ‹_›]
          exact (Except.ok.inj h).symm

end Steps

section Settled

/-- If a variable overruns and may be guarded, its inferred range is settled. -/
def SettlesInferred (context : GuardContext) (overruns : IterMap Bool) (predicates : List Expr)
    (id : IterId) : Prop :=
  context.mayGuard id = true → overruns.getDefault id = true →
    ∃ range, context.ranges.get? id = some range ∧ context.Settles predicates id range

/-- If a variable overruns and may be guarded, its inferred range is settled, unless the policy
leaves out the guards of loops that are named after guarded ones, and this is such a loop. -/
def SettlesOrCovers (context : GuardContext) (policy : GuardPolicy) (overruns : IterMap Bool)
    (guards : Guards) (entry : IterId × IterVar) : Prop :=
  context.mayGuard entry.1 = true → overruns.getDefault entry.1 = true →
    ∃ range, context.ranges.get? entry.1 = some range ∧
      (context.Settles guards.predicates entry.1 range ∨
        policy.elideRedundant = true ∧ isCoveredBy guards.guarded entry.2.name = true)

/-- If a root may be guarded and its declared range is not the inferred one, the declared range
is settled. -/
def SettlesDeclared (context : GuardContext) (predicates : List Expr) (root : IterId) : Prop :=
  context.mayGuard root = true → ∀ iv declared, context.stage.iterVar? root = some iv →
    iv.declared = some declared → ∃ range, context.ranges.get? root = some range ∧
      (context.sameRange range declared = false → context.Settles predicates root declared)

theorem SettlesOrCovers.mono (h : context.SettlesOrCovers policy overruns guards entry)
    (hpredicates : guards.predicates ⊆ more.predicates) (hguarded : guards.guarded ⊆ more.guarded) :
    context.SettlesOrCovers policy overruns more entry := by
  intro hmay hoverruns
  obtain ⟨range, hrange, hsettles | ⟨helide, hcovered⟩⟩ := h hmay hoverruns
  · exact ⟨range, hrange, .inl (hsettles.mono hpredicates)⟩
  · exact ⟨range, hrange, .inr ⟨helide, isCoveredBy_mono hcovered hguarded⟩⟩

theorem SettlesDeclared.mono {more : List Expr} (h : context.SettlesDeclared predicates root)
    (hsubset : predicates ⊆ more) : context.SettlesDeclared more root := by
  intro hguarded iv declared hiv hdeclared
  obtain ⟨range, hrange, hsettles⟩ := h hguarded iv declared hiv hdeclared
  exact ⟨range, hrange, fun hdifferent => (hsettles hdifferent).mono hsubset⟩

/-- A guard that has to be decided and could not be proved. -/
inductive Needs (context : GuardContext) (overruns : IterMap Bool) : Expr → Prop
  | inferred {id : IterId} {range : Range} {index : Expr} (guarded : context.mayGuard id = true)
      (overrun : overruns.getDefault id = true) (known : context.ranges.get? id = some range)
      (indexed : context.indices.get? id = some index)
      (unproved : context.provablyBelow (index.sub range.min) range.extent = .ok false) :
      context.Needs overruns ((index.sub range.min).lt range.extent)
  | declared {root : IterId} {iv : IterVar} {range inferred : Range} {index : Expr}
      (root_mem : root ∈ context.stage.roots)
      (found : context.stage.iterVar? root = some iv) (declared : iv.declared = some range)
      (known : context.ranges.get? root = some inferred)
      (different : context.sameRange inferred range = false)
      (indexed : context.indices.get? root = some index)
      (unproved : context.provablyBelow (index.sub range.min) range.extent = .ok false) :
      context.Needs overruns ((index.sub range.min).lt range.extent)

/-- On a regular stage a guard that is needed had to be decided. -/
theorem Needs.decides (h : context.Needs overruns predicate) (hregular : context.stage.Regular) :
    ∃ id index range, context.Decides overruns id range ∧ context.indices.get? id = some index ∧
      predicate = (index.sub range.min).lt range.extent ∧
      context.provablyBelow (index.sub range.min) range.extent = .ok false := by
  cases h with
  | inferred guarded overrun known indexed unproved =>
      exact ⟨_, _, _, .inferred ((mayGuard_iff hregular).mp guarded) overrun known, indexed, rfl,
        unproved⟩
  | declared root_mem found declared known different indexed unproved =>
      exact ⟨_, _, _, .declared root_mem _ _ found declared known different, indexed, rfl,
        unproved⟩

/-- A loop is dealt with for good: whatever guards follow, they only add to those there are. -/
theorem guardOverrun_settles
    (h : context.guardOverrun policy overruns guards entry = .ok next) :
    (guards.predicates ⊆ next.predicates ∧ guards.guarded ⊆ next.guarded) ∧
      context.SettlesOrCovers policy overruns next entry ∧
      (∀ p ∈ next.predicates, p ∈ guards.predicates ∨ context.Needs overruns p) ∧
      ∀ name ∈ next.guarded, name ∈ guards.guarded ∨ name = entry.2.name := by
  obtain ⟨id, iv⟩ := entry
  rcases guardOverrun_inv h with ⟨hskip, rfl⟩ |
    ⟨range, index, below, hguarded, hoverruns, hrange, hindex, hbelow, rfl⟩
  · refine ⟨⟨fun _ hp => hp, fun _ hname => hname⟩, fun hguarded hoverruns => ?_,
      fun _ hp => .inl hp, fun _ hname => .inl hname⟩
    rw [hguarded, hoverruns] at hskip
    cases hskip
  · split
    · rename_i hleft
      refine ⟨⟨fun _ hp => hp, fun _ hname => hname⟩, fun _ _ => ⟨range, hrange, ?_⟩,
        fun _ hp => .inl hp, fun _ hname => .inl hname⟩
      rcases (Bool.or_eq_true _ _).mp hleft with rfl | hcovered
      · exact .inl ⟨index, hindex, .inr hbelow⟩
      · exact .inr ((Bool.and_eq_true _ _).mp hcovered)
    · rename_i hleft
      rw [Bool.not_eq_true, Bool.or_eq_false_iff] at hleft
      obtain ⟨rfl, -⟩ := hleft
      refine ⟨⟨List.subset_append_left _ _, List.subset_cons_self _ _⟩, fun _ _ => ⟨range, hrange,
        .inl ⟨index, hindex, .inl (List.mem_append_right _ (List.mem_singleton.mpr rfl))⟩⟩,
        fun p hp => ?_, fun name hname => (List.mem_cons.mp hname).symm⟩
      rcases List.mem_append.mp hp with hp | hp
      · exact .inl hp
      · exact .inr (List.mem_singleton.mp hp ▸ .inferred hguarded hoverruns hrange hindex hbelow)

/-- A root is dealt with for good. -/
theorem guardDeclared_settles (hroot : root ∈ context.stage.roots)
    (h : context.guardDeclared policy before root = .ok after) :
    before ⊆ after ∧ (policy.elidesLocal = false → context.SettlesDeclared after root) ∧
      ∀ p ∈ after, p ∈ before ∨ context.Needs overruns p := by
  rcases guardDeclared_inv h with ⟨hnothing, rfl⟩ |
    ⟨iv, declared, range, hguarded, hiv, hdeclared, hrange, houtcome⟩
  · refine ⟨fun _ hp => hp, fun _ hguarded other declared hother hdeclared => ?_,
      fun _ hp => .inl hp⟩
    rcases hnothing with hskip | ⟨iv, hiv, hnone⟩
    · rw [hguarded] at hskip
      cases hskip
    · obtain rfl := Option.some.inj (hiv.symm.trans hother)
      rw [hnone] at hdeclared
      cases hdeclared
  · have hunique : (context.sameRange range declared = false →
        context.Settles after root declared) → context.SettlesDeclared after root := by
      intro hsettled _ iv' declared' hiv' hdeclared'
      obtain rfl := Option.some.inj (hiv.symm.trans hiv')
      obtain rfl := Option.some.inj (hdeclared.symm.trans hdeclared')
      exact ⟨range, hrange, hsettled⟩
    rcases houtcome with ⟨hsame, rfl⟩ | ⟨index, below, hdifferent, hindex, hbelow, rfl⟩
    · refine ⟨fun _ hp => hp, fun _ => hunique fun hdifferent => ?_, fun _ hp => .inl hp⟩
      rw [hsame] at hdifferent
      cases hdifferent
    · split at hunique
      · rename_i hleft
        rw [if_pos hleft]
        refine ⟨fun _ hp => hp, fun hlocal => hunique fun _ => ⟨index, hindex, .inr ?_⟩,
          fun _ hp => .inl hp⟩
        rw [isUnguardedCache, hlocal, Bool.and_false, Bool.or_false] at hleft
        rw [hbelow, hleft]
      · rename_i hleft
        rw [if_neg hleft]
        rw [Bool.not_eq_true, Bool.or_eq_false_iff] at hleft
        obtain ⟨rfl, -⟩ := hleft
        refine ⟨List.subset_append_left _ _, fun _ => hunique fun _ => ⟨index, hindex,
          .inl (List.mem_append_right _ (List.mem_singleton.mpr rfl))⟩, fun p hp => ?_⟩
        rcases List.mem_append.mp hp with hp | hp
        · exact .inl hp
        · exact .inr (List.mem_singleton.mp hp ▸
            .declared hroot hiv hdeclared hrange hdifferent hindex hbelow)

end Settled

/-- What the guards are that a policy selects. All loops and all roots were dealt with, every
guard is needed, and the names are those of iteration variables. -/
structure Selected (context : GuardContext) (policy : GuardPolicy) (overruns : IterMap Bool)
    (guards : Guards) (predicates : List Expr) : Prop where
  kept : guards.predicates ⊆ predicates
  inferred : ∀ id iv, context.stage.iterVar? id = some iv →
    context.SettlesOrCovers policy overruns guards (id, iv)
  declared : policy.skipDeclared = false → policy.elidesLocal = false →
    ∀ root ∈ context.stage.roots, context.SettlesDeclared predicates root
  needed : ∀ p ∈ predicates, context.Needs overruns p
  named : ∀ name ∈ guards.guarded, ∃ id iv, context.stage.iterVar? id = some iv ∧ iv.name = name

/-- Where no loop counts as covered by its name, all that overrun are settled. -/
theorem Selected.settlesInferred (h : context.Selected policy overruns guards predicates)
    (hpolicy : policy.elideRedundant = false) (id : IterId) :
    context.SettlesInferred overruns predicates id := by
  intro hguarded hoverruns
  obtain ⟨iv, hiv⟩ := exists_of_mayGuard hguarded
  obtain ⟨range, hrange, hsettles | ⟨helide, -⟩⟩ := h.inferred id iv hiv hguarded hoverruns
  · exact ⟨range, hrange, hsettles.mono h.kept⟩
  · rw [hpolicy] at helide
    cases helide

end GuardContext

namespace Stage

variable {stage : Stage} {ranges : IterMap Range} {indices : IterMap Expr} {policy : GuardPolicy}
  {predicates : List Expr}

/-- Guards that could be generated were selected by the policy. -/
theorem guards_inv (h : stage.guards ranges indices policy = .ok predicates) :
    ∃ known overruns guards, stage.rangedFacts ranges (fun _ range => range) = .ok known ∧
      stage.overrunsUp ranges known.facts stage.leafOverruns = .ok overruns ∧
      GuardContext.Selected ⟨stage, ranges, indices, known⟩ policy overruns guards predicates := by
  obtain ⟨known, hknown, h⟩ := bind_eq_ok.mp h
  obtain ⟨overruns, hoverruns, h⟩ := bind_eq_ok.mp h
  obtain ⟨guards, hloops, hroots⟩ := bind_eq_ok.mp h
  let context : GuardContext := ⟨stage, ranges, indices, known⟩
  obtain ⟨⟨hneeded, hnamed⟩, hinferred, -⟩ := foldlM_settles
    (fun guards : Guards => (∀ p ∈ guards.predicates, context.Needs overruns p) ∧
      ∀ name ∈ guards.guarded, ∃ id iv, stage.iterVar? id = some iv ∧ iv.name = name)
    (fun entry guards => context.SettlesOrCovers policy overruns guards entry)
    (fun guards entry hentry next hstep ⟨hneeded, hnamed⟩ => by
      obtain ⟨⟨hpredicates, hguarded⟩, hsettles, hadded, hname⟩ :=
        GuardContext.guardOverrun_settles hstep
      refine ⟨⟨fun p hp => (hadded p hp).elim (hneeded p) id, fun name hmem => ?_⟩, hsettles,
        fun _ hother => hother.mono hpredicates hguarded⟩
      rcases hname name hmem with hold | rfl
      · exact hnamed name hold
      · exact ⟨entry.1, entry.2, mem_entries.mp hentry, rfl⟩) hloops ⟨nofun, nofun⟩
  refine ⟨known, overruns, guards, hknown, mapError_eq_ok.mp hoverruns, ?_⟩
  have hentries : ∀ id iv, stage.iterVar? id = some iv →
      context.SettlesOrCovers policy overruns guards (id, iv) :=
    fun id iv hiv => hinferred (id, iv) (mem_entries.mpr hiv)
  split at hroots
  · rename_i hskip
    obtain rfl := Except.ok.inj hroots
    refine ⟨fun _ hp => hp, hentries, fun hpolicy => ?_, hneeded, hnamed⟩
    rw [hpolicy] at hskip
    cases hskip
  · obtain ⟨⟨hkept, hall⟩, hdeclared, -⟩ := foldlM_settles
      (fun after => guards.predicates ⊆ after ∧ ∀ p ∈ after, context.Needs overruns p)
      (fun root after => policy.elidesLocal = false → context.SettlesDeclared after root)
      (fun before root hroot after hstep ⟨hkept, hall⟩ => by
        obtain ⟨hsubset, hsettles, hadded⟩ := GuardContext.guardDeclared_settles hroot hstep
        exact ⟨⟨fun _ hp => hsubset (hkept hp), fun p hp => (hadded p hp).elim (hall p) id⟩,
          hsettles, fun _ hother hpolicy => (hother hpolicy).mono hsubset⟩)
      hroots ⟨fun _ hp => hp, hneeded⟩
    exact ⟨hkept, hentries, fun _ hpolicy root hroot => hdeclared root hroot hpolicy, hall, hnamed⟩

/-- Guards can be generated. -/
theorem Regular.guards_ok (h : stage.Regular) (hranges : stage.HasLiteralRanges .int32 ranges)
    (hvars : ∀ id range, ranges.get? id = some range → ∃ iv, stage.iterVar? id = some iv)
    (hindices : ∀ id ∈ stage.loops, (indices.get? id).isSome) :
    ∃ known overruns predicates,
      stage.rangedFacts ranges (fun _ range => range) = .ok known ∧
      stage.overrunsUp ranges known.facts stage.leafOverruns = .ok overruns ∧
      stage.guards ranges indices .standard = .ok predicates ∧
      stage.Knows ranges known ∧ Guarding ⟨stage, ranges, indices, known⟩ overruns predicates := by
  obtain ⟨known, hfacts, hknows⟩ := h.rangedFacts_ok hvars
  obtain ⟨overruns, hflow, hfollows⟩ := h.overrunsUp_ok hranges hknows.unconstrained
  obtain ⟨predicates, hguards⟩ := h.linked.guards_ok h.hasVars hranges.hasRanges hvars
    (fun id hid => Option.isSome_iff_exists.mp (hindices id (h.mem_defined_iff.mp hid))) .standard
  obtain ⟨known', overruns', guards, hfacts', hflow', hselected⟩ := guards_inv hguards
  obtain rfl := Except.ok.inj (hfacts.symm.trans hfacts')
  obtain rfl := Except.ok.inj (hflow.symm.trans hflow')
  refine ⟨known, overruns, predicates, hfacts, hflow, hguards, hknows, ?_, ?_, fun p hp => ?_⟩
  · intro relation hrelation hfit hloose id hid
    cases relation with
    | split parent outer inner size =>
        obtain rfl := List.mem_singleton.mp hid
        rw [IterMap.getDefault, hfollows _ hrelation hfit hloose]
        rfl
    | fuse | rebase | singleton => exact hloose.elim
  · intro id range hdecides
    cases hdecides with
    | inferred hloop hoverruns hrange =>
        obtain ⟨found, hfound, hsettles⟩ := hselected.settlesInferred rfl id
          ((GuardContext.mayGuard_iff h).mpr hloop) hoverruns
        exact Option.some.inj (hfound.symm.trans hrange) ▸ hsettles
    | declared hroot iv inferred hiv hdeclared hrange hdifferent =>
        obtain ⟨found, hfound, hsettles⟩ := hselected.declared rfl rfl id hroot
          ((GuardContext.mayGuard_iff h).mpr (h.mem_loops_of_mem_roots hroot)) iv range hiv
          hdeclared
        obtain rfl := Option.some.inj (hfound.symm.trans hrange)
        exact hsettles hdifferent
  · obtain ⟨id, index, range, hdecides, hindex, heq, -⟩ := (hselected.needed p hp).decides h
    exact ⟨id, index, range, hdecides, hindex, heq⟩

end Stage

end LoopNest
