/-
# Deciding that nothing wraps

A point counts only through its values at the drivers, and these lie in finite ranges.
So the points inside can be listed, and it can be decided whether anything wraps at one
of them.
-/

import LoopNest.Proofs.Guard.Points

namespace LoopNest

namespace Box

/-- The points of a box: some variables take every combination of values inside, the others
are zero. -/
def points (box : Box) : List IterId → List (IterId → Int)
  | [] => [fun _ => 0]
  | id :: rest => (box.points rest).flatMap fun point =>
    (List.range (box.extent id).toNat).map fun (n : Nat) =>
      Function.update point id (box.low id + n)

variable {box : Box} {ids : List IterId} {point : IterId → Int}

/-- Listed points are inside. -/
theorem contains_of_mem_points (h : point ∈ box.points ids) :
    ∀ id ∈ ids, box.Contains id (point id) := by
  induction ids generalizing point with
  | nil => simp
  | cons first rest ih =>
      simp only [points, List.mem_flatMap, List.mem_map, List.mem_range] at h
      obtain ⟨before, hbefore, n, hn, rfl⟩ := h
      intro id hid
      by_cases hsame : id = first
      · subst hsame
        rw [Function.update_self]
        exact ⟨by omega, by omega⟩
      · rw [Function.update_of_ne hsame]
        exact ih hbefore id (List.mem_of_ne_of_mem hsame hid)

/-- A point inside agrees with a listed one. -/
theorem exists_mem_points (h : ∀ id ∈ ids, box.Contains id (point id)) :
    ∃ listed ∈ box.points ids, ∀ id ∈ ids, point id = listed id := by
  induction ids with
  | nil => exact ⟨_, List.mem_singleton_self _, by simp⟩
  | cons first rest ih =>
      rw [List.forall_mem_cons] at h
      obtain ⟨⟨hlow, hhigh⟩, hrest⟩ := h
      obtain ⟨listed, hlisted, hsame⟩ := ih hrest
      refine ⟨Function.update listed first (point first), ?_, fun id hid => ?_⟩
      · simp only [points, List.mem_flatMap, List.mem_map, List.mem_range]
        refine ⟨listed, hlisted, (point first - box.low first).toNat, by omega, ?_⟩
        rw [Int.toNat_of_nonneg (by omega), add_sub_cancel]
      · by_cases hfirst : id = first
        · rw [hfirst, Function.update_self]
        · rw [Function.update_of_ne hfirst]
          exact hsame id (List.mem_of_ne_of_mem hfirst hid)

instance (id : IterId) (x : Int) : Decidable (box.Contains id x) := by
  unfold Contains
  infer_instance

instance decidableExtentsFit (box : Box) : DecidablePred box.ExtentsFit
  | .split parent _ _ size => by unfold ExtentsFit; infer_instance
  | .fuse outer inner _ => by unfold ExtentsFit; infer_instance
  | .rebase _ _ | .singleton _ => .isTrue trivial

end Box

namespace GuardContext

variable {context : GuardContext} {overruns : IterMap Bool}

instance (assignment : Assignment) (index : Expr) (range : Range) :
    Decidable (context.DistanceFits assignment index range) :=
  decidable_of_iff ((Expr.binary .sub index range.min).Exact assignment ∧
      (index.sub range.min).Exact assignment ∧
      context.known.facts.EndsWithin context.known.domains (index.sub range.min))
    ⟨fun h => ⟨h.1, h.2.1, h.2.2⟩, fun h => ⟨h.bare, h.built, h.analysed⟩⟩

/-- The ranges for which it has to be decided whether a guard is needed. -/
def decisions (context : GuardContext) (overruns : IterMap Bool) : List (IterId × Range) :=
  (context.ranges.toList.filter fun entry =>
      decide (entry.1 ∈ context.stage.loops) && overruns.getDefault entry.1) ++
    context.stage.roots.filterMap fun root => do
      let iv ← context.stage.iterVar? root
      let declared ← iv.declared
      let inferred ← context.ranges.get? root
      if context.sameRange inferred declared then none else some (root, declared)

theorem mem_decisions {id : IterId} {range : Range} :
    (id, range) ∈ context.decisions overruns ↔ context.Decides overruns id range := by
  simp only [decisions, List.mem_append, List.mem_filter, IterMap.mem_toList, Bool.and_eq_true,
    decide_eq_true_eq, List.mem_filterMap, bind, Option.bind_eq_some_iff, Option.ite_none_left_eq_some,
    Option.some.injEq, Prod.mk.injEq, Bool.not_eq_true]
  constructor
  · rintro (⟨hrange, hloop, hoverrun⟩ | ⟨_, hroot, iv, hiv, _, hdeclared, inferred, hinferred,
      hdifferent, rfl, rfl⟩)
    · exact .inferred hloop hoverrun hrange
    · exact .declared hroot iv inferred hiv hdeclared hinferred hdifferent
  · rintro (⟨hloop, hoverrun, hrange⟩ | ⟨hroot, iv, inferred, hiv, hdeclared, hinferred, hdifferent⟩)
    · exact .inl ⟨hrange, hloop, hoverrun⟩
    · exact .inr ⟨id, hroot, iv, hiv, range, hdeclared, inferred, hinferred, hdifferent, rfl, rfl⟩

instance (assignment : Assignment) : Decidable (context.DistancesFit overruns assignment) :=
  decidable_of_iff (∀ entry ∈ context.decisions overruns, ∀ index ∈ context.indices.get? entry.1,
      context.DistanceFits assignment index entry.2) <| by
    simp only [DistancesFit, Prod.forall, mem_decisions, Option.mem_def]
    exact ⟨fun h id range index hdecides => h id range hdecides index,
      fun h id range hdecides index => h id range index hdecides⟩

end GuardContext

instance (indices : IterMap Expr) (assignment : Assignment) :
    Decidable (indices.IsExact assignment) :=
  decidable_of_iff (∀ entry ∈ indices.toList, entry.2.Exact assignment) <| by
    simp only [IterMap.IsExact, Prod.forall, IterMap.mem_toList]

namespace Stage

variable {stage : Stage} {ranges : IterMap Range} {drivers : List IterId} {indices : IterMap Expr}

/-- What holds at the listed points holds at all points inside. -/
theorem forall_inside_iff (holds : Assignment → Prop) :
    (∀ point, Inside ranges drivers point → holds (stage.assignmentAt drivers point)) ↔
      ∀ point ∈ ranges.box.points drivers, holds (stage.assignmentAt drivers point) := by
  constructor
  · intro h point hpoint
    exact h point (Box.contains_of_mem_points hpoint)
  · intro h point hinside
    obtain ⟨listed, hlisted, hsame⟩ := Box.exists_mem_points hinside
    rw [assignmentAt_congr hsame]
    exact h listed hlisted

/-- Nothing wraps if nothing does at the listed points. -/
theorem wrapFree_iff : stage.WrapFree ranges drivers indices ↔
    (∀ relation ∈ stage.relations, ranges.box.ExtentsFit relation) ∧
    (∀ id ∈ drivers, DType.int32.contains (ranges.box.low id + ranges.box.extent id) = true) ∧
    (∀ point ∈ ranges.box.points drivers, indices.IsExact (stage.assignmentAt drivers point)) ∧
    ∀ known ∈ (stage.rangedFacts ranges fun _ range => range).toOption,
      ∀ overruns ∈ (stage.overrunsUp ranges known.facts stage.leafOverruns).toOption,
        ∀ point ∈ ranges.box.points drivers, GuardContext.DistancesFit
          ⟨stage, ranges, indices, known⟩ overruns (stage.assignmentAt drivers point) := by
  simp only [Option.mem_def, toOption_eq_some, ← forall_inside_iff indices.IsExact,
    ← forall_inside_iff (GuardContext.DistancesFit _ _)]
  constructor
  · rintro ⟨hextents, hends, hexact, hdistances⟩
    exact ⟨hextents, hends, hexact, fun known hfacts overruns => hdistances known overruns hfacts⟩
  · rintro ⟨hextents, hends, hexact, hdistances⟩
    exact ⟨hextents, hends, hexact, fun known overruns hfacts => hdistances known hfacts overruns⟩

instance : Decidable (stage.WrapFree ranges drivers indices) :=
  decidable_of_iff' _ wrapFree_iff

end Stage

end LoopNest
