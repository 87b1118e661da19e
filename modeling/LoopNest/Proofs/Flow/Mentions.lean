/-
# Variables that ranges mention

Range inference puts ranges together from the ranges of what a relation consumes and the
extent that a split fixes. It introduces no variable on the way: where neither of these
mentions a variable, the ranges that are recorded do not mention it either. This is stated
for one variable and for the iteration variables whose ranges count, which may be all of
them or only the loops.
-/

import LoopNest.Proofs.Facts.Mentions
import LoopNest.Proofs.Flow.Inference

namespace LoopNest

section Expressions

variable {v : Var} {e extent given min : Expr} {range : Range} (facts : Facts)

theorem Expr.mentions_offsetBy (h : e.mentions v = false) (hmin : min.mentions v = false) :
    (e.offsetBy min).mentions v = false := by
  unfold offsetBy
  split
  · exact h
  · exact mentions_combine h hmin

/-- Whether a variable occurs in the minimum or the extent of a range. -/
def Range.mentions (range : Range) (v : Var) : Bool :=
  range.min.mentions v || range.extent.mentions v

theorem Range.mentions_eq_false_iff :
    range.mentions v = false ↔ range.min.mentions v = false ∧ range.extent.mentions v = false :=
  Bool.or_eq_false_iff

theorem Range.mentions_ofExtent (h : extent.mentions v = false) :
    (ofExtent extent).mentions v = false :=
  mentions_eq_false_iff.mpr ⟨rfl, h⟩

variable (hextent : extent.mentions v = false) (hgiven : given.mentions v = false)
include hextent hgiven

theorem Facts.mentions_ceilDiv : (facts.ceilDiv extent given).mentions v = false := by
  unfold ceilDiv
  split
  · exact facts.mentions_simplify (Expr.mentions_combine hextent hgiven)
  · exact facts.mentions_simplify (Expr.mentions_combine
      (Expr.mentions_combine hextent (Expr.mentions_combine hgiven rfl)) hgiven)

theorem Facts.mentions_smallerOrSecond :
    (facts.smallerOrSecond extent given).mentions v = false := by
  unfold smallerOrSecond
  split
  · exact facts.mentions_simplify hextent
  · exact facts.mentions_simplify hgiven

/-- The ranges of both loops of a split mention what the extent of the parent and the fixed
extent do. -/
theorem Stage.mentions_splitRanges (keep : Bool) :
    (splitRanges facts extent given keep).1.mentions v = false ∧
      (splitRanges facts extent given keep).2.mentions v = false := by
  refine ⟨Range.mentions_ofExtent (Expr.mentions_castTo ?_ _),
    Range.mentions_ofExtent (facts.mentions_ceilDiv hextent hgiven)⟩
  split
  · exact hgiven
  · exact facts.mentions_smallerOrSecond hextent hgiven

end Expressions

/-- Whether a variable occurs in the extent that a relation fixes, if it is a split. -/
def Relation.mentions (v : Var) : Relation → Bool
  | split _ _ _ size => size.extent.mentions v
  | _ => false

/-- The ranges of some iteration variables do not mention a variable. -/
def RangesAvoid (among : IterId → Prop) (v : Var) (ranges : IterMap Range) : Prop :=
  ∀ id, among id → ∀ range, ranges.get? id = some range → range.mentions v = false

namespace Stage

variable {stage : Stage} {id : IterId}

theorem get?_of_read? {α : Type} {values : IterMap α} {value : α} {pass : PassName}
    {lenient : Bool} (h : stage.read? pass lenient values id = .ok (some value)) :
    values.get? id = some value := by
  rw [read?] at h
  split at h
  · rename_i hfound
    rw [hfound]
    exact Except.ok.inj h
  · split at h <;> cases h

theorem get?_of_readBoth? {α : Type} {values : IterMap α} {first second : α} {pass : PassName}
    {id' : IterId} {lenient : Bool}
    (h : stage.readBoth? pass lenient values id id' = .ok (some (first, second))) :
    values.get? id = some first ∧ values.get? id' = some second := by
  rw [readBoth?] at h
  split at h
  · rename_i hfirst hsecond
    rw [hfirst, hsecond]
    simpa using h
  · split at h <;> cases h
  · split at h <;> cases h

end Stage

namespace RangesAvoid

variable {stage : Stage} {among : IterId → Prop} {v : Var} {state next : Inference}
  {relation : Relation} {id : IterId} {range : Range}

theorem insert (h : RangesAvoid among v state.ranges)
    (hrange : among id → range.mentions v = false) (u : Var) :
    RangesAvoid among v (state.insert id u range).ranges := by
  intro other hother found hfound
  rw [Inference.get?_insert] at hfound
  split at hfound
  · rename_i heq
    exact Option.some.inj hfound ▸ hrange (heq ▸ hother)
  · exact h other hother found hfound

theorem recordRange (h : RangesAvoid among v state.ranges)
    (hnext : stage.recordRange state id range = .ok next)
    (hrange : among id → range.mentions v = false) :
    RangesAvoid among v next.ranges := by
  unfold Stage.recordRange at hnext
  split at hnext
  · obtain ⟨iv, -, hnext⟩ := bind_eq_ok.mp hnext
    exact Except.ok.inj hnext ▸ h.insert hrange iv.var
  · split at hnext
    · exact Except.ok.inj hnext ▸ h
    · cases hnext

/-- One relation downward. -/
theorem inferRanges (h : RangesAvoid among v state.ranges)
    (hinputs : ∀ id ∈ relation.inputs, among id) (hsize : relation.mentions v = false)
    {dominance : IterMap Bool} {lenient : Bool}
    (hnext : stage.inferRanges dominance lenient state relation = .ok next) :
    RangesAvoid among v next.ranges := by
  have hextent : ∀ id ∈ relation.inputs, ∀ range, state.ranges.get? id = some range →
      range.extent.mentions v = false := fun id hid range hrange =>
    (Range.mentions_eq_false_iff.mp (h id (hinputs id hid) range hrange)).2
  cases relation with
  | split parent outer inner size =>
      simp only [Stage.inferRanges, bind_eq_ok, Stage.Halt.keeping_eq_ok] at hnext
      obtain ⟨found, hfound, hnext⟩ := hnext
      cases found with
      | none => exact Except.ok.inj hnext ▸ h
      | some parentRange =>
          simp only [bind_eq_ok, Stage.Halt.keeping_eq_ok] at hnext
          obtain ⟨recorded, hrecorded, hnext⟩ := hnext
          have hmade := Stage.mentions_splitRanges state.facts
            (hextent parent List.mem_cons_self parentRange (Stage.get?_of_read? hfound))
            hsize
          exact (h.recordRange hrecorded fun _ => (hmade _).1).recordRange hnext
            fun _ => (hmade _).2
  | fuse outer inner fused =>
      simp only [Stage.inferRanges, bind_eq_ok, Stage.Halt.keeping_eq_ok] at hnext
      obtain ⟨found, hfound, hnext⟩ := hnext
      cases found with
      | none => exact Except.ok.inj hnext ▸ h
      | some both =>
          obtain ⟨outerRange, innerRange⟩ := both
          obtain ⟨houter, hinner⟩ := Stage.get?_of_readBoth? hfound
          simp only [bind_eq_ok] at hnext
          obtain ⟨iv, -, hnext⟩ := hnext
          refine Except.ok.inj hnext ▸ h.insert (fun _ => ?_) iv.var
          exact Range.mentions_ofExtent (state.facts.mentions_simplify (Expr.mentions_combine
            (hextent outer (by simp [Relation.inputs]) _ houter)
            (hextent inner (by simp [Relation.inputs]) _ hinner)))
  | rebase parent rebased =>
      simp only [Stage.inferRanges, bind_eq_ok, Stage.Halt.keeping_eq_ok] at hnext
      obtain ⟨found, hfound, hnext⟩ := hnext
      cases found with
      | none => exact Except.ok.inj hnext ▸ h
      | some parentRange =>
          exact h.recordRange hnext fun _ => Range.mentions_ofExtent
            (hextent parent List.mem_cons_self parentRange (Stage.get?_of_read? hfound))
  | singleton iter =>
      simp only [Stage.inferRanges, bind_eq_ok, Stage.Halt.keeping_eq_ok] at hnext
      obtain ⟨iv, -, hnext⟩ := hnext
      exact h.recordRange hnext fun _ => rfl

/-- A thread gets the range of a loop. -/
theorem inferThreadRange (h : RangesAvoid among v state.ranges) {lenient : Bool}
    {binding : IterId × IterId} (hloop : among binding.1)
    (hnext : stage.inferThreadRange lenient state binding = .ok next) :
    RangesAvoid among v next.ranges := by
  obtain ⟨found, hfound, hnext⟩ := bind_eq_ok.mp (Stage.Halt.keeping_eq_ok.mp hnext)
  cases found with
  | none => exact Except.ok.inj hnext ▸ h
  | some range =>
      exact h.recordRange hnext fun _ => h binding.1 hloop range (Stage.get?_of_read? hfound)

end RangesAvoid

end LoopNest
