/-
# Accessed sets over-approximate

Where the values of the leaves lie in their sets, the values that are put together from them
lie in the sets that are found on the way up. A set that fills a range stands for any value in
the range of the loop above it, so no more is asked of this value. Otherwise the value of a
split or rebased loop comes from interval arithmetic, and that of a fused loop from the
projection onto rows.

Nothing may wrap where the values and the ends are computed. This is asked of each relation
only for what it does compute, and the types of the extents do not matter.
-/

import LoopNest.Proofs.Expr.Widened
import LoopNest.Proofs.Flow.Accesses
import LoopNest.Proofs.Flow.Literals
import LoopNest.Proofs.Flow.RoundTrip

namespace LoopNest

namespace Expr

variable {assignment : Assignment} {outer inner parent : Expr} {x y low extent : Int}
  {innerRange parentRange : Range}

/-- The index of a split loop, put together from those of the loops that are made of it. -/
theorem widens_split (houter : outer.TypedAt .int32) (hinner : inner.TypedAt .int32)
    (hx : outer.eval assignment = .ok x) (hy : inner.eval assignment = .ok y)
    (hextent : innerRange.extent.IsNumber extent) :
    ((outer.mul innerRange.extent).add inner).Widens assignment (x * extent + y) :=
  ((houter.widens hx).mul (.inr hextent)).add (.inl (hinner.widens hy))

theorem typedAt_split (houter : outer.TypedAt .int32) (hinner : inner.TypedAt .int32)
    (hextent : innerRange.extent.IsNumber extent) (hmin : parentRange.min.IsNumber low) :
    ((((outer.mul innerRange.extent).add inner).offsetBy parentRange.min).castTo .int32).TypedAt
      .int32 :=
  .castTo (wellTyped_offsetBy (wellTyped_combine_arithmetic rfl
    (wellTyped_combine_arithmetic rfl houter.wellTyped (wellTyped_of_isNumber hextent))
    hinner.wellTyped) hmin) _

end Expr

section Symbols

variable {outer inner : Var} {innerRange parentRange : Range} {outerSet innerSet set : ValueSet}
  {facts : Facts} {x y low extent : Int} {min : Expr}

theorem Expr.isArithmetic_of_isNumber {e : Expr} (h : e.IsNumber x) : e.IsArithmetic := by
  obtain ⟨_, rfl, -⟩ := h.exists_const
  trivial

theorem Expr.typedAt_var {v : Var} : (Expr.var v).TypedAt v.dtype :=
  ⟨⟨trivial, trivial⟩, rfl⟩

/-- A variable that is moved by a literal keeps its type. -/
theorem Expr.typedAt_add_number {e : Expr} (h : e.TypedAt .int32) (hopen : e.value? = none)
    (hmin : min.IsNumber low) : (e.add min).TypedAt .int32 :=
  ⟨wellTyped_combine_arithmetic rfl h.wellTyped (wellTyped_of_isNumber hmin),
    (dtype_combine_number hopen rfl hmin).trans h.dtype_eq⟩

variable (houter : outer.dtype = .int32) (hinner : inner.dtype = .int32)
variable (hextent : innerRange.extent.IsNumber extent) (hmin : parentRange.min.IsNumber low)

include houter hinner hextent hmin in
theorem typedAt_splitIndex : (splitIndex outer inner innerRange parentRange).TypedAt .int32 := by
  have hproduct : ((Expr.var outer).mul innerRange.extent).TypedAt .int32 :=
    ⟨Expr.wellTyped_combine_arithmetic rfl Expr.typedAt_var.wellTyped
      (Expr.wellTyped_of_isNumber hextent),
      (Expr.dtype_combine_number rfl rfl hextent).trans houter⟩
  have hvar : (Expr.var inner).TypedAt .int32 := hinner ▸ Expr.typedAt_var
  exact Expr.typedAt_add_number (hproduct.combine rfl hvar) (Expr.value?_add_of_open rfl
    (hproduct.dtype_eq.trans hvar.dtype_eq.symm)) hmin

include hextent hmin in
theorem isArithmetic_splitIndex :
    (splitIndex outer inner innerRange parentRange).IsArithmetic :=
  Expr.isArithmetic_combine rfl (Expr.isArithmetic_combine rfl (Expr.isArithmetic_combine rfl
    trivial (Expr.isArithmetic_of_isNumber hextent)) trivial) (Expr.isArithmetic_of_isNumber hmin)

include houter hinner hextent hmin in
/-- The set of a split loop that is found from those of the two loops that are made of it. -/
theorem Facts.splitIndex_has (hfree : facts.Consistent) (hne : outer ≠ inner)
    (hx : outerSet.Has x) (hy : innerSet.Has y) (hcontains : DType.int32.contains x = true)
    (hcontains' : DType.int32.contains y = true)
    (hwrapless : (splitIndex outer inner innerRange parentRange).Wrapless
      ((Assignment.empty.insert outer x).insert inner y))
    (hends : facts.EndsExact ((Domains.empty.insert outer outerSet).insert inner innerSet)
      (splitIndex outer inner innerRange parentRange)) :
    (facts.values (splitIndex outer inner innerRange parentRange)
      ((Domains.empty.insert outer outerSet).insert inner innerSet)).Has
        (DType.int32.truncate (x * extent + y + low)) := by
  have htyped := typedAt_splitIndex houter hinner hextent hmin
  have hvar : ∀ {v : Var}, v.dtype = .int32 → (Expr.var v).TypedAt .int32 :=
    fun hv => hv ▸ Expr.typedAt_var
  have houterValue : (Expr.var outer).eval ((Assignment.empty.insert outer x).insert inner y) =
      .ok x := by
    rw [Assignment.eval_insert_of_ne hne, Assignment.eval_insert_self (houter ▸ hcontains)]
  have hinnerValue : (Expr.var inner).eval ((Assignment.empty.insert outer x).insert inner y) =
      .ok y := Assignment.eval_insert_self (hinner ▸ hcontains')
  have hwidens := ((((hvar houter).widens houterValue).mul (.inr hextent)).add
    (.inl ((hvar hinner).widens hinnerValue))).add (.inr hmin)
  exact Facts.values_has hfree
    (((Domains.hold_empty _ _).insert hx (houter ▸ hcontains)).insert hy (hinner ▸ hcontains'))
    htyped.wellTyped.formed (isArithmetic_splitIndex hextent hmin) hwrapless hends
    (hwidens.eval_eq htyped)

/-- The set of a rebased loop, moved to the start of the range that it was rebased from. -/
theorem Facts.moved_has {v : Var} (hv : v.dtype = .int32) (hmin : min.IsNumber low)
    (hfree : facts.Consistent) (hx : set.Has x) (hcontains : DType.int32.contains x = true)
    (hwrapless : ((Expr.var v).add min).Wrapless (Assignment.empty.insert v x))
    (hends : facts.EndsExact (Domains.empty.insert v set) ((Expr.var v).add min)) :
    (facts.values ((Expr.var v).add min) (Domains.empty.insert v set)).Has
      (DType.int32.truncate (x + low)) := by
  have hvar : (Expr.var v).TypedAt .int32 := hv ▸ Expr.typedAt_var
  have htyped := Expr.typedAt_add_number hvar rfl hmin
  have hvalue : (Expr.var v).eval (Assignment.empty.insert v x) = .ok x :=
    Assignment.eval_insert_self (hv ▸ hcontains)
  exact Facts.values_has hfree ((Domains.hold_empty _ _).insert hx (hv ▸ hcontains))
    htyped.wellTyped.formed
    (Expr.isArithmetic_combine rfl trivial (Expr.isArithmetic_of_isNumber hmin)) hwrapless hends
    (((hvar.widens hvalue).add (.inr hmin)).eval_eq htyped)

end Symbols

namespace Stage

variable {stage : Stage} {ranges : IterMap Range} {relation : Relation} {facts : Facts}
  {leaves indices : IterMap Expr} {assignment : Assignment}

/-- One relation upward: what is put together from indices of 32 bits has 32 bits. -/
theorem IndicesRaised.typedAt (h : stage.IndicesRaised ranges indices.get? relation)
    (hlinked : stage.Linked) (hranges : stage.RangesLiterally ranges)
    (hrelation : relation ∈ stage.relations)
    (hready : ∀ id ∈ relation.outputs, ∃ e, indices.get? id = some e ∧ e.TypedAt .int32) :
    ∀ id ∈ relation.inputs, ∃ e, indices.get? id = some e ∧ e.TypedAt .int32 := by
  have hdefined : ∀ id ∈ relation.inputs, id ∈ stage.defined := fun _ hid =>
    hlinked.mem_defined_of_mem_inputs hrelation hid
  have hvar := fun id hid => hranges.hasType id (hdefined id hid)
  have hinput := fun id hid => hranges.loops id (hdefined id hid)
  have houtput := fun id hid => hranges.loops id (mem_defined_of_mem_outputs hrelation hid)
  cases relation with
  | split parent outer inner size =>
      simp only [Relation.inputs, Relation.outputs, List.mem_cons, List.not_mem_nil, or_false,
        forall_eq, forall_eq_or_imp] at hvar hinput houtput hready ⊢
      obtain ⟨⟨first, hfirst, houter⟩, second, hsecond, hinner⟩ := hready
      obtain ⟨iv, hiv, hdtype⟩ := hvar
      obtain ⟨parentRange, hparent, hspans⟩ := hinput
      obtain ⟨-, innerRange, hrange, hspans'⟩ := houtput
      refine ⟨_, h first second _ _ iv hfirst hsecond hrange hparent hiv, ?_⟩
      rw [hdtype]
      exact Expr.typedAt_split houter hinner hspans'.extent hspans.min
  | fuse outer inner fused =>
      simp only [Relation.inputs, Relation.outputs, List.mem_cons, List.not_mem_nil, or_false,
        forall_eq, forall_eq_or_imp] at hvar hinput hready ⊢
      obtain ⟨index, hindex, hfused⟩ := hready
      obtain ⟨⟨outerVar, houterVar, houterType⟩, innerVar, hinnerVar, hinnerType⟩ := hvar
      obtain ⟨⟨outerRange, houter, hspans⟩, innerRange, hinner, hspans'⟩ := hinput
      obtain ⟨hget, hget'⟩ := h index _ _ outerVar innerVar hindex houter hinner houterVar hinnerVar
      rw [houterType] at hget
      rw [hinnerType] at hget'
      have hrow := Expr.wellTyped_of_isNumber hspans'.extent
      exact ⟨⟨_, hget, .castTo (Expr.wellTyped_offsetBy
          (Expr.wellTyped_combine_arithmetic rfl hfused.wellTyped hrow) hspans.min) _⟩,
        _, hget', .castTo (Expr.wellTyped_offsetBy
          (Expr.wellTyped_combine_arithmetic rfl hfused.wellTyped hrow) hspans'.min) _⟩
  | rebase parent rebased =>
      simp only [Relation.inputs, Relation.outputs, List.mem_cons, List.not_mem_nil, or_false,
        forall_eq] at hdefined hinput hready ⊢
      obtain ⟨index, hindex, htyped⟩ := hready
      obtain ⟨parentRange, hparent, hspans⟩ := hinput
      refine ⟨_, h index _ hindex hparent, htyped.offsetBy_number hspans.min ?_⟩
      rcases List.mem_append.mp hdefined with hroot | hmade
      · exact .inr (hranges.roots parent hroot parentRange hparent)
      · obtain ⟨maker, hmaker, hparent'⟩ := List.mem_flatMap.mp hmade
        exact .inl (hranges.made maker hmaker parent hparent')
  | singleton iter => simp [Relation.inputs]

/-- The indices of all loops have 32 bits if those of the leaves do. -/
theorem Raises.typedAt (h : stage.Raises ranges leaves indices) (hlinked : stage.Linked)
    (hranges : stage.RangesLiterally ranges)
    (hleaves : ∀ leaf ∈ stage.leaves, ∃ e, leaves.get? leaf = some e ∧ e.TypedAt .int32) :
    ∀ id ∈ stage.defined, ∃ e, indices.get? id = some e ∧ e.TypedAt .int32 := by
  refine hlinked.induction_up (fun id hid => ?_) fun relation hrelation =>
    (h.relations relation hrelation).typedAt hlinked hranges hrelation
  rw [h.leaves id hid]
  exact hleaves id hid

section Values

variable {value : IterId → Int} {parent outer inner fused rebased : IterId} {size : SplitSize}
variable (hranges : stage.RangesLiterally ranges)
include hranges

/-- The index of a split loop has the wrapped value that the two loops are put together to. -/
theorem IndicesRaised.split_eq
    (h : stage.IndicesRaised ranges indices.get? (.split parent outer inner size))
    (hparent : parent ∈ stage.defined) (hinner : inner ∈ stage.defined)
    (hvalue : ∀ id ∈ [outer, inner], indices.EvaluatesTo .int32 assignment id (value id)) :
    indices.valueAt assignment parent = DType.int32.truncate
      (value outer * ranges.box.extent inner + value inner + ranges.box.low parent) := by
  rw [List.forall_mem_cons, List.forall_mem_singleton] at hvalue
  obtain ⟨⟨first, hfirst, htyped, hx⟩, second, hsecond, htyped', hy⟩ := hvalue
  obtain ⟨iv, hiv, hdtype⟩ := hranges.hasType parent hparent
  obtain ⟨parentRange, hparentRange, hspans⟩ := hranges.loops parent hparent
  obtain ⟨innerRange, hinnerRange, hspans'⟩ := hranges.loops inner hinner
  have hget := h first second _ _ iv hfirst hsecond hinnerRange hparentRange hiv
  rw [hdtype] at hget
  exact IterMap.valueAt_of_eval hget
    ((Expr.widens_split htyped htyped' hx hy hspans'.extent).offsetBy hspans.min).castTo.2

/-- The indices of two fused loops have the wrapped row and place of the fused one, if bringing
the index and the length of a row to one type leaves the length as it is. -/
theorem IndicesRaised.fuse_eq
    (h : stage.IndicesRaised ranges indices.get? (.fuse outer inner fused))
    (houter : outer ∈ stage.defined) (hinner : inner ∈ stage.defined)
    (hvalue : indices.EvaluatesTo .int32 assignment fused (value fused))
    (hcell : 0 ≤ value fused) (hpos : 1 ≤ ranges.box.extent inner)
    (hkept : ∀ index ∈ indices.get? fused, ∀ innerRange ∈ ranges.get? inner,
      (index.promote innerRange.extent).2.value? = some (ranges.box.extent inner)) :
    indices.valueAt assignment outer = DType.int32.truncate
        (value fused / ranges.box.extent inner + ranges.box.low outer) ∧
      indices.valueAt assignment inner = DType.int32.truncate
        (value fused % ranges.box.extent inner + ranges.box.low inner) := by
  obtain ⟨index, hindex, htyped, hx⟩ := hvalue
  obtain ⟨outerVar, houterVar, houterType⟩ := hranges.hasType outer houter
  obtain ⟨innerVar, hinnerVar, hinnerType⟩ := hranges.hasType inner hinner
  obtain ⟨outerRange, houterRange, hspans⟩ := hranges.loops outer houter
  obtain ⟨innerRange, hinnerRange, hspans'⟩ := hranges.loops inner hinner
  obtain ⟨hget, hget'⟩ := h index _ _ outerVar innerVar hindex houterRange hinnerRange houterVar
    hinnerVar
  rw [houterType] at hget
  rw [hinnerType] at hget'
  have hrow := hkept index hindex innerRange hinnerRange
  have hfits := DType.fits_of_contains (htyped.dtype_eq ▸ Expr.eval_contains hx)
  have hquotient : (index.floorDiv innerRange.extent).Widens assignment _ :=
    htyped.widens_combine rfl hx hspans'.extent hrow (Word.floorDiv?_of_pos hfits (by omega))
  have hremainder : (index.floorMod innerRange.extent).Widens assignment _ :=
    htyped.widens_combine rfl hx hspans'.extent hrow
      (Word.floorMod?_of_nonneg hcell hfits hspans'.extent.fits hpos)
  exact ⟨IterMap.valueAt_of_eval hget (hquotient.offsetBy hspans.min).castTo.2,
    IterMap.valueAt_of_eval hget' (hremainder.offsetBy hspans'.min).castTo.2⟩

/-- The index of a rebased loop has the wrapped value at the start of its range. -/
theorem IndicesRaised.rebase_eq
    (h : stage.IndicesRaised ranges indices.get? (.rebase parent rebased))
    (hparent : parent ∈ stage.defined)
    (hvalue : indices.EvaluatesTo .int32 assignment rebased (value rebased))
    (htyped : ∃ e, indices.get? parent = some e ∧ e.TypedAt .int32) :
    indices.valueAt assignment parent =
      DType.int32.truncate (value rebased + ranges.box.low parent) := by
  obtain ⟨index, hindex, hindexType, hx⟩ := hvalue
  obtain ⟨parentRange, hparentRange, hspans⟩ := hranges.loops parent hparent
  have hget := h index _ hindex hparentRange
  obtain ⟨e, he, htyped⟩ := htyped
  obtain rfl := Option.some.inj (hget.symm.trans he)
  exact IterMap.valueAt_of_eval hget (((hindexType.widens hx).offsetBy hspans.min).eval_eq htyped)

end Values

/-- Nothing wraps when the values and the sets of what a relation consumes are found. -/
def LiftsExactly (stage : Stage) (ranges : IterMap Range) (facts : Facts)
    (sets : IterId → Option ValueSet) (indices : IterMap Expr) (assignment : Assignment) :
    Relation → Prop
  | .split parent outer inner _ =>
    ∀ outerSet ∈ sets outer, ∀ innerSet ∈ sets inner,
    ∀ outerRange ∈ ranges.get? outer, ∀ innerRange ∈ ranges.get? inner,
    ∀ parentRange ∈ ranges.get? parent,
    ∀ outerVar ∈ stage.iterVar? outer, ∀ innerVar ∈ stage.iterVar? inner,
      if (outerSet.fills outerRange facts && innerSet.fills innerRange facts) = true then
        Expr.AllExact parentRange.lastSums
      else
        (splitIndex outerVar.var innerVar.var innerRange parentRange).Wrapless
            ((Assignment.empty.insert outerVar.var (indices.valueAt assignment outer)).insert
              innerVar.var (indices.valueAt assignment inner)) ∧
          facts.EndsExact
            ((Domains.empty.insert outerVar.var outerSet).insert innerVar.var innerSet)
            (splitIndex outerVar.var innerVar.var innerRange parentRange)
  | .fuse outer inner fused =>
    ∀ fusedSet ∈ sets fused, ∀ outerRange ∈ ranges.get? outer, ∀ innerRange ∈ ranges.get? inner,
    ∀ fusedRange ∈ ranges.get? fused, ∀ index ∈ indices.get? fused,
      if fusedSet.fills fusedRange facts = true then
        Expr.AllExact (outerRange.lastSums ++ innerRange.lastSums)
      else
        (index.promote innerRange.extent).2.value? = some (ranges.box.extent inner) ∧
          DType.int32.contains (indices.valueAt assignment fused / ranges.box.extent inner +
            ranges.box.low outer) = true ∧
          DType.int32.contains (indices.valueAt assignment fused % ranges.box.extent inner +
            ranges.box.low inner) = true ∧
          Expr.AllExact (facts.projectionSums fusedSet outerRange innerRange)
  | .rebase parent rebased =>
    ∀ rebasedSet ∈ sets rebased, ∀ rebasedRange ∈ ranges.get? rebased,
    ∀ parentRange ∈ ranges.get? parent, ∀ rebasedVar ∈ stage.iterVar? rebased,
      if rebasedSet.fills rebasedRange facts = true then Expr.AllExact parentRange.lastSums
      else
        ((Expr.var rebasedVar.var).add parentRange.min).Wrapless
            (Assignment.empty.insert rebasedVar.var (indices.valueAt assignment rebased)) ∧
          facts.EndsExact (Domains.empty.insert rebasedVar.var rebasedSet)
            ((Expr.var rebasedVar.var).add parentRange.min)
  | .singleton _ => True

instance (stage : Stage) (ranges : IterMap Range) (facts : Facts)
    (sets : IterId → Option ValueSet) (indices : IterMap Expr) (assignment : Assignment)
    (relation : Relation) :
    Decidable (stage.LiftsExactly ranges facts sets indices assignment relation) :=
  match relation with
  | .split _ _ _ _ => inferInstanceAs (Decidable (∀ outerSet ∈ _, ∀ innerSet ∈ _,
      ∀ outerRange ∈ _, ∀ innerRange ∈ _, ∀ parentRange ∈ _, ∀ outerVar ∈ _, ∀ innerVar ∈ _, _))
  | .fuse _ _ _ => inferInstanceAs (Decidable (∀ fusedSet ∈ _, ∀ outerRange ∈ _,
      ∀ innerRange ∈ _, ∀ fusedRange ∈ _, ∀ index ∈ _, _))
  | .rebase _ _ => inferInstanceAs (Decidable (∀ rebasedSet ∈ _, ∀ rebasedRange ∈ _,
      ∀ parentRange ∈ _, ∀ rebasedVar ∈ _, _))
  | .singleton _ => inferInstanceAs (Decidable True)

/-- A loop has a set with a value. -/
def SetHas (sets : IterId → Option ValueSet) (id : IterId) (x : Int) : Prop :=
  ∃ set, sets id = some set ∧ set.Has x

/-- A relation between loops whose indices have 32 bits and values inside all ranges. Its sets
and indices were lifted, and nothing wrapped. -/
structure LiftedAt (stage : Stage) (ranges : IterMap Range) (facts : Facts)
    (sets : IterId → Option ValueSet) (indices : IterMap Expr) (assignment : Assignment)
    (relation : Relation) : Prop where
  mem : relation ∈ stage.relations
  introduces : stage.Introduces relation
  lifted : stage.AccessesLifted ranges facts sets relation
  raised : stage.IndicesRaised ranges indices.get? relation
  exact : stage.LiftsExactly ranges facts sets indices assignment relation
  evaluates : ∀ id ∈ stage.defined,
    indices.EvaluatesTo .int32 assignment id (indices.valueAt assignment id)
  inside : ∀ id ∈ stage.defined, ranges.box.Contains id (indices.valueAt assignment id)

section Sets

variable {sets : IterId → Option ValueSet} {id parent outer inner fused rebased : IterId}
  {size : SplitSize}

theorem LiftedAt.contains (h : stage.LiftedAt ranges facts sets indices assignment relation)
    (hid : id ∈ stage.defined) : DType.int32.contains (indices.valueAt assignment id) = true := by
  obtain ⟨index, -, htyped, hx⟩ := h.evaluates id hid
  exact htyped.dtype_eq ▸ Expr.eval_contains hx

/-- A set that is the range of its loop has the value of the loop. -/
theorem LiftedAt.ofRange_has (h : stage.LiftedAt ranges facts sets indices assignment relation)
    (hid : id ∈ stage.defined) {range : Range}
    (hspans : range.Spans (ranges.box.low id) (ranges.box.extent id))
    (hexact : Expr.AllExact range.lastSums) :
    (ValueSet.ofRange range).Has (indices.valueAt assignment id) :=
  hspans.ofRange_has hexact (h.inside id hid).1 (h.inside id hid).2

variable (hlinked : stage.Linked) (hranges : stage.RangesLiterally ranges)
variable (hfree : facts.Consistent)
include hlinked hranges

include hfree in
theorem LiftedAt.split_has
    (h : stage.LiftedAt ranges facts sets indices assignment (.split parent outer inner size))
    (houter : SetHas sets outer (indices.valueAt assignment outer))
    (hinner : SetHas sets inner (indices.valueAt assignment inner)) :
    SetHas sets parent (indices.valueAt assignment parent) := by
  have hparentDefined : parent ∈ stage.defined :=
    hlinked.mem_defined_of_mem_inputs h.mem (by simp [Relation.inputs])
  have houterDefined : outer ∈ stage.defined :=
    mem_defined_of_mem_outputs h.mem (by simp [Relation.outputs])
  have hinnerDefined : inner ∈ stage.defined :=
    mem_defined_of_mem_outputs h.mem (by simp [Relation.outputs])
  obtain ⟨outerSet, houterSet, hhas⟩ := houter
  obtain ⟨innerSet, hinnerSet, hhas'⟩ := hinner
  obtain ⟨outerRange, houterRange, -⟩ := hranges.loops outer houterDefined
  obtain ⟨innerRange, hinnerRange, hspans'⟩ := hranges.loops inner hinnerDefined
  obtain ⟨parentRange, hparentRange, hspans⟩ := hranges.loops parent hparentDefined
  obtain ⟨outerVar, houterVar, houterType⟩ := hranges.hasType outer houterDefined
  obtain ⟨innerVar, hinnerVar, hinnerType⟩ := hranges.hasType inner hinnerDefined
  have hne : outerVar.var ≠ innerVar.var := by
    obtain ⟨_, -, houterDerived, hinnerDerived⟩ := h.introduces
    intro hsame
    have hnodup := hlinked.nodup_outputs h.mem
    simp [Relation.outputs,
      houterDerived.eq_of_var_eq hinnerDerived houterVar hinnerVar hsame] at hnodup
  have hset := h.lifted outerSet innerSet outerRange innerRange parentRange outerVar innerVar
    houterSet hinnerSet houterRange hinnerRange hparentRange houterVar hinnerVar
  have hexact := h.exact outerSet houterSet innerSet hinnerSet outerRange houterRange innerRange
    hinnerRange parentRange hparentRange outerVar houterVar innerVar hinnerVar
  refine ⟨_, hset, ?_⟩
  split at hexact
  · rename_i hfills
    rw [if_pos hfills]
    exact h.ofRange_has hparentDefined hspans hexact
  · rename_i hfills
    rw [if_neg hfills, h.raised.split_eq hranges hparentDefined hinnerDefined
      (List.forall_mem_cons.mpr ⟨h.evaluates outer houterDefined,
        List.forall_mem_singleton.mpr (h.evaluates inner hinnerDefined)⟩)]
    exact Facts.splitIndex_has houterType hinnerType hspans'.extent hspans.min hfree hne hhas hhas'
      (h.contains houterDefined) (h.contains hinnerDefined) hexact.1 hexact.2

theorem LiftedAt.fuse_has
    (h : stage.LiftedAt ranges facts sets indices assignment (.fuse outer inner fused))
    (hfused : SetHas sets fused (indices.valueAt assignment fused)) :
    SetHas sets outer (indices.valueAt assignment outer) ∧
      SetHas sets inner (indices.valueAt assignment inner) := by
  have houterDefined : outer ∈ stage.defined :=
    hlinked.mem_defined_of_mem_inputs h.mem (by simp [Relation.inputs])
  have hinnerDefined : inner ∈ stage.defined :=
    hlinked.mem_defined_of_mem_inputs h.mem (by simp [Relation.inputs])
  have hfusedDefined : fused ∈ stage.defined :=
    mem_defined_of_mem_outputs h.mem (by simp [Relation.outputs])
  obtain ⟨fusedSet, hfusedSet, hhas⟩ := hfused
  obtain ⟨fusedRange, hfusedRange, -⟩ := hranges.loops fused hfusedDefined
  obtain ⟨outerRange, houterRange, hspans⟩ := hranges.loops outer houterDefined
  obtain ⟨innerRange, hinnerRange, hspans'⟩ := hranges.loops inner hinnerDefined
  obtain ⟨hset, hset'⟩ := h.lifted fusedSet outerRange innerRange fusedRange hfusedSet houterRange
    hinnerRange hfusedRange
  obtain ⟨index, hindex, -⟩ := h.evaluates fused hfusedDefined
  have hexact := h.exact fusedSet hfusedSet outerRange houterRange innerRange hinnerRange
    fusedRange hfusedRange index hindex
  split at hexact
  · rename_i hfills
    rw [if_pos hfills] at hset hset'
    obtain ⟨hlast, hlast'⟩ := List.forall_mem_append.mp hexact
    exact ⟨⟨_, hset, h.ofRange_has houterDefined hspans hlast⟩,
      _, hset', h.ofRange_has hinnerDefined hspans' hlast'⟩
  · rename_i hfills
    rw [if_neg hfills] at hset hset'
    obtain ⟨hkept, hrow, hplace, hsums⟩ := hexact
    obtain ⟨hcell, -⟩ := h.inside fused hfusedDefined
    rw [hranges.made _ h.mem fused (by simp [Relation.outputs])] at hcell
    have hpos : 1 ≤ ranges.box.extent inner := by
      obtain ⟨hlow, hhigh⟩ := h.inside inner hinnerDefined
      omega
    obtain ⟨heq, heq'⟩ := h.raised.fuse_eq hranges houterDefined hinnerDefined
      (h.evaluates fused hfusedDefined) hcell hpos fun other hother range hrange => by
        rwa [← Option.some.inj (hindex.symm.trans hother),
          ← Option.some.inj (hinnerRange.symm.trans hrange)]
    rw [DType.truncate_of_contains hrow] at heq
    rw [DType.truncate_of_contains hplace] at heq'
    have hbelow := (h.inside outer houterDefined).2
    rw [heq] at hbelow ⊢
    rw [heq']
    obtain ⟨hhas, hhas'⟩ := Facts.projectFused_has hhas hcell hspans hspans' hbelow hpos hsums
    exact ⟨⟨_, hset, hhas⟩, _, hset', hhas'⟩

include hfree in
theorem LiftedAt.rebase_has
    (h : stage.LiftedAt ranges facts sets indices assignment (.rebase parent rebased))
    (hrebased : SetHas sets rebased (indices.valueAt assignment rebased)) :
    SetHas sets parent (indices.valueAt assignment parent) := by
  have hparentDefined : parent ∈ stage.defined :=
    hlinked.mem_defined_of_mem_inputs h.mem (by simp [Relation.inputs])
  have hrebasedDefined : rebased ∈ stage.defined :=
    mem_defined_of_mem_outputs h.mem (by simp [Relation.outputs])
  obtain ⟨rebasedSet, hrebasedSet, hhas⟩ := hrebased
  obtain ⟨rebasedRange, hrebasedRange, -⟩ := hranges.loops rebased hrebasedDefined
  obtain ⟨parentRange, hparentRange, hspans⟩ := hranges.loops parent hparentDefined
  obtain ⟨rebasedVar, hrebasedVar, htype⟩ := hranges.hasType rebased hrebasedDefined
  have hset := h.lifted rebasedSet rebasedRange parentRange rebasedVar hrebasedSet hrebasedRange
    hparentRange hrebasedVar
  have hexact := h.exact rebasedSet hrebasedSet rebasedRange hrebasedRange parentRange
    hparentRange rebasedVar hrebasedVar
  obtain ⟨e, he, htyped, -⟩ := h.evaluates parent hparentDefined
  refine ⟨_, hset, ?_⟩
  split at hexact
  · rename_i hfills
    rw [if_pos hfills]
    exact h.ofRange_has hparentDefined hspans hexact
  · rename_i hfills
    rw [if_neg hfills, h.raised.rebase_eq hranges hparentDefined
      (h.evaluates rebased hrebasedDefined) ⟨e, he, htyped⟩]
    exact Facts.moved_has htype hspans.min hfree hhas (h.contains hrebasedDefined) hexact.1 hexact.2

include hfree in
/-- One relation upward. -/
theorem LiftedAt.inputs_has (h : stage.LiftedAt ranges facts sets indices assignment relation)
    (houtputs : ∀ id ∈ relation.outputs, SetHas sets id (indices.valueAt assignment id)) :
    ∀ id ∈ relation.inputs, SetHas sets id (indices.valueAt assignment id) := by
  cases relation with
  | split parent outer inner size =>
      rw [Relation.outputs, List.forall_mem_cons, List.forall_mem_singleton] at houtputs
      rw [Relation.inputs, List.forall_mem_singleton]
      exact h.split_has hlinked hranges hfree houtputs.1 houtputs.2
  | fuse outer inner fused =>
      rw [Relation.outputs, List.forall_mem_singleton] at houtputs
      rw [Relation.inputs, List.forall_mem_cons, List.forall_mem_singleton]
      exact h.fuse_has hlinked hranges houtputs
  | rebase parent rebased =>
      rw [Relation.outputs, List.forall_mem_singleton] at houtputs
      rw [Relation.inputs, List.forall_mem_singleton]
      exact h.rebase_has hlinked hranges hfree houtputs
  | singleton iter => simp [Relation.inputs]

end Sets

/-- Whatever commands put a stage together, sets that have the values of the leaves are lifted
to sets that have the values of all loops, as long as these stay in their ranges and nothing
wraps. The induction is on the relations, from the leaves on. -/
theorem accessesUp_contains (name : String) (scope : StorageScope) (commands : List Command)
    {state inferred : Inference} {initial : Accesses}
    (hseeds : ((Stage.empty name scope).executeAll commands).StartsLiterally state)
    (hdown : ((Stage.empty name scope).executeAll commands).rangesDown false state = .ok inferred)
    (hsets : ∀ leaf ∈ ((Stage.empty name scope).executeAll commands).leaves,
      (initial.sets.get? leaf).isSome)
    (hleaves : ∀ leaf ∈ ((Stage.empty name scope).executeAll commands).leaves,
      ∃ e, leaves.get? leaf = some e ∧ e.TypedAt .int32) :
    let stage := (Stage.empty name scope).executeAll commands
    ∃ final indices, stage.accessesUp inferred.ranges inferred.facts initial = .ok final ∧
      stage.indicesUp inferred.ranges false leaves = .ok indices ∧
      ∀ assignment, stage.AllInside inferred.ranges indices assignment →
        (∀ leaf ∈ stage.leaves,
          SetHas initial.sets.get? leaf (indices.valueAt assignment leaf)) →
        (∀ relation ∈ stage.relations, stage.LiftsExactly inferred.ranges inferred.facts
          final.sets.get? indices assignment relation) →
        ∀ id ∈ stage.defined, SetHas final.sets.get? id (indices.valueAt assignment id) := by
  intro stage
  have hassembled := (Assembled.empty name scope).executeAll commands
  have hlinked : stage.Linked := hassembled.toLinked
  have hvars : stage.HasVars := hassembled.hasVars
  have hintroduces : ∀ relation ∈ stage.relations, stage.Introduces relation :=
    introduces_executeAll (by simp [Stage.empty]) commands
  obtain ⟨hranges, hfree⟩ := hlinked.rangesLiterally hvars hintroduces hseeds hdown
  obtain ⟨final, hup, hkept, hlifted⟩ :=
    hlinked.accessesUp_ok hvars hranges.hasRanges inferred.facts hsets
  obtain ⟨indices, hindices, hraises⟩ := hlinked.indicesUp_ok hvars hranges.hasRanges
    fun leaf hleaf => by
      obtain ⟨e, he, -⟩ := hleaves leaf hleaf
      rw [he]
      rfl
  refine ⟨final, indices, hup, hindices, fun assignment hinside hleaf hexact => ?_⟩
  have hvalues := hinside.evaluatesTo (hraises.typedAt hlinked hranges hleaves)
  refine hlinked.induction_up (fun leaf hid => ?_) fun relation hrelation =>
    LiftedAt.inputs_has hlinked hranges hfree
      ⟨hrelation, hintroduces relation hrelation, hlifted relation hrelation,
        hraises.relations relation hrelation, hexact relation hrelation,
        fun id hid => (hvalues id hid).1, fun id hid => (hvalues id hid).2⟩
  rw [SetHas, hkept leaf hid]
  exact hleaf leaf hid

/-- A root split by a factor, whose two loops are fused and split again, and a rebased one. -/
def accessedNest : List Command :=
  [.root "i" (.const .int32 100), .split ⟨0⟩ (.const .int32 8), .fuse ⟨1⟩ ⟨2⟩,
    .split ⟨3⟩ (.const .int32 16), .root "j" (.const .int32 5), .rebase ⟨6⟩]

/-- The ranges of the roots, neither of which starts at zero. -/
def accessedSeeds : Inference :=
  (Inference.empty.insert ⟨0⟩ ⟨.iteration 0, "i", .int32⟩ (.between .int32 7 100)).insert ⟨6⟩
    ⟨.iteration 6, "j", .int32⟩ (.between .int32 3 5)

/-- The cells from 32 to 39 of the fused loop, and all later iterations of the rebased one. -/
def accessedSets : Accesses :=
  ⟨((IterMap.empty.insert ⟨4⟩ (.point (.const .int32 2))).insert ⟨5⟩
    (.between (.const .int32 0) (.const .int32 7))).insert ⟨7⟩
      (.interval (some (.const .int64 1)) none), 0⟩

/-- One of the cells, and one of the later iterations. -/
def accessedPoint : Assignment := fun v =>
  if v.id = .iteration 4 then some 2 else if v.id = .iteration 5 then some 3
  else if v.id = .iteration 7 then some 4 else none

theorem accessesUp_contains_of_accessedNest : ∃ inferred final indices,
    let stage := (Stage.empty "stage" .globalMemory).executeAll accessedNest
    stage.StartsLiterally accessedSeeds ∧ stage.rangesDown false accessedSeeds = .ok inferred ∧
      stage.accessesUp inferred.ranges inferred.facts accessedSets = .ok final ∧
      stage.indicesUp inferred.ranges false stage.leafVariables = .ok indices ∧
      stage.AllInside inferred.ranges indices accessedPoint ∧
      (∀ relation ∈ stage.relations, stage.LiftsExactly inferred.ranges inferred.facts
        final.sets.get? indices accessedPoint relation) ∧
      ∀ id ∈ stage.defined, SetHas final.sets.get? id (indices.valueAt accessedPoint id) := by
  have hseeds : ((Stage.empty "stage" .globalMemory).executeAll accessedNest).StartsLiterally
      accessedSeeds := by
    refine ⟨Facts.consistent_of_unconstrained rfl, ?_, ?_, ?_⟩
    · change ∀ relation ∈ [.split ⟨0⟩ ⟨1⟩ ⟨2⟩ (.factor (.const .int32 8)), .fuse ⟨1⟩ ⟨2⟩ ⟨3⟩,
        .split ⟨3⟩ ⟨4⟩ ⟨5⟩ (.factor (.const .int32 16)), .rebase ⟨6⟩ ⟨7⟩],
          ∃ dtype, Relation.HasConstSize dtype relation
      simp only [List.forall_mem_cons]
      exact ⟨⟨.int32, 8, rfl, by decide, by decide⟩, ⟨.int32, trivial⟩,
        ⟨.int32, 16, rfl, by decide, by decide⟩, ⟨.int32, trivial⟩, by simp⟩
    · intro root hroot
      replace hroot : root ∈ [⟨0⟩, ⟨6⟩] := hroot
      rcases List.mem_pair.mp hroot with rfl | rfl
      · exact ⟨⟨_, rfl, rfl⟩, 7, 100, rfl, by decide, by decide⟩
      · exact ⟨⟨_, rfl, rfl⟩, 3, 5, rfl, by decide, by decide⟩
    · decide
  have hleaves : ∀ leaf ∈ ((Stage.empty "stage" .globalMemory).executeAll accessedNest).leaves,
      ∃ e, ((Stage.empty "stage" .globalMemory).executeAll accessedNest).leafVariables.get? leaf =
        some e ∧ e.TypedAt .int32 := by
    change ∀ leaf ∈ ([⟨4⟩, ⟨5⟩, ⟨7⟩] : List IterId), _
    simp only [List.forall_mem_cons]
    exact ⟨⟨_, rfl, ⟨trivial, trivial⟩, rfl⟩, ⟨_, rfl, ⟨trivial, trivial⟩, rfl⟩,
      ⟨_, rfl, ⟨trivial, trivial⟩, rfl⟩, by simp⟩
  have hsets : ∀ leaf ∈ ((Stage.empty "stage" .globalMemory).executeAll accessedNest).leaves,
      (accessedSets.sets.get? leaf).isSome := by decide
  have hrun : ∃ inferred final indices,
      let stage := (Stage.empty "stage" .globalMemory).executeAll accessedNest
      stage.rangesDown false accessedSeeds = .ok inferred ∧
        stage.accessesUp inferred.ranges inferred.facts accessedSets = .ok final ∧
        stage.indicesUp inferred.ranges false stage.leafVariables = .ok indices ∧
        stage.AllInside inferred.ranges indices accessedPoint ∧
        (∀ leaf ∈ stage.leaves,
          SetHas accessedSets.sets.get? leaf (indices.valueAt accessedPoint leaf)) ∧
        ∀ relation ∈ stage.relations, stage.LiftsExactly inferred.ranges inferred.facts
          final.sets.get? indices accessedPoint relation := by
    refine ⟨_, _, _, rfl, rfl, rfl, ?_, ?_, by decide⟩
    · change ∀ id ∈ ([⟨0⟩, ⟨6⟩, ⟨1⟩, ⟨2⟩, ⟨3⟩, ⟨4⟩, ⟨5⟩, ⟨7⟩] : List IterId), _
      simp only [List.forall_mem_cons]
      exact ⟨⟨42, ⟨_, rfl, rfl⟩, by decide, by decide⟩, ⟨7, ⟨_, rfl, rfl⟩, by decide, by decide⟩,
        ⟨4, ⟨_, rfl, rfl⟩, by decide, by decide⟩, ⟨3, ⟨_, rfl, rfl⟩, by decide, by decide⟩,
        ⟨35, ⟨_, rfl, rfl⟩, by decide, by decide⟩, ⟨2, ⟨_, rfl, rfl⟩, by decide, by decide⟩,
        ⟨3, ⟨_, rfl, rfl⟩, by decide, by decide⟩, ⟨4, ⟨_, rfl, rfl⟩, by decide, by decide⟩, by simp⟩
    · change ∀ leaf ∈ ([⟨4⟩, ⟨5⟩, ⟨7⟩] : List IterId), _
      simp only [List.forall_mem_cons]
      exact ⟨⟨_, rfl, ValueSet.has_point (Expr.isNumber_const rfl)⟩,
        ⟨_, rfl, ValueSet.has_between (Expr.isNumber_const rfl) (Expr.isNumber_const rfl)
          (by decide) (by decide)⟩,
        ⟨_, rfl, rfl, fun e he => ⟨1, Option.some.inj he ▸ Expr.isNumber_const rfl, by decide⟩,
          nofun⟩, by simp⟩
  obtain ⟨inferred, final, indices, hdown, hup, hindices, hinside, hhas, hexact⟩ := hrun
  obtain ⟨final', indices', hup', hindices', hcontains⟩ :=
    accessesUp_contains _ _ _ hseeds hdown hsets hleaves
  obtain rfl := Except.ok.inj (hup.symm.trans hup')
  obtain rfl := Except.ok.inj (hindices.symm.trans hindices')
  exact ⟨inferred, final, indices, hseeds, hdown, hup, hindices, hinside, hexact,
    hcontains accessedPoint hinside hhas hexact⟩

end Stage

end LoopNest
