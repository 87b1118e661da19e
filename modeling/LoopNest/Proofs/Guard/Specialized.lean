/-
# Bounds under a workload

A bound is proved under a workload by replacing the parameters by their values in the distance
that it is about and in all ranges, which are literal then. Nothing is known but these ranges.

So wherever the parameters have the values of the workload and the variables are inside their
ranges, a proved bound holds: the distance with the values put in has the value of the distance,
the set of every variable has the value of the variable, and the set that is found for the
distance has its value. The upper end of this set is below the extent.
-/

import LoopNest.Proofs.Expr.Substitute
import LoopNest.Proofs.Flow.Passes
import LoopNest.Proofs.Flow.Projection
import LoopNest.Proofs.Stage.IterMap
import LoopNest.Proofs.Stage.Operations
import LoopNest.Guard.Workload

namespace LoopNest

namespace Substitution

variable {values : List (Var × Int)} {assignment : Assignment} {v : Var} {replacement : Expr}

theorem ofValues_concat (values : List (Var × Int)) (param : Var) (value : Int) (v : Var) :
    ofValues (values ++ [(param, value)]) v =
      if v = param then some (.literal param.dtype value) else ofValues values v := by
  rw [ofValues, List.foldl_append]
  rfl

/-- What is put in for a parameter is one of its values. -/
theorem eq_literal_of_ofValues (h : ofValues values v = some replacement) :
    ∃ value, (v, value) ∈ values ∧ replacement = .literal v.dtype value := by
  induction values using List.reverseRecOn with
  | nil => cases h
  | append_singleton rest entry ih =>
      obtain ⟨param, value⟩ := entry
      rw [ofValues_concat] at h
      split at h
      · rename_i hsame
        subst hsame
        exact ⟨value, by simp, (Option.some.inj h).symm⟩
      · obtain ⟨value, hmem, hreplacement⟩ := ih h
        exact ⟨value, List.mem_append_left _ hmem, hreplacement⟩

/-- The values of parameters agree with an assignment that gives the parameters these values. -/
theorem agrees_ofValues (h : ∀ entry ∈ values, assignment entry.1 = some entry.2) :
    (ofValues values).Agrees assignment where
  formed v replacement hreplacement := by
    obtain ⟨value, -, rfl⟩ := eq_literal_of_ofValues hreplacement
    exact Expr.formed_literal _ _
  eval v replacement hreplacement x hx := by
    obtain ⟨value, hmem, rfl⟩ := eq_literal_of_ofValues hreplacement
    rw [Expr.eval_var, h (v, value) hmem] at hx
    rw [Expr.eval_literal_wrapped]
    exact hx

theorem isArithmetic_of_ofValues (h : ofValues values v = some replacement) :
    replacement.IsArithmetic := by
  obtain ⟨value, -, rfl⟩ := eq_literal_of_ofValues h
  trivial

theorem mentions_of_ofValues (h : ofValues values v = some replacement) (w : Var) :
    replacement.mentions w = false := by
  obtain ⟨value, -, rfl⟩ := eq_literal_of_ofValues h
  rfl

/-- Put values into a range and simplify what it becomes. -/
def specialize (replacements : Substitution) (facts : Facts) (range : Range) : Range :=
  ⟨facts.simplify (range.min.substitute replacements),
    facts.simplify (range.extent.substitute replacements)⟩

end Substitution

namespace Range

variable {range : Range} {replacements : Substitution} {assignment : Assignment}

/-- Put values into a range. -/
def substitute (range : Range) (replacements : Substitution) : Range :=
  ⟨range.min.substitute replacements, range.extent.substitute replacements⟩

/-- A range over parameters that is literal once these are replaced. -/
structure SettledBy (range : Range) (replacements : Substitution) : Prop where
  min_formed : range.min.Formed
  extent_formed : range.extent.Formed
  arithmetic : range.min.IsArithmetic
  closed : ∀ v, range.min.mentions v = true → (replacements v).isSome = true
  min_literal : (range.min.substitute replacements).isConst = true
  extent_literal : (range.extent.substitute replacements).isConst = true

/-- The literals that a range becomes have the values of its ends. -/
theorem SettledBy.spans (h : range.SettledBy replacements)
    (hagrees : replacements.Agrees assignment) :
    ∃ low extent, (range.substitute replacements).Spans low extent ∧
      (∀ m, range.min.eval assignment = .ok m → m = low) ∧
      ∀ n, range.extent.eval assignment = .ok n → n = extent := by
  have hmin := Expr.rebuilt_substitute hagrees h.min_formed
  have hextent := Expr.rebuilt_substitute hagrees h.extent_formed
  obtain ⟨low, hlow⟩ := Option.isSome_iff_exists.mp h.min_literal
  obtain ⟨extent, hliteral⟩ := Option.isSome_iff_exists.mp h.extent_literal
  refine ⟨low, extent, ⟨⟨hmin.formed, hlow⟩, hextent.formed, hliteral⟩, fun m hm => ?_,
    fun n hn => ?_⟩
  · exact Except.ok.inj ((hmin.eval m hm).symm.trans (Expr.eval_of_value? hmin.formed hlow))
  · exact Except.ok.inj ((hextent.eval n hn).symm.trans
      (Expr.eval_of_value? hextent.formed hliteral))

theorem specialize_of_spans {low extent : Int}
    (h : (range.substitute replacements).Spans low extent) (facts : Facts) :
    replacements.specialize facts range = range.substitute replacements :=
  congrArg₂ Range.mk (h.min.simplify_eq facts) (h.extent.simplify_eq facts)

end Range

/-- The distance of an index from the start of a range is below the extent. -/
def StaysBelow (assignment : Assignment) (index : Expr) (range : Range) : Prop :=
  ∀ x low extent, index.eval assignment = .ok x → range.min.eval assignment = .ok low →
    range.extent.eval assignment = .ok extent → x - low < extent

/-- A comparison that is true, of operands that keep their values when they are brought to one
type. -/
theorem Expr.lt_of_eval_lt {lhs rhs : Expr} {assignment : Assignment} {x y : Int}
    (hlhs : lhs.Formed) (hrhs : rhs.Formed)
    (hx : (lhs.promote rhs).1.eval assignment = .ok x)
    (hy : (lhs.promote rhs).2.eval assignment = .ok y)
    (h : (lhs.lt rhs).eval assignment = .ok 1) : x < y := by
  obtain ⟨hleft, hright⟩ := formed_promote hlhs hrhs
  have hnode : (binary .lt (lhs.promote rhs).1 (lhs.promote rhs).2).eval assignment = _ :=
    eval_binary_of_eval hx hy rfl
  have hvalue := eval_combine hleft hright (dtype_promote lhs rhs)
    (fun hlogical => by cases hlogical) hnode
  rw [combine_promote, ← lt, h, Except.ok.injEq] at hvalue
  by_contra hge
  rw [decide_eq_false hge] at hvalue
  cases hvalue

namespace Stage

variable {stage : Stage} {ranges : IterMap Range} {indices : IterMap Expr} {known : RangedFacts}
  {transform : Facts → Range → Range} {workload : List (Var × Int)} {assignment : Assignment}
  {index : Expr} {range : Range}

/-- The set of a variable is the range that one of the loops with this variable got. -/
def SetsFromRanges (stage : Stage) (ranges : IterMap Range) (transform : Facts → Range → Range)
    (known : RangedFacts) : Prop :=
  ∀ v set, known.domains v = some set → ∃ id range iv facts, ranges.get? id = some range ∧
    stage.iterVar? id = some iv ∧ iv.var = v ∧ set = .ofRange (transform facts range)

/-- Whatever is done to the ranges, nothing is assumed, and the variables that have ranges are
those that have sets. -/
theorem rangedFacts_inv (h : stage.rangedFacts ranges transform = .ok known) :
    known.facts.constraints = [] ∧ stage.SetsFromRanges ranges transform known ∧
      ∀ id range iv, ranges.get? id = some range → stage.iterVar? id = some iv →
        (known.domains iv.var).isSome = true := by
  have hstep : ∀ known : RangedFacts, ∀ entry ∈ ranges.toList, ∀ next,
      (do
        let iv ← stage.iterVar entry.1
        return known.insert iv.var (transform known.facts entry.2)) =
          (Except.ok next : Except StageError RangedFacts) →
      known.facts.constraints = [] ∧ stage.SetsFromRanges ranges transform known →
      (next.facts.constraints = [] ∧ stage.SetsFromRanges ranges transform next) ∧
        (∀ iv, stage.iterVar? entry.1 = some iv → (next.domains iv.var).isSome = true) ∧
        ∀ other : IterId × Range,
          (∀ iv, stage.iterVar? other.1 = some iv → (known.domains iv.var).isSome = true) →
          ∀ iv, stage.iterVar? other.1 = some iv → (next.domains iv.var).isSome = true := by
    rintro known ⟨id, range⟩ hentry next hnext ⟨hfree, hsets⟩
    obtain ⟨iv, hiv, hinsert⟩ := bind_eq_ok.mp hnext
    obtain rfl := Except.ok.inj hinsert
    replace hiv := iterVar?_eq_some hiv
    have hkept : ∀ v, (known.domains v).isSome = true →
        ((known.insert iv.var (transform known.facts range)).domains v).isSome = true := by
      intro v hv
      simp only [RangedFacts.insert, Domains.insert]
      split
      · rfl
      · exact hv
    refine ⟨⟨hfree, fun v set hset => ?_⟩, fun other hother => ?_,
      fun _ hsome iv hiv => hkept _ (hsome iv hiv)⟩
    · simp only [RangedFacts.insert, Domains.insert] at hset
      split at hset
      · rename_i hsame
        exact ⟨id, range, iv, known.facts, IterMap.mem_toList.mp hentry, hiv, hsame.symm,
          (Option.some.inj hset).symm⟩
      · exact hsets v set hset
    · rw [← Option.some.inj (hiv.symm.trans hother)]
      simp [RangedFacts.insert, Domains.insert]
  obtain ⟨⟨hfree, hsets⟩, hsettled, -⟩ := foldlM_settles _ _ hstep h ⟨rfl, nofun⟩
  exact ⟨hfree, hsets, fun id range iv hrange hiv =>
    hsettled (id, range) (IterMap.mem_toList.mpr hrange) iv hiv⟩

/-- The parameters have the values of a workload, and every variable with a range is inside. -/
structure AtWorkload (stage : Stage) (ranges : IterMap Range) (workload : List (Var × Int))
    (assignment : Assignment) : Prop where
  params : ∀ entry ∈ workload, assignment entry.1 = some entry.2
  inside : ∀ id range iv, ranges.get? id = some range → stage.iterVar? id = some iv →
    ∃ x low extent, (Expr.var iv.var).eval assignment = .ok x ∧
      range.min.eval assignment = .ok low ∧ range.extent.eval assignment = .ok extent ∧
      low ≤ x ∧ x < low + extent

/-- An index is arithmetic and mentions only parameters of a workload and variables that have
ranges. -/
structure IsIndexUnder (stage : Stage) (ranges : IterMap Range) (workload : List (Var × Int))
    (index : Expr) : Prop where
  formed : index.Formed
  arithmetic : index.IsArithmetic
  closed : ∀ v, index.mentions v = true → (Substitution.ofValues workload v).isSome = true ∨
    ∃ id range iv, ranges.get? id = some range ∧ stage.iterVar? id = some iv ∧ iv.var = v

/-- The variable of a loop that has a range is an index. -/
theorem isIndexUnder_expr {id : IterId} {iv : IterVar} (hiv : stage.iterVar? id = some iv)
    (hrange : ranges.get? id = some range) : stage.IsIndexUnder ranges workload iv.expr where
  formed := trivial
  arithmetic := trivial
  closed _ hv := .inr ⟨id, range, iv, hrange, hiv, of_decide_eq_true hv⟩

theorem isIndexUnder_const {dtype : DType} {value : Int} (h : dtype.contains value = true) :
    stage.IsIndexUnder ranges workload (.const dtype value) where
  formed := h
  arithmetic := trivial
  closed _ hv := by cases hv

/-- Arithmetic operators make indices of indices. -/
theorem IsIndexUnder.combine {op : BinaryOp} {lhs rhs : Expr} (hop : op.isPredicate = false)
    (hlhs : stage.IsIndexUnder ranges workload lhs)
    (hrhs : stage.IsIndexUnder ranges workload rhs) :
    stage.IsIndexUnder ranges workload (Expr.combine op lhs rhs) where
  formed := Expr.formed_combine hlhs.formed hrhs.formed fun hlogical =>
    absurd hlogical (BinaryOp.not_isLogical hop)
  arithmetic := Expr.isArithmetic_combine hop hlhs.arithmetic hrhs.arithmetic
  closed v hv := by
    by_cases hleft : lhs.mentions v = true
    · exact hlhs.closed v hleft
    · refine hrhs.closed v ?_
      by_contra hright
      rw [Expr.mentions_combine (by simpa using hleft) (by simpa using hright)] at hv
      cases hv

/-- Once the parameters have their values, only variables with ranges are left in the distance
of an index from the start of a range. -/
theorem IsIndexUnder.ranged_of_mentions (h : stage.IsIndexUnder ranges workload index)
    (hrange : range.SettledBy (.ofValues workload)) {v : Var}
    (hv : ((index.sub range.min).substitute (.ofValues workload)).mentions v = true) :
    ∃ id range iv, ranges.get? id = some range ∧ stage.iterVar? id = some iv ∧ iv.var = v := by
  have hgone : ∀ {e : Expr}, (e.substitute (.ofValues workload)).mentions v = true →
      e.mentions v = true ∧ (Substitution.ofValues workload v).isSome = false := by
    intro e he
    by_contra hnot
    rw [Expr.mentions_substitute (fun _ _ => Substitution.mentions_of_ofValues)] at he
    · cases he
    · rw [not_and_or, Bool.not_eq_true, Bool.not_eq_false] at hnot
      exact hnot
  obtain ⟨hdistance, hkept⟩ := hgone hv
  refine (h.closed v ?_).resolve_left (by rw [hkept]; exact Bool.false_ne_true)
  by_contra hindex
  have hmin : range.min.mentions v = false := by
    by_contra hmin
    rw [hrange.closed v (by simpa using hmin)] at hkept
    cases hkept
  rw [Expr.sub, Expr.mentions_combine (by simpa using hindex) hmin] at hdistance
  cases hdistance

/-- Nothing wraps where the distance of an index from the start of a range is computed and
compared with the extent, and no literal is cut off there to fit the other operand. Nothing wraps
either where the distance is analysed under a workload, neither a value nor an end of a set. -/
structure ExactUnder (stage : Stage) (ranges : IterMap Range) (workload : List (Var × Int))
    (assignment : Assignment) (index : Expr) (range : Range) : Prop where
  distance : ∀ x low, index.eval assignment = .ok x → range.min.eval assignment = .ok low →
    (index.sub range.min).eval assignment = .ok (x - low)
  compared : ∀ d extent, (index.sub range.min).eval assignment = .ok d →
    range.extent.eval assignment = .ok extent →
      ((index.sub range.min).promote range.extent).1.eval assignment = .ok d ∧
        ((index.sub range.min).promote range.extent).2.eval assignment = .ok extent
  wrapless : ((index.sub range.min).substitute (.ofValues workload)).Wrapless assignment
  lasts : ∀ id other, ranges.get? id = some other →
    Expr.AllExact (other.substitute (.ofValues workload)).lastSums
  ends : ∀ known, stage.rangedFacts ranges (Substitution.ofValues workload).specialize = .ok known →
    known.facts.EndsExact known.domains ((index.sub range.min).substitute (.ofValues workload))

section Workload

variable (hsettled : ∀ id range, ranges.get? id = some range →
  range.SettledBy (.ofValues workload))
variable (hat : stage.AtWorkload ranges workload assignment)
variable (hindex : stage.IsIndexUnder ranges workload index)
variable (hrange : range.SettledBy (.ofValues workload))
variable (hexact : stage.ExactUnder ranges workload assignment index range)
include hsettled hat hexact

/-- Under a workload the set of every variable has the value of the variable. -/
theorem AtWorkload.hold
    (hknown : stage.rangedFacts ranges (Substitution.ofValues workload).specialize = .ok known)
    {e : Expr} (hclosed : ∀ v, e.mentions v = true →
      ∃ id range iv, ranges.get? id = some range ∧ stage.iterVar? id = some iv ∧ iv.var = v) :
    known.domains.Hold assignment e := by
  obtain ⟨-, hsets, hsome⟩ := rangedFacts_inv hknown
  intro v hv x hx
  obtain ⟨id, range, iv, hrange, hiv, rfl⟩ := hclosed v hv
  obtain ⟨set, hset⟩ := Option.isSome_iff_exists.mp (hsome id range iv hrange hiv)
  obtain ⟨id', range', iv', facts, hrange', hiv', hvar, rfl⟩ := hsets _ set hset
  obtain ⟨low, extent, hspans, hlow, hextent⟩ :=
    (hsettled id' range' hrange').spans (Substitution.agrees_ofValues hat.params)
  obtain ⟨x', low', extent', hx', hlow', hextent', hle, hlt⟩ :=
    hat.inside id' range' iv' hrange' hiv'
  rw [hvar, hx, Except.ok.injEq] at hx'
  obtain rfl := hlow low' hlow'
  obtain rfl := hextent extent' hextent'
  refine ⟨_, hset, ?_⟩
  rw [Range.specialize_of_spans hspans]
  exact hspans.ofRange_has (hexact.lasts id' range' hrange') (by omega) (by omega)

include hindex hrange

/-- A bound that is proved under a workload holds where the parameters have its values. -/
theorem staysBelow_of_belowUnderWorkload
    (hbelow : stage.belowUnderWorkload ranges (index.sub range.min) range.extent workload =
      .ok true) : StaysBelow assignment index range := by
  intro x low extent hx hlow hextent
  obtain ⟨known, hknown, hproof⟩ := bind_eq_ok.mp hbelow
  have hagrees := Substitution.agrees_ofValues hat.params
  have hformed : (index.sub range.min).Formed :=
    Expr.formed_combine hindex.formed hrange.min_formed (fun hlogical => by cases hlogical)
  have hrebuilt := Expr.rebuilt_substitute hagrees hformed
  have hfree := Facts.consistent_of_unconstrained (rangedFacts_inv hknown).1
  obtain ⟨_, limit, hspans, -, hlimit⟩ := hrange.spans hagrees
  obtain rfl := hlimit extent hextent
  have hhas : (known.facts.values _ known.domains).Has (x - low) :=
    Facts.values_has hfree (hat.hold hsettled hexact hknown fun v hv => ?_) hrebuilt.formed
      (Expr.isArithmetic_substitute (fun _ _ => Substitution.isArithmetic_of_ofValues)
        (Expr.isArithmetic_combine rfl hindex.arithmetic hrange.arithmetic))
      hexact.wrapless (hexact.ends known hknown) (hrebuilt.eval _ (hexact.distance x low hx hlow))
  · split at hproof
    · rename_i greatest hgreatest
      obtain ⟨upper, hupper, hle⟩ := hhas.high greatest hgreatest
      have hnumber : (range.extent.substitute (.ofValues workload)).IsNumber extent :=
        hspans.extent
      have hproves := Except.ok.inj hproof
      rw [hnumber.simplify_eq, Facts.proves_lt_number hfree hupper hnumber,
        decide_eq_true_eq] at hproves
      omega
    · cases hproof
  · exact hindex.ranged_of_mentions hrange hv

end Workload

/-- What is below an extent under all workloads is below it under each. -/
theorem belowUnderWorkload_of_mem {value extent : Expr} {workloads : List (List (Var × Int))}
    (h : stage.belowUnderWorkloads ranges value extent workloads = .ok true)
    (hmem : workload ∈ workloads) :
    stage.belowUnderWorkload ranges value extent workload = .ok true := by
  induction workloads with
  | nil => cases hmem
  | cons first rest ih =>
      obtain ⟨holds, hfirst, hrest⟩ := bind_eq_ok.mp h
      cases holds with
      | false => cases hrest
      | true =>
          rcases List.mem_cons.mp hmem with rfl | hmem
          · exact hfirst
          · exact ih hrest hmem

end Stage

end LoopNest
