/-
# Constant bounds are sound

The bound of an expression is built on the bounds of its variables, and these are
built on the bounds of the expressions that ranges and constraints mention, one
level less deep. So soundness is an induction over the structure of expressions
inside an induction over the depth, and neither has to know whether the ranges
refer to each other in a cycle.

The upper end of a range is read off its last member, an expression that is never
evaluated and may wrap. What saves it is that a literal which wraps becomes the
greatest value of its type, while anything else is bounded through its operands.
-/

import LoopNest.Facts.Simplify
import LoopNest.Proofs.Bound.Operator
import LoopNest.Proofs.Expr.Exact
import LoopNest.Proofs.Expr.Fold

namespace LoopNest

open Endpoint (IsFinite negInf posInf)

namespace DType

/-- A type holds the values of every type that promotes to it. -/
theorem contains_of_promotesTo {source target : DType} (h : source.promotesTo target = true)
    {value : Int} (hvalue : source.contains value = true) : target.contains value = true := by
  have hends : target.minValue ≤ source.minValue ∧ source.maxValue ≤ target.maxValue := by
    revert h
    cases source <;> cases target <;> decide
  rw [contains_iff] at hvalue ⊢
  exact ⟨hends.1.trans hvalue.1, hvalue.2.trans hends.2⟩

/-- The type in which two operands meet holds the values of the left one. -/
theorem contains_join_left {left : DType} {value : Int} (h : left.contains value = true)
    (right : DType) : (left.join right).contains value = true := by
  refine contains_of_promotesTo ?_ h
  cases left <;> cases right <;> decide

/-- One less than a value of a type either stays in the type or wraps to its greatest value. -/
theorem le_truncate_sub_one {dtype : DType} {x value : Int} (h : dtype.contains value = true)
    (hlt : x < value) : x ≤ dtype.truncate (value - 1) := by
  by_cases hcontains : dtype.contains (value - 1) = true
  · rw [truncate_of_contains hcontains]
    omega
  · have hleast : value = dtype.minValue := by
      rw [contains_iff] at h hcontains
      omega
    have hwrap : dtype.truncate (dtype.minValue - 1) = dtype.maxValue := by
      cases dtype <;> decide
    rw [contains_iff] at h
    rw [hleast, hwrap]
    omega

end DType

namespace Expr

/-- A literal one takes the type of a partner that is no literal. -/
theorem promote_one_of_value?_eq_none {e : Expr} (h : e.value? = none) (dtype : DType) :
    promote e (one dtype) = (e, one e.dtype) := by
  by_cases hsame : e.dtype = dtype
  · rw [promote_of_dtype_eq hsame, hsame]
  · have hother : ¬(one dtype).dtype = e.dtype := fun heq => hsame heq.symm
    have hone : (one dtype).castTo e.dtype = one e.dtype := by
      rw [castTo, if_neg hother]
      simp [one, literal, value?]
    rw [promote, if_neg (Ne.symm hother), show e.isConst = false by simp [isConst, h], ← hone]
    rfl

/-- A literal meets one in a type that holds it. -/
theorem promote_one_of_const {source : DType} {value : Int} (h : source.contains value = true)
    (dtype : DType) :
    ∃ common : DType, common.contains value = true ∧
      promote (const source value) (one dtype) = (const common value, one common) := by
  by_cases hsame : source = dtype
  · subst hsame
    exact ⟨source, h, promote_of_dtype_eq rfl⟩
  · have hjoin := DType.contains_join_left h dtype
    refine ⟨source.join dtype, hjoin, ?_⟩
    have hone : (one dtype).castTo (source.join dtype) = one (source.join dtype) := by
      by_cases hdtype : dtype = source.join dtype
      · simp [castTo, one, literal, Expr.dtype, ← hdtype]
      · simp [castTo, one, literal, Expr.dtype, value?, hdtype]
    have hvalue : (const source value).castTo (source.join dtype) =
        const (source.join dtype) value := by
      by_cases hdtype : source = source.join dtype
      · simp [castTo, Expr.dtype, ← hdtype]
      · simp [castTo, literal, Expr.dtype, value?, hdtype, DType.truncate_of_contains hjoin]
    simp only [promote, Expr.dtype, hsame, if_false, isConst, value?, Option.isSome, one, literal]
    exact Prod.ext hvalue hone

@[simp] theorem value?_one (dtype : DType) : (one dtype).value? = some 1 := by
  simp [one, literal, value?]

/-- One less than an expression that is no literal stays as it is written. -/
theorem foldNode_sub_one_of_value?_eq_none {e : Expr} (h : e.value? = none) (dtype : DType) :
    foldNode .sub e (one dtype) = binary .sub e (one dtype) := by
  simp [foldNode, foldLiterals?, h, foldNeutral?, isZero, keepOffsetPositive, oppositeOffset?]

/-- One less than a literal is a literal, which may wrap. -/
theorem foldNode_sub_one_of_const (dtype : DType) (value : Int) :
    foldNode .sub (const dtype value) (one dtype) = literal dtype (value - 1) := by
  simp [foldNode, foldLiterals?, show (const dtype value).value? = some value from rfl,
    BinaryOp.compute?, resultType, BinaryOp.isPredicate, BinaryOp.isComparison,
    BinaryOp.isLogical, Expr.dtype]

end Expr

namespace Bound

variable {assignment : Assignment} {ofVar : Var → Bound} {bound : Bound} {value x : Int}

/-- A cast bound admits the cast value, narrowed or not. -/
theorem admits_ofCast (dtype : DType) (h : bound.Admits x) :
    (ofCast dtype bound).Admits (dtype.truncate x) := by
  unfold ofCast
  split
  · rename_i hencloses
    rw [encloses, Bool.and_eq_true, decide_eq_true_iff, decide_eq_true_iff] at hencloses
    rw [DType.truncate_of_contains]
    · exact h
    · exact DType.contains_iff.mpr
        ⟨hencloses.1.trans h.lower, h.upper.trans hencloses.2⟩
  · exact admits_ofDType (DType.contains_truncate _ _)

/-- The bound of an expression admits its value, as soon as the bounds of the
variables do. -/
theorem ofExpr_admits
    (hvars : ∀ v x, (Expr.var v).eval assignment = .ok x → IsFinite x → (ofVar v).Admits x)
    {e : Expr} (hformed : e.Formed) (hexact : e.Exact assignment)
    (h : e.eval assignment = .ok value) : (ofExpr ofVar e).Admits value := by
  induction e generalizing value with
  | const dtype literal =>
      rw [Expr.eval_const_of_contains hformed, Except.ok.injEq] at h
      rw [← h]
      exact admits_point hexact
  | var v =>
      exact (hvars v value h (hexact value h)).intersect (admits_ofDType (Expr.eval_contains h))
  | cast dtype source ih =>
      obtain ⟨inner, hinner, rfl⟩ := Expr.eval_cast_inv h
      exact (admits_ofCast dtype (ih hformed hexact hinner)).intersect
        (admits_ofDType (DType.contains_truncate _ _))
  | neg operand ih =>
      obtain ⟨hoperand, hinner, hfinite⟩ := hexact.eval_neg h
      rw [← neg_neg value] at hfinite ⊢
      obtain ⟨hlower, hupper⟩ := negate_encloses (ih hformed hoperand hinner) hfinite
      refine admits_intersect_ofDType hlower hupper hfinite ?_
      rw [neg_neg]
      exact Expr.eval_contains (e := .neg operand) h
  | not operand ih =>
      obtain ⟨inner, hinner, rfl⟩ := Expr.eval_not_inv h
      obtain ⟨hlower, hupper⟩ := complement_encloses (ih hformed hexact hinner)
      exact admits_intersect_ofDType hlower hupper (isFinite_truth _) (Expr.eval_contains h)
  | binary op lhs rhs ihl ihr =>
      obtain ⟨hlhs, hrhs, hsame, hbool⟩ := hformed
      have hnonneg : ∀ {e : Expr} {x : Int}, e.dtype = .bool → e.eval assignment = .ok x → 0 ≤ x :=
        fun hdtype heval => (DType.contains_iff.mp (hdtype ▸ Expr.eval_contains heval)).1
      obtain ⟨left, hleft, hdecided | ⟨hopen, right, result, hright, hresult, heq⟩⟩ :=
        Expr.eval_binary_inv h
      · have hlogical := BinaryOp.isLogical_of_decidedBy? hdecided
        obtain ⟨hlower, hupper⟩ := ofOperator_encloses_of_decidedBy? (ihl hlhs hexact.1 hleft)
          (ofExpr ofVar rhs) (hnonneg (hbool hlogical) hleft) hdecided
        have htruth := BinaryOp.compute?_predicate (BinaryOp.isPredicate_of_isLogical hlogical)
          (BinaryOp.compute?_of_decidedBy? hdecided 0)
        refine admits_intersect_ofDType hlower hupper ?_ (Expr.eval_contains h)
        rcases htruth with rfl | rfl <;> decide
      · obtain ⟨hexact', rfl, hfinite⟩ := hexact.eval_operands hleft hopen hright hresult heq
        obtain ⟨hlower, hupper⟩ := ofOperator_encloses (ihl hlhs hexact.1 hleft)
          (ihr hrhs hexact' hright)
          (fun hlogical => ⟨hnonneg (hbool hlogical) hleft,
            hnonneg (hsame ▸ hbool hlogical) hright⟩) hresult hfinite
        exact admits_intersect_ofDType hlower hupper hfinite (Expr.eval_contains h)

/-- Tightening by a bound that encloses a finite value keeps the value admitted. -/
theorem Admits.tighten (h : bound.Admits x) (hfinite : IsFinite x) {other : Option Bound}
    (hother : ∀ found ∈ other, found.min ≤ x ∧ x ≤ found.max) :
    (bound.tighten other).Admits x := by
  cases other with
  | none => exact h
  | some found =>
      obtain ⟨hlower, hupper⟩ := hother found rfl
      exact
        { lower := max_le h.lower hlower
          upper := le_min h.upper hupper
          min_lt := max_lt h.min_lt (hlower.trans_lt hfinite.2)
          lt_max := lt_min h.lt_max (hfinite.1.trans_le hupper)
          least_le := h.least_le.trans (le_max_left _ _)
          le_greatest := (min_le_left _ _).trans h.le_greatest }

/-- Tightening by several bounds, one for each entry of a list. -/
theorem Admits.foldl_tighten {source : Type} {entries : List source} {other : source → Option Bound}
    (h : bound.Admits x) (hfinite : IsFinite x)
    (hother : ∀ entry ∈ entries, ∀ found ∈ other entry, found.min ≤ x ∧ x ≤ found.max) :
    (entries.foldl (fun bound entry => bound.tighten (other entry)) bound).Admits x := by
  induction entries generalizing bound with
  | nil => exact h
  | cons entry rest ih =>
      exact ih (h.tighten hfinite (hother entry List.mem_cons_self))
        fun later hlater => hother later (List.mem_cons_of_mem _ hlater)

/-- The bound of the last member of a range lies above every member. -/
theorem le_ofExpr_last {range : Range} (hmin : range.min.Formed) (hextent : range.extent.Formed)
    {stop : Int} (hstop : range.stop.eval assignment = .ok stop)
    (hadmits : (ofExpr ofVar range.stop).Admits stop) (hfinite : IsFinite x) (hlt : x < stop) :
    x ≤ (ofExpr ofVar range.last).max := by
  have hformed : range.stop.Formed := Expr.formed_combine hmin hextent (by simp [BinaryOp.isLogical])
  rw [Range.last, Expr.sub, Expr.combine]
  cases hvalue : range.stop.value? with
  | none =>
      rw [Expr.promote_one_of_value?_eq_none hvalue]
      rw [Expr.foldNode_sub_one_of_value?_eq_none hvalue]
      refine le_min ?_ (hlt.le.trans (DType.contains_iff.mp (Expr.eval_contains hstop)).2)
      have hone : (ofExpr ofVar (.one range.stop.dtype)) = point 1 := by
        simp [Expr.one, Expr.literal, ofExpr]
      have hsum : x + 1 - 1 = x := by omega
      have hle : x + 1 - 1 ≤ Endpoint.add (ofExpr ofVar range.stop).max (Endpoint.neg 1) :=
        Endpoint.le_sub ((by omega : x + 1 ≤ stop).trans hadmits.upper) le_rfl hadmits.lt_max
          (by decide) (hsum.symm ▸ hfinite)
      rw [hsum] at hle
      simpa [ofOperator, hone, point] using hle
  | some literal =>
      have hliteral : literal = stop :=
        Except.ok.inj ((Expr.eval_of_value? hformed hvalue).symm.trans hstop)
      subst hliteral
      rw [Expr.eq_const_of_value? hvalue] at hformed ⊢
      obtain ⟨common, hcommon, hpromote⟩ :=
        Expr.promote_one_of_const hformed range.extent.dtype
      rw [hpromote, Expr.foldNode_sub_one_of_const]
      exact DType.le_truncate_sub_one hcommon hlt

/-- What two optional bounds say together encloses what both enclose. -/
theorem both?_encloses {left right : Option Bound}
    (hleft : ∀ found ∈ left, found.min ≤ x ∧ x ≤ found.max)
    (hright : ∀ found ∈ right, found.min ≤ x ∧ x ≤ found.max) :
    ∀ found ∈ both? left right, found.min ≤ x ∧ x ≤ found.max := by
  cases left with
  | none => exact hright
  | some first =>
      cases right with
      | none => exact hleft
      | some second =>
          obtain ⟨hlower, hupper⟩ := hleft first rfl
          obtain ⟨hlower', hupper'⟩ := hright second rfl
          intro found hfound
          rw [← Option.some.inj hfound]
          exact ⟨max_le hlower hlower', le_min hupper hupper'⟩

/-- The bare variable of a comparison stands on the left or on the right. -/
theorem eq_of_mem_sides {first second : Bool} {onLeft onRight found : Bound}
    (h : found ∈ if first then some onLeft else if second then some onRight else none) :
    first = true ∧ found = onLeft ∨ second = true ∧ found = onRight := by
  split at h
  · exact .inl ⟨‹_›, (Option.some.inj h).symm⟩
  · split at h
    · exact .inr ⟨‹_›, (Option.some.inj h).symm⟩
    · cases h

/-- A constraint that holds bounds the variable that it compares. A strict
comparison moves the other side by one, which cannot pass the finite value. -/
theorem implied?_encloses {ofOther : Expr → Bound}
    (hother : ∀ {e : Expr} {y : Int}, e.Formed → e.Exact assignment →
      e.eval assignment = .ok y → (ofOther e).Admits y)
    {v : Var} (hv : (Expr.var v).eval assignment = .ok x) (hfinite : IsFinite x)
    {constraint : Expr} (hformed : constraint.Formed) (hexact : constraint.Exact assignment)
    (hvalue : constraint.eval assignment = .ok value) (hne : value ≠ 0) :
    ∀ found ∈ implied? ofOther v constraint, found.min ≤ x ∧ x ≤ found.max := by
  have hlow : negInf ≤ x := ((by decide : negInf < -posInf).trans hfinite.1).le
  have hhigh : x ≤ posInf := hfinite.2.le
  have hbare : ∀ {e : Expr} {y : Int} {absent : Bool}, (e.var? = some v && absent) = true →
      e.eval assignment = .ok y → y = x := fun {e y absent} hvar heval => by
    simp only [Bool.and_eq_true, decide_eq_true_eq] at hvar
    cases e <;> simp only [Expr.var?, Option.some.injEq, reduceCtorEq, false_and] at hvar
    exact Except.ok.inj (heval.symm.trans (hvar.1 ▸ hv))
  induction constraint generalizing value with
  | binary op lhs rhs ihl ihr =>
      obtain ⟨hlhs, hrhs, hsame, hbool⟩ := hformed
      cases op with
      | and =>
          obtain ⟨-, rfl⟩ | ⟨hleft, hright⟩ := Expr.eval_and_inv (hbool rfl) hsame hvalue
          · exact absurd rfl hne
          · exact both?_encloses (ihl hlhs hexact.1 hleft one_ne_zero)
              (ihr hrhs (hexact.2 1 hleft rfl).1 hright hne)
      | lt =>
          obtain ⟨left, right, hleft, hright, hexact', hresult, -⟩ := hexact.eval_binary rfl hvalue
          have hlt : left < right := by
            rw [← Option.some.inj hresult] at hne
            simpa using hne
          intro found hfound
          rcases eq_of_mem_sides hfound with ⟨hvar, rfl⟩ | ⟨hvar, rfl⟩
          · obtain rfl := hbare hvar hleft
            have hadmits := hother hrhs hexact' hright
            have hle := Endpoint.le_add (x := left + 1) (y := -1) (hlt.trans_le hadmits.upper)
              le_rfl hadmits.lt_max (by decide) (by simpa using hfinite)
            rw [Int.add_neg_cancel_right] at hle
            exact ⟨hlow, hle⟩
          · obtain rfl := hbare hvar hright
            have hadmits := hother hlhs hexact.1 hleft
            have hle := Endpoint.add_le (x := right - 1) (y := 1)
              (hadmits.lower.trans (Int.le_sub_one_of_lt hlt)) le_rfl hadmits.min_lt (by decide)
              (by simpa using hfinite)
            rw [Int.sub_add_cancel] at hle
            exact ⟨hle, hhigh⟩
      | le =>
          obtain ⟨left, right, hleft, hright, hexact', hresult, -⟩ := hexact.eval_binary rfl hvalue
          have hle : left ≤ right := by
            rw [← Option.some.inj hresult] at hne
            simpa using hne
          intro found hfound
          rcases eq_of_mem_sides hfound with ⟨hvar, rfl⟩ | ⟨hvar, rfl⟩
          · obtain rfl := hbare hvar hleft
            exact ⟨hlow, hle.trans (hother hrhs hexact' hright).upper⟩
          · obtain rfl := hbare hvar hright
            exact ⟨(hother hlhs hexact.1 hleft).lower.trans hle, hhigh⟩
      | eq =>
          obtain ⟨left, right, hleft, hright, hexact', hresult, -⟩ := hexact.eval_binary rfl hvalue
          have heq : left = right := by
            rw [← Option.some.inj hresult] at hne
            simpa using hne
          subst heq
          intro found hfound
          rcases eq_of_mem_sides hfound with ⟨hvar, rfl⟩ | ⟨hvar, rfl⟩
          · obtain rfl := hbare hvar hleft
            exact ⟨(hother hrhs hexact' hright).lower, (hother hrhs hexact' hright).upper⟩
          · obtain rfl := hbare hvar hright
            exact ⟨(hother hlhs hexact.1 hleft).lower, (hother hlhs hexact.1 hleft).upper⟩
      | _ => simp [implied?]
  | _ => simp [implied?]

end Bound

namespace Range

/-- Both the minimum and the extent are formed. -/
structure Formed (range : Range) : Prop where
  min : range.min.Formed
  extent : range.extent.Formed

/-- Both ends are exact at an assignment. -/
structure Exact (range : Range) (assignment : Assignment) : Prop where
  min : range.min.Exact assignment
  stop : range.stop.Exact assignment

/-- Both ends have values, and a given value lies in the range that they delimit. -/
def Holds (range : Range) (assignment : Assignment) (value : Int) : Prop :=
  ∃ low stop, range.min.eval assignment = .ok low ∧ range.stop.eval assignment = .ok stop ∧
    low ≤ value ∧ value < stop

end Range

/-- A constraint says nothing about any variable, whatever is known about the others. -/
def Expr.Inert (constraint : Expr) : Prop :=
  ∀ ofOther v, Bound.implied? ofOther v constraint = none

/-- A formed predicate that is exact and true at an assignment. -/
structure Expr.HoldsExactly (predicate : Expr) (assignment : Assignment) : Prop where
  formed : predicate.Formed
  exact : predicate.Exact assignment
  true : ∃ value, predicate.eval assignment = .ok value ∧ value ≠ 0

namespace Facts

variable {facts : Facts} {assignment : Assignment} {x value : Int}

/-- Every variable that has both a value and a range lies in the range, whose ends are
formed and exact. -/
def RangesHold (facts : Facts) (assignment : Assignment) : Prop :=
  ∀ v range x, facts.ranges v = some range → (Expr.var v).eval assignment = .ok x →
    range.Formed ∧ range.Exact assignment ∧ range.Holds assignment x

/-- An assignment respects facts when the ranges hold and every constraint that can
bound a variable is true. All of this has to be exact, because the bounds are. -/
structure Respects (facts : Facts) (assignment : Assignment) : Prop where
  ranges : facts.RangesHold assignment
  constraints : ∀ constraint ∈ facts.constraints,
    constraint.Inert ∨ constraint.HoldsExactly assignment

/-- However deep ranges and constraints are followed, the bound of a variable admits
its value. -/
theorem Respects.varBound_admits (h : facts.Respects assignment) (depth : Nat) {v : Var}
    (hv : (Expr.var v).eval assignment = .ok x) (hfinite : IsFinite x) :
    (facts.varBound depth v).Admits x := by
  induction depth generalizing v x with
  | zero => exact Bound.admits_ofDType (Expr.eval_contains hv)
  | succ depth ih =>
      have hother : ∀ {e : Expr} {y : Int}, e.Formed → e.Exact assignment →
          e.eval assignment = .ok y → (Bound.ofExpr (facts.varBound depth) e).Admits y :=
        Bound.ofExpr_admits fun _ _ => ih
      have hranged : ((Bound.ofDType v.dtype).tighten ((facts.ranges v).map
          (Bound.ofRange (Bound.ofExpr (facts.varBound depth))))).Admits x := by
        refine (Bound.admits_ofDType (Expr.eval_contains hv)).tighten hfinite ?_
        intro found hfound
        obtain ⟨range, hrange, rfl⟩ := Option.mem_map.mp hfound
        obtain ⟨hformed, hexact, low, stop, hlow, hstop, hle, hlt⟩ := h.ranges v range x hrange hv
        have hstop' : range.stop.Formed :=
          Expr.formed_combine hformed.min hformed.extent (by simp [BinaryOp.isLogical])
        exact ⟨(hother hformed.min hexact.min hlow).lower.trans hle,
          Bound.le_ofExpr_last hformed.min hformed.extent hstop
            (hother hstop' hexact.stop hstop) hfinite hlt⟩
      refine hranged.foldl_tighten hfinite fun constraint hconstraint => ?_
      rcases h.constraints constraint hconstraint with hinert | hholds
      · simp [hinert _ v]
      · obtain ⟨truth, htruth, hne⟩ := hholds.true
        exact Bound.implied?_encloses hother hv hfinite hholds.formed hholds.exact htruth hne

/-- The constant bound of an expression admits its value. -/
theorem Respects.bound_admits (h : facts.Respects assignment) {e : Expr} (hformed : e.Formed)
    (hexact : e.Exact assignment) (hvalue : e.eval assignment = .ok value) :
    (facts.bound e).Admits value :=
  Bound.ofExpr_admits (fun _ _ => h.varBound_admits followDepth) hformed hexact hvalue

/-- Every range and every constraint is formed. -/
structure Formed (facts : Facts) : Prop where
  ranges : ∀ v range, facts.ranges v = some range → range.Formed
  constraints : ∀ constraint ∈ facts.constraints, constraint.Formed

/-- Every variable with a value lies in its range and every constraint is true. -/
structure HoldAt (facts : Facts) (assignment : Assignment) : Prop where
  ranges : ∀ v range, facts.ranges v = some range →
    (Expr.var v).IfValue assignment (range.Holds assignment)
  constraints : ∀ constraint ∈ facts.constraints,
    ∃ value, constraint.eval assignment = .ok value ∧ value ≠ 0

/-- Every range and every constraint is exact. -/
structure ExactAt (facts : Facts) (assignment : Assignment) : Prop where
  ranges : ∀ v range, facts.ranges v = some range → range.Exact assignment
  constraints : ∀ constraint ∈ facts.constraints, constraint.Exact assignment

/-- Facts that hold exactly are respected. -/
theorem HoldAt.respects (hholds : facts.HoldAt assignment) (hformed : facts.Formed)
    (hexact : facts.ExactAt assignment) : facts.Respects assignment where
  ranges v range x hrange hv :=
    ⟨hformed.ranges v range hrange, hexact.ranges v range hrange, hholds.ranges v range hrange x hv⟩
  constraints constraint hmem :=
    .inr ⟨hformed.constraints constraint hmem, hexact.constraints constraint hmem,
      hholds.constraints constraint hmem⟩

/-- Constant bounds enclose: under facts that hold, an expression has its value between
the ends of its bound, however the ranges and constraints refer to each other. -/
theorem bound_encloses_value (hformed : facts.Formed) (hholds : facts.HoldAt assignment)
    (hexact : facts.ExactAt assignment) {e : Expr} (he : e.Formed) (heexact : e.Exact assignment)
    (hvalue : e.eval assignment = .ok value) :
    (facts.bound e).min ≤ value ∧ value ≤ (facts.bound e).max :=
  have hadmits := (hholds.respects hformed hexact).bound_admits he heexact hvalue
  ⟨hadmits.lower, hadmits.upper⟩

section Cycle

/-- The first of two counters whose ranges mention each other. -/
def cycleOuter : Var := ⟨.parameter 0, "outer", .int32⟩

/-- The second of two counters whose ranges mention each other. -/
def cycleInner : Var := ⟨.parameter 1, "inner", .int32⟩

/-- The outer counter stays below the inner one plus four, the inner one below the
outer one plus one, and together they reach at most nine. -/
def cycle : Facts where
  ranges v :=
    if v = cycleOuter then some ⟨.literal .int32 0, (Expr.var cycleInner).add (.literal .int32 4)⟩
    else if v = cycleInner then
      some ⟨.literal .int32 1, (Expr.var cycleOuter).add (.literal .int32 1)⟩
    else none
  constraints := [(Expr.var cycleOuter).le ((Expr.literal .int32 9).sub (.var cycleInner))]

/-- The counters at five and three. -/
def cycleValues : Assignment := fun v =>
  if v = cycleOuter then some 5 else if v = cycleInner then some 3 else none

/-- A property of both ranges is a property of every range of the cycle. -/
theorem forall_cycle_ranges {property : Var → Range → Prop}
    (houter : property cycleOuter
      ⟨.literal .int32 0, (Expr.var cycleInner).add (.literal .int32 4)⟩)
    (hinner : property cycleInner
      ⟨.literal .int32 1, (Expr.var cycleOuter).add (.literal .int32 1)⟩) (v : Var) (range : Range)
    (h : cycle.ranges v = some range) : property v range := by
  simp only [cycle] at h
  split at h
  · rename_i hv
    rw [hv, ← Option.some.inj h]
    exact houter
  · split at h
    · rename_i hv
      rw [hv, ← Option.some.inj h]
      exact hinner
    · cases h

theorem bound_encloses_value_of_cycle :
    let e := ((Expr.var cycleOuter).mul (.literal .int32 3)).sub
      ((Expr.var cycleInner).floorMod (.literal .int32 2))
    (cycle.bound e).min ≤ 14 ∧ 14 ≤ (cycle.bound e).max := by
  intro e
  have hformed : cycle.Formed :=
    ⟨forall_cycle_ranges ⟨by decide, by decide⟩ ⟨by decide, by decide⟩, by decide⟩
  have hexact : cycle.ExactAt cycleValues :=
    ⟨forall_cycle_ranges ⟨by decide, by decide⟩ ⟨by decide, by decide⟩, by decide⟩
  have houter : (Expr.var cycleOuter).eval cycleValues = .ok 5 := by decide
  have hinner : (Expr.var cycleInner).eval cycleValues = .ok 3 := by decide
  have hholds : cycle.HoldAt cycleValues := by
    refine ⟨forall_cycle_ranges (fun value hvalue => ?_) (fun value hvalue => ?_), ?_⟩
    · rw [houter] at hvalue
      rw [← Except.ok.inj hvalue]
      exact ⟨0, 7, by decide, by decide, by decide, by decide⟩
    · rw [hinner] at hvalue
      rw [← Except.ok.inj hvalue]
      exact ⟨1, 7, by decide, by decide, by decide, by decide⟩
    · intro constraint hmem
      rw [List.mem_singleton.mp hmem]
      exact ⟨1, by decide, by decide⟩
  exact bound_encloses_value hformed hholds hexact (by decide) (by decide) (by decide)

end Cycle

/-- The provision that variables are finite cannot be dropped. Subtracting one from an
end just above the least finite value saturates, and the variable below it is then
bounded by negative infinity, although it is a different word. -/
theorem bound_excludes_saturated_variable :
    let x : Var := ⟨.parameter 0, "x", .int64⟩
    let constraint := (Expr.var x).lt (.literal .int64 (-9223372036854775806))
    let assignment : Assignment := fun v => if v = x then some (-9223372036854775807) else none
    let facts := empty.assume constraint
    facts.constraints = [constraint] ∧ constraint.eval assignment = .ok 1 ∧
      (Expr.var x).eval assignment = .ok (-9223372036854775807) ∧
      (facts.bound (.var x)).max < -9223372036854775807 := by
  decide +kernel

end Facts

end LoopNest
