/-
# Bounds that enclose a value

Simplifying a node trusts the bounds of its simplified operands and nothing else about
them. So what a node does to the value of its operands can be said for any expressions
that have a value between the ends of their bounds, exact or not, whatever the facts
are. Where the facts are respected, exactness provides such bounds; this file says what
the last steps of the simplifier preserve once they are there.
-/

import LoopNest.Proofs.Facts.Inert
import LoopNest.Proofs.Facts.Simplify

namespace LoopNest

namespace BinaryOp

theorem truth_inj {first second : Bool} : truth first = truth second ↔ first = second := by
  cases first <;> cases second <;> decide

theorem decide_truth_eq_zero (holds : Bool) : decide (truth holds = 0) = !holds := by
  cases holds <;> decide

/-- A comparison computes a truth value. -/
theorem exists_truth {op : BinaryOp} (hop : op.isComparison = true) {left right value : Int}
    (hresult : op.compute? left right = some value) : ∃ holds, truth holds = value := by
  rcases compute?_predicate (by simp [isPredicate, hop]) hresult with rfl | rfl
  · exact ⟨false, rfl⟩
  · exact ⟨true, rfl⟩

/-- The operators that only look at the order of their operands are not logical. -/
theorem isLogical_of_order {op : BinaryOp}
    (hop : op.isComparison = true ∨ op = .min ∨ op = .max) : op.isLogical = false := by
  rcases hop with hop | rfl | rfl
  · cases op <;> first | rfl | cases hop
  · rfl
  · rfl

end BinaryOp

namespace DType

variable {dtype : DType}

theorem minValue_of_isUnsigned (unsigned : dtype.isUnsigned = true) : dtype.minValue = 0 := by
  cases dtype <;> first | rfl | cases unsigned

theorem ne_bool_of_isUnsigned (unsigned : dtype.isUnsigned = true) : dtype ≠ .bool := by
  rintro rfl
  cases unsigned

end DType

namespace Bound

variable {left right : Bound} {x y value : Int}

/-- The bound of a comparison encloses the truth value, as soon as the bounds of the
operands enclose the operands. -/
theorem ofOperator_encloses_of_isComparison {op : BinaryOp} (hop : op.isComparison = true)
    (hx : left.min ≤ x ∧ x ≤ left.max) (hy : right.min ≤ y ∧ y ≤ right.max)
    (hresult : op.compute? x y = some value) :
    (ofOperator op left right).min ≤ value ∧ value ≤ (ofOperator op left right).max := by
  obtain ⟨hlower, hupper⟩ := hx
  obtain ⟨hlower', hupper'⟩ := hy
  cases op <;> simp only [BinaryOp.isComparison, Bool.false_eq_true] at hop
  all_goals
    rw [BinaryOp.compute?, Option.some.injEq] at hresult
    subst hresult
    apply ofTruth_encloses <;>
      simp only [samePoint, isPoint, disjoint, Bool.and_eq_true, Bool.or_eq_true,
        decide_eq_true_eq, decide_eq_false_iff_not] <;>
      omega

/-- The bound of a complement encloses the truth value of being zero. -/
theorem complement_encloses_of_le {bound : Bound} (hlower : bound.min ≤ x)
    (hupper : x ≤ bound.max) :
    bound.complement.min ≤ BinaryOp.truth (decide (x = 0)) ∧
      BinaryOp.truth (decide (x = 0)) ≤ bound.complement.max := by
  apply ofTruth_encloses
  · simp only [Bool.and_eq_true, decide_eq_true_eq]
    omega
  · simp only [Bool.or_eq_true, decide_eq_true_eq, decide_eq_false_iff_not]
    omega

/-- A value of a type that lies in a bound lies in what the type leaves of it. -/
theorem intersect_ofDType_encloses {bound : Bound} {dtype : DType} (hlower : bound.min ≤ value)
    (hupper : value ≤ bound.max) (hcontains : dtype.contains value = true) :
    (bound.intersect (ofDType dtype)).min ≤ value ∧
      value ≤ (bound.intersect (ofDType dtype)).max := by
  rw [DType.contains_iff] at hcontains
  exact ⟨max_le hlower hcontains.1, le_min hupper hcontains.2⟩

/-- The bound of an expression does not leave its type, whatever is known about the
variables. -/
theorem ofExpr_within (ofVar : Var → Bound) {e : Expr} (hformed : e.Formed) :
    e.dtype.minValue ≤ (ofExpr ofVar e).min ∧ (ofExpr ofVar e).max ≤ e.dtype.maxValue := by
  cases e with
  | const dtype value => exact DType.contains_iff.mp hformed
  | _ => exact ⟨le_max_right _ _, min_le_right _ _⟩

end Bound

namespace Expr

variable {op : BinaryOp} {lhs rhs : Expr}

/-- Folding only computes literals and otherwise keeps a comparison, a minimum or a
maximum as it is. -/
theorem combine_eq_binary (hop : op.isComparison = true ∨ op = .min ∨ op = .max)
    (same : lhs.dtype = rhs.dtype) (hopen : ¬(lhs.isConst = true ∧ rhs.isConst = true)) :
    combine op lhs rhs = binary op lhs rhs := by
  have hliterals : foldLiterals? op lhs rhs = none := by
    simp only [isConst, Option.isSome_iff_exists] at hopen
    cases hleft : lhs.value? with
    | none => simp [foldLiterals?, hleft]
    | some left =>
        cases hright : rhs.value? with
        | none => simp [foldLiterals?, hleft, hright]
        | some right => exact absurd ⟨⟨left, hleft⟩, right, hright⟩ hopen
  rw [combine_of_dtype_eq op same, foldNode, hliterals]
  rcases hop with hop | rfl | rfl
  · cases op <;> first | rfl | cases hop
  · rfl
  · rfl

/-- Literals are compared at once, and so are the smaller and the larger one found. -/
theorem combine_of_isConst (hop : op.isComparison = true ∨ op = .min ∨ op = .max)
    (same : lhs.dtype = rhs.dtype) (hliterals : lhs.isConst = true ∧ rhs.isConst = true) :
    ∃ dtype value, combine op lhs rhs = literal dtype value := by
  obtain ⟨x, hx⟩ := Option.isSome_iff_exists.mp hliterals.1
  obtain ⟨y, hy⟩ := Option.isSome_iff_exists.mp hliterals.2
  obtain ⟨result, hresult⟩ : ∃ result, op.compute? x y = some result := by
    rcases hop with hop | rfl | rfl
    · cases op <;> first | exact ⟨_, rfl⟩ | cases hop
    · exact ⟨_, rfl⟩
    · exact ⟨_, rfl⟩
  refine ⟨resultType op rhs.dtype, result, ?_⟩
  rw [eq_const_of_value? hx, eq_const_of_value? hy, same, combine_const hresult]
  rfl

end Expr

/-- An expression has a value, and the constant bound of the expression encloses it. -/
structure Facts.Encloses (facts : Facts) (assignment : Assignment) (e : Expr) (value : Int) :
    Prop where
  eval : e.eval assignment = .ok value
  lower : (facts.bound e).min ≤ value
  upper : value ≤ (facts.bound e).max

namespace Facts

variable {facts : Facts} {assignment : Assignment} {op : BinaryOp} {e lhs rhs : Expr}
variable {left right value : Int} {dtype : DType} {holds : Bool}

/-- Where facts are respected, the bound of an exact expression encloses its value. -/
theorem Respects.encloses (hrespects : facts.Respects assignment) (hformed : e.Formed)
    (h : e.Exact assignment) (hvalue : e.eval assignment = .ok value) :
    facts.Encloses assignment e value :=
  have hadmits := hrespects.bound_admits hformed h hvalue
  ⟨hvalue, hadmits.lower, hadmits.upper⟩

namespace Encloses

/-- The literal that an enclosed expression may be is its value. -/
theorem eq_of_value? (h : facts.Encloses assignment e value) {literal : Int}
    (hliteral : e.value? = some literal) : literal = value := by
  have hlower := h.lower
  have hupper := h.upper
  rw [Expr.eq_const_of_value? hliteral] at hlower hupper
  exact le_antisymm hlower hupper

/-- A literal of its type is enclosed. -/
theorem literal (hcontains : dtype.contains value = true) :
    facts.Encloses assignment (.literal dtype value) value := by
  refine ⟨Expr.eval_literal hcontains, ?_, ?_⟩ <;>
    rw [Expr.literal, DType.truncate_of_contains hcontains] <;> exact le_rfl

theorem ofBool (holds : Bool) :
    facts.Encloses assignment (.ofBool holds) (BinaryOp.truth holds) :=
  literal (DType.contains_bool_iff.mpr (BinaryOp.truth_eq_zero_or_one holds))

/-- A bound that leaves one value leaves the right one. -/
theorem collapse (h : facts.Encloses assignment e value) :
    facts.Encloses assignment (facts.collapse e) value := by
  unfold Facts.collapse
  split
  · exact h
  · simp only
    split
    · rename_i hpoint
      rw [Bound.isPoint, decide_eq_true_iff] at hpoint
      rw [show (facts.bound e).min = value from le_antisymm h.lower (hpoint ▸ h.upper)]
      exact literal (Expr.eval_contains h.eval)
    · exact h

/-- A comparison of enclosed operands is enclosed. -/
theorem comparison (hop : op.isComparison = true) (hleft : facts.Encloses assignment lhs left)
    (hright : facts.Encloses assignment rhs right)
    (hresult : op.compute? left right = some (BinaryOp.truth holds)) :
    facts.Encloses assignment (.binary op lhs rhs) (BinaryOp.truth holds) := by
  have heval := Expr.eval_comparison hop hleft.eval hright.eval hresult
  obtain ⟨hlower, hupper⟩ := Bound.ofOperator_encloses_of_isComparison hop
    ⟨hleft.lower, hleft.upper⟩ ⟨hright.lower, hright.upper⟩ hresult
  obtain ⟨hlower, hupper⟩ :=
    Bound.intersect_ofDType_encloses hlower hupper (Expr.eval_contains heval)
  exact ⟨heval, hlower, hupper⟩

/-- A comparison of enclosed operands is enclosed, folded or not. -/
theorem combine_comparison (hop : op.isComparison = true) (same : lhs.dtype = rhs.dtype)
    (hleft : facts.Encloses assignment lhs left) (hright : facts.Encloses assignment rhs right)
    (hresult : op.compute? left right = some (BinaryOp.truth holds)) :
    facts.Encloses assignment (.combine op lhs rhs) (BinaryOp.truth holds) := by
  by_cases hliterals : lhs.isConst = true ∧ rhs.isConst = true
  · obtain ⟨x, hx⟩ := Option.isSome_iff_exists.mp hliterals.1
    obtain ⟨y, hy⟩ := Option.isSome_iff_exists.mp hliterals.2
    rw [← hleft.eq_of_value? hx, ← hright.eq_of_value? hy] at hresult
    rw [Expr.eq_const_of_value? hx, Expr.eq_const_of_value? hy, same,
      Expr.combine_const_of_predicate (by simp [BinaryOp.isPredicate, hop]) hresult]
    exact ofBool holds
  · rw [Expr.combine_eq_binary (.inl hop) same hliterals]
    exact comparison hop hleft hright hresult

/-- The complement of an enclosed expression is enclosed. -/
theorem complement (h : facts.Encloses assignment e value) :
    facts.Encloses assignment e.complement (BinaryOp.truth (decide (value = 0))) := by
  unfold Expr.complement
  split
  · rename_i literal hliteral
    rw [h.eq_of_value? hliteral]
    exact ofBool _
  · have heval : (Expr.not e).eval assignment = .ok (BinaryOp.truth (decide (value = 0))) :=
      Expr.eval_not_of_eval h.eval
    obtain ⟨hlower, hupper⟩ := Bound.complement_encloses_of_le h.lower h.upper
    obtain ⟨hlower, hupper⟩ :=
      Bound.intersect_ofDType_encloses hlower hupper (Expr.eval_contains heval)
    exact ⟨heval, hlower, hupper⟩

/-- An enclosed expression that is viewed at another type is enclosed. -/
theorem castTo (h : facts.Encloses assignment e value) (dtype : DType) :
    facts.Encloses assignment (e.castTo dtype) (dtype.truncate value) := by
  unfold Expr.castTo
  split
  · rename_i hdtype
    rwa [DType.truncate_of_contains (hdtype ▸ Expr.eval_contains h.eval)]
  · split
    · rename_i written hwritten
      have hliteral : facts.Encloses assignment (.literal dtype (dtype.truncate value)) _ :=
        literal (DType.contains_truncate dtype value)
      rw [Expr.literal, DType.truncate_truncate] at hliteral
      rw [h.eq_of_value? hwritten]
      exact hliteral
    · have heval : (Expr.cast dtype e).eval assignment = .ok (dtype.truncate value) :=
        Expr.eval_cast_of_eval h.eval
      have hsource : (Bound.ofCast dtype (facts.bound e)).min ≤ dtype.truncate value ∧
          dtype.truncate value ≤ (Bound.ofCast dtype (facts.bound e)).max := by
        unfold Bound.ofCast
        split
        · rename_i hencloses
          rw [Bound.encloses, Bool.and_eq_true, decide_eq_true_iff, decide_eq_true_iff] at hencloses
          rw [DType.truncate_of_contains (DType.contains_iff.mpr
            ⟨hencloses.1.trans h.lower, h.upper.trans hencloses.2⟩)]
          exact ⟨h.lower, h.upper⟩
        · exact DType.contains_iff.mp (DType.contains_truncate _ _)
      obtain ⟨hlower, hupper⟩ :=
        Bound.intersect_ofDType_encloses hsource.1 hsource.2 (Expr.eval_contains heval)
      exact ⟨heval, hlower, hupper⟩

end Encloses

/-- Only a comparison and a complement are turned around by `simplifyNot`, and these are
truth values. -/
theorem simplifyNot_of_dtype_ne_bool (h : e.dtype ≠ .bool) :
    facts.simplifyNot e = e.complement := by
  unfold simplifyNot
  split <;> first | rfl | exact absurd rfl h

theorem simplifyNot_of_isConst (h : e.isConst = true) : facts.simplifyNot e = e.complement := by
  obtain ⟨value, hvalue⟩ := Option.isSome_iff_exists.mp h
  rw [Expr.eq_const_of_value? hvalue]
  rfl

/-- A comparison of numbers gets the value that the bound of their difference decides,
and its own one where nothing is decided. -/
theorem encloses_simplifyComparison (hop : op.isComparison = true)
    (hnumbers : (lhs.dtype.isBool || rhs.dtype.isBool) = false) (same : lhs.dtype = rhs.dtype)
    (hleft : facts.Encloses assignment lhs left) (hright : facts.Encloses assignment rhs right)
    (hresult : op.compute? left right = some (BinaryOp.truth holds)) :
    facts.Encloses assignment (facts.simplifyComparison op lhs rhs)
      (BinaryOp.truth ((decideComparison op (facts.differenceBound lhs rhs)).getD holds)) := by
  rw [simplifyComparison, if_neg (by simp [hnumbers])]
  split
  · rename_i decided hdecided
    rw [hdecided]
    exact .ofBool decided
  · rename_i hopen
    rw [hopen]
    exact .combine_comparison hop same hleft hright hresult

/-- A literal that replaces an expression has its type. -/
@[simp] theorem dtype_collapse (facts : Facts) (e : Expr) : (facts.collapse e).dtype = e.dtype := by
  rcases facts.collapse_cases e with hkept | ⟨value, hliteral⟩
  · rw [hkept]
  · rw [hliteral]
    rfl

/-- Where facts are respected and simplifying is exact, the simplified expression is
enclosed. -/
theorem Respects.encloses_simplify (hrespects : facts.Respects assignment) (hwell : e.WellTyped)
    (h : facts.SimplifiesExactly assignment e) (hvalue : e.eval assignment = .ok value) :
    facts.Encloses assignment (facts.simplify e) value := by
  have hsimplified := hrespects.eval_simplify hwell h hvalue
  have hformed := (facts.typedAt_simplify hwell).wellTyped.formed
  have hcollapse : ∀ {before : Expr}, before.Exact assignment →
      facts.simplify e = facts.collapse before →
      facts.Encloses assignment (facts.simplify e) value := by
    intro before hexact heq
    rcases facts.collapse_cases before with hkept | ⟨literal, hliteral⟩
    · exact hrespects.encloses hformed (heq ▸ hkept.symm ▸ hexact) hsimplified
    · rw [heq, hliteral] at hsimplified ⊢
      rw [Expr.eval_literal_wrapped] at hsimplified
      rw [Expr.literal, Except.ok.inj hsimplified]
      have hcontains := Except.ok.inj hsimplified ▸ DType.contains_truncate before.dtype literal
      have hencloses : facts.Encloses assignment (.literal before.dtype value) value :=
        .literal hcontains
      rwa [Expr.literal, DType.truncate_of_contains hcontains] at hencloses
  cases e with
  | const dtype literal => exact hcollapse h rfl
  | var v => exact hcollapse h rfl
  | cast dtype source => exact hcollapse h.2 rfl
  | neg operand => exact hcollapse h.2.2 rfl
  | not operand => exact hcollapse h.2.2 rfl
  | binary op lhs rhs => exact hcollapse h.2.2.2.2 rfl

end Facts

end LoopNest
