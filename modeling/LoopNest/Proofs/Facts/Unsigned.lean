/-
# Order over unsigned operands

A minimum, a maximum and a comparison are decided from the bound of the difference of
the operands. The difference is an expression of their type, and no bound leaves its
type, so over unsigned operands it is never negative, whatever the operands are. This
passes for a proof that the left operand is at least the right one: a maximum always
becomes its left operand, a minimum is never kept, and a strict comparison is always
decided.

What becomes of the value is therefore known exactly. It is kept if and only if the
bound of the difference, read as a bound of the exact difference of the two values,
leads to the right answer. Nothing is assumed about the operands except that their own
simplified forms have their values within their bounds.
-/

import LoopNest.Facts.Prove
import LoopNest.Proofs.Facts.Encloses
import LoopNest.Proofs.Facts.Prove

namespace LoopNest

/-- An answer that is read off the bound of a difference which is never negative is the
answer for the two values. -/
def BinaryOp.DecidesRightly (op : BinaryOp) (difference : Bound) (left right : Int) : Prop :=
  match op with
  | .max => right ≤ left
  | .min => if difference.max ≤ 0 then left ≤ right else right ≤ left
  | .lt => left < right ↔ difference.max < 0
  | .le => if difference.max ≤ 0 then left ≤ right else 0 < difference.min → right < left
  | .eq | .ne =>
    (difference.min = 0 ∧ difference.max = 0 → left = right) ∧
      (0 < difference.min ∨ difference.max < 0 → left ≠ right)
  | _ => True

/-- The answer to the opposite question is right. For a minimum and a maximum only zero
matters. A comparison that is not strict is asked again the other way round where it
was not decided. -/
def Facts.DeniesRightly (facts : Facts) (op : BinaryOp) (lhs rhs : Expr) (left right : Int) :
    Prop :=
  let difference := facts.differenceBound lhs rhs
  match op with
  | .max => left = 0 → right = 0
  | .min => if difference.max ≤ 0 then right = 0 → left = 0 else left = 0 → right = 0
  | .le =>
    if difference.max ≤ 0 then left ≤ right
    else if 0 < difference.min then right < left
    else (facts.bound (.binary .le lhs rhs)).isPoint = true ∨
      (right < left ↔ (facts.differenceBound rhs lhs).max < 0)
  | op => op.DecidesRightly difference left right

namespace Facts

variable {facts : Facts} {assignment : Assignment} {op : BinaryOp} {e lhs rhs : Expr}
variable {left right value : Int} {holds : Bool}

variable (facts) in
/-- The bound of a difference of unsigned operands is never negative. -/
theorem differenceBound_min_nonneg (unsigned : lhs.dtype.isUnsigned = true) (hlhs : lhs.WellTyped)
    (hrhs : rhs.WellTyped) (same : lhs.dtype = rhs.dtype) :
    0 ≤ (facts.differenceBound lhs rhs).min := by
  have htyped : (lhs.sub rhs).normalize.TypedAt lhs.dtype :=
    (Expr.TypedAt.combine rfl ⟨hlhs, rfl⟩ ⟨hrhs, same.symm⟩).normalize
  rw [← DType.minValue_of_isUnsigned unsigned, ← htyped.dtype_eq]
  exact (Bound.ofExpr_within _ htyped.wellTyped.formed).1

theorem isBool_or_of_isUnsigned (unsigned : lhs.dtype.isUnsigned = true)
    (same : lhs.dtype = rhs.dtype) : (lhs.dtype.isBool || rhs.dtype.isBool) = false := by
  simp [← same, DType.isBool, DType.ne_bool_of_isUnsigned unsigned]

/-- For a bound that is not negative the table of right answers says when a decided
comparison is right. -/
theorem getD_decideComparison_eq_iff (hop : op.isComparison = true) {difference : Bound}
    (hnonneg : 0 ≤ difference.min)
    (hresult : op.compute? left right = some (BinaryOp.truth holds)) :
    (decideComparison op difference).getD holds = holds ↔
      op.DecidesRightly difference left right := by
  cases op <;> simp only [BinaryOp.isComparison, Bool.false_eq_true] at hop <;>
    obtain rfl := BinaryOp.truth_inj.mp (Option.some.inj hresult) <;>
    simp only [decideComparison, settle, BinaryOp.DecidesRightly, Bound.isPoint] <;>
    grind

/-- Two literals leave a comparison one value. -/
theorem isPoint_bound_of_isConst (hop : op.isComparison = true)
    (hliterals : lhs.isConst = true ∧ rhs.isConst = true) :
    (facts.bound (.binary op lhs rhs)).isPoint = true := by
  obtain ⟨x, hx⟩ := Option.isSome_iff_exists.mp hliterals.1
  obtain ⟨y, hy⟩ := Option.isSome_iff_exists.mp hliterals.2
  rw [Expr.eq_const_of_value? hx, Expr.eq_const_of_value? hy]
  cases op <;> simp only [BinaryOp.isComparison, Bool.false_eq_true] at hop <;>
    simp only [bound, Bound.ofExpr, Bound.ofOperator, Bound.point, Bound.samePoint, Bound.disjoint,
      Bound.isPoint, Bound.ofTruth, Bound.intersect, Bound.ofDType, Expr.dtype,
      BinaryOp.isPredicate, BinaryOp.isComparison, DType.minValue, DType.maxValue] <;>
    grind

variable (facts) in
/-- A comparison turns into a literal where its bound leaves one value, and is kept as it
is otherwise. -/
theorem collapse_combine_comparison (hop : op.isComparison = true) (same : lhs.dtype = rhs.dtype) :
    if (facts.bound (.binary op lhs rhs)).isPoint = true then
      (facts.collapse (.combine op lhs rhs)).isConst = true
    else facts.collapse (.combine op lhs rhs) = .binary op lhs rhs := by
  by_cases hliterals : lhs.isConst = true ∧ rhs.isConst = true
  · rw [if_pos (isPoint_bound_of_isConst hop hliterals)]
    obtain ⟨dtype, value, hvalue⟩ := Expr.combine_of_isConst (.inl hop) same hliterals
    rw [hvalue]
    rfl
  · rw [Expr.combine_eq_binary (.inl hop) same hliterals, collapse]
    simp only [Expr.isConst, Expr.value?, Option.isSome_none, Bool.false_eq_true, if_false]
    split <;> rfl

variable (facts) in
/-- The opposite question about the same difference stays open with the question. -/
theorem exists_opposite (hop : op = .eq ∨ op = .ne) (difference : Bound)
    (hopen : decideComparison op difference = none)
    (hresult : op.compute? left right = some (BinaryOp.truth holds)) :
    ∃ opposite : BinaryOp, opposite.isComparison = true ∧
      decideComparison opposite difference = none ∧
      opposite.compute? left right = some (BinaryOp.truth !holds) ∧
      ∀ lhs rhs, facts.simplifyNot (.binary op lhs rhs) =
        facts.simplifyComparison opposite lhs rhs := by
  rcases hop with rfl | rfl
  · refine ⟨.ne, rfl, ?_, ?_, fun _ _ => rfl⟩
    · simp only [decideComparison, settle] at hopen ⊢
      grind
    · rw [← BinaryOp.truth_inj.mp (Option.some.inj hresult)]
      simp [BinaryOp.compute?]
  · refine ⟨.eq, rfl, ?_, ?_, fun _ _ => rfl⟩
    · simp only [decideComparison, settle] at hopen ⊢
      grind
    · rw [← BinaryOp.truth_inj.mp (Option.some.inj hresult)]
      simp [BinaryOp.compute?]

/-- Where a comparison is decided, its complement is right with it. -/
theorem deniesRightly_of_decideComparison (hop : op.isComparison = true) {decided : Bool}
    (h : decideComparison op (facts.differenceBound lhs rhs) = some decided) :
    facts.DeniesRightly op lhs rhs left right ↔
      op.DecidesRightly (facts.differenceBound lhs rhs) left right := by
  cases op with
  | lt | eq | ne => rfl
  | le =>
      simp only [decideComparison, settle] at h
      simp only [BinaryOp.DecidesRightly, DeniesRightly]
      grind
  | _ => cases hop

/-- A comparison that is not strict and left open is asked again the other way round,
unless its own bound leaves one value. -/
theorem deniesRightly_le_of_open
    (h : decideComparison .le (facts.differenceBound lhs rhs) = none) :
    facts.DeniesRightly .le lhs rhs left right ↔
      (facts.bound (.binary .le lhs rhs)).isPoint = true ∨
        (right < left ↔ (facts.differenceBound rhs lhs).max < 0) := by
  simp only [decideComparison, settle] at h
  simp only [DeniesRightly]
  grind

section Operands

variable (unsigned : lhs.dtype.isUnsigned = true) (hlhs : lhs.WellTyped) (hrhs : rhs.WellTyped)
  (same : lhs.dtype = rhs.dtype)
include unsigned hlhs hrhs same

/-- A maximum of unsigned operands becomes its left operand. -/
theorem simplifyMax_of_isUnsigned : facts.simplifyMax lhs rhs = lhs := by
  unfold simplifyMax
  split
  · rfl
  · exact if_pos (differenceBound_min_nonneg _ unsigned hlhs hrhs same)

/-- A minimum of unsigned operands becomes one of them. -/
theorem simplifyMin_of_isUnsigned : facts.simplifyMin lhs rhs =
    if (facts.differenceBound lhs rhs).max ≤ 0 then lhs else rhs := by
  unfold simplifyMin
  split
  · rename_i heq
    rw [heq, ite_self]
  · simp only
    rw [if_pos (differenceBound_min_nonneg _ unsigned hlhs hrhs same)]

/-- A node over simplified operands has a value within its bound, and this is the value
that the operator computes if and only if the difference decides rightly. -/
theorem exists_encloses_simplifyNode (hop : op.isComparison = true ∨ op = .min ∨ op = .max)
    (hleft : facts.Encloses assignment lhs left) (hright : facts.Encloses assignment rhs right)
    (hresult : op.compute? left right = some value) :
    ∃ outcome, facts.Encloses assignment (facts.simplifyNode op lhs rhs) outcome ∧
      (outcome = value ↔ op.DecidesRightly (facts.differenceBound lhs rhs) left right) := by
  rcases hop with hop | rfl | rfl
  · obtain ⟨holds, rfl⟩ := BinaryOp.exists_truth hop hresult
    have hnode : facts.simplifyNode op lhs rhs = facts.simplifyComparison op lhs rhs := by
      cases op <;> first | rfl | cases hop
    refine ⟨_, hnode ▸ encloses_simplifyComparison hop (isBool_or_of_isUnsigned unsigned same) same
      hleft hright hresult, ?_⟩
    rw [BinaryOp.truth_inj, getD_decideComparison_eq_iff hop
      (differenceBound_min_nonneg _ unsigned hlhs hrhs same) hresult]
  · obtain rfl := Option.some.inj hresult
    simp only [simplifyNode, simplifyMin_of_isUnsigned unsigned hlhs hrhs same,
      BinaryOp.DecidesRightly]
    split
    · exact ⟨left, hleft, by omega⟩
    · exact ⟨right, hright, by omega⟩
  · obtain rfl := Option.some.inj hresult
    simp only [simplifyNode, simplifyMax_of_isUnsigned unsigned hlhs hrhs same,
      BinaryOp.DecidesRightly]
    exact ⟨left, hleft, by omega⟩

omit hlhs hrhs in
/-- The complement of a decided comparison. -/
theorem simplifyNot_of_decideComparison {decided : Bool}
    (h : decideComparison op (facts.differenceBound lhs rhs) = some decided) :
    facts.simplifyNot (facts.collapse (facts.simplifyComparison op lhs rhs)) =
      .ofBool !decided := by
  rw [simplifyComparison, if_neg (by simp [isBool_or_of_isUnsigned unsigned same]), h]
  cases decided <;> rfl

/-- A comparison that neither the bound of the difference nor its own bound decides is negated by
another comparison, which the opposite difference may decide. -/
theorem exists_encloses_simplifyNot_binary (hop : op.isComparison = true)
    (hleft : facts.Encloses assignment lhs left) (hright : facts.Encloses assignment rhs right)
    (hresult : op.compute? left right = some (BinaryOp.truth holds))
    (hdecided : decideComparison op (facts.differenceBound lhs rhs) = none)
    (hpoint : ¬(facts.bound (.binary op lhs rhs)).isPoint = true) :
    ∃ outcome, facts.Encloses assignment (facts.simplifyNot (.binary op lhs rhs))
        (BinaryOp.truth outcome) ∧
      (outcome = !holds ↔ facts.DeniesRightly op lhs rhs left right) := by
  have hnumbers := isBool_or_of_isUnsigned unsigned same
  have hnonneg := differenceBound_min_nonneg facts unsigned hlhs hrhs same
  have hnonneg' := differenceBound_min_nonneg facts (same ▸ unsigned) hrhs hlhs same.symm
  have hright' := getD_decideComparison_eq_iff hop hnonneg hresult
  rw [hdecided, Option.getD_none] at hright'
  cases op with
  | lt =>
      simp only [decideComparison, settle, hnonneg, decide_true, if_true] at hdecided
      split at hdecided <;> cases hdecided
  | le =>
      have hother : BinaryOp.compute? .lt right left = some (BinaryOp.truth !holds) := by
        rw [← BinaryOp.truth_inj.mp (Option.some.inj hresult), BinaryOp.compute?]
        simp only [← not_le, decide_not]
      refine ⟨_, encloses_simplifyComparison rfl (Bool.or_comm _ _ ▸ hnumbers) same.symm
        hright hleft hother, ?_⟩
      rw [getD_decideComparison_eq_iff rfl hnonneg' hother, deniesRightly_le_of_open hdecided,
        or_iff_right hpoint]
      rfl
  | eq | ne =>
      obtain ⟨opposite, hop', hopen, hother, hnot⟩ :=
        exists_opposite facts (by simp) _ hdecided hresult
      have hencloses := encloses_simplifyComparison hop' hnumbers same hleft hright hother
      rw [hopen, Option.getD_none] at hencloses
      exact ⟨!holds, hnot lhs rhs ▸ hencloses, fun _ => hright'.mp rfl, fun _ => rfl⟩
  | _ => cases hop

/-- A comparison that the difference leaves open keeps its value, and so does its
complement, unless that asks for the difference the other way round. -/
theorem exists_encloses_simplifyNot_comparison (hop : op.isComparison = true)
    (hleft : facts.Encloses assignment lhs left) (hright : facts.Encloses assignment rhs right)
    (hresult : op.compute? left right = some (BinaryOp.truth holds)) :
    ∃ outcome, facts.Encloses assignment
        (facts.simplifyNot (facts.collapse (facts.simplifyComparison op lhs rhs)))
        (BinaryOp.truth outcome) ∧
      (outcome = !holds ↔ facts.DeniesRightly op lhs rhs left right) := by
  have hnumbers := isBool_or_of_isUnsigned unsigned same
  have hnonneg := differenceBound_min_nonneg facts unsigned hlhs hrhs same
  have hright' := getD_decideComparison_eq_iff hop hnonneg hresult
  cases hdecided : decideComparison op (facts.differenceBound lhs rhs) with
  | some decided =>
      rw [simplifyNot_of_decideComparison unsigned same hdecided]
      refine ⟨!decided, .ofBool _, ?_⟩
      rw [hdecided, Option.getD_some] at hright'
      rw [Bool.not_inj_iff, hright', deniesRightly_of_decideComparison hop hdecided]
  | none =>
      rw [hdecided, Option.getD_none] at hright'
      have hkept := collapse_combine_comparison facts hop same
      have hcombine := Encloses.combine_comparison hop same hleft hright hresult
      rw [simplifyComparison, if_neg (by simp [hnumbers]), hdecided]
      by_cases hpoint : (facts.bound (.binary op lhs rhs)).isPoint = true
      · rw [if_pos hpoint] at hkept
        rw [simplifyNot_of_isConst hkept]
        refine ⟨!holds, ?_, fun _ => ?_, fun _ => rfl⟩
        · have hcomplement := hcombine.collapse.complement
          rwa [BinaryOp.decide_truth_eq_zero] at hcomplement
        · cases op with
          | lt | eq | ne => exact hright'.mp rfl
          | le => exact (deniesRightly_le_of_open hdecided).mpr (.inl hpoint)
          | _ => cases hop
      · rw [if_neg hpoint] at hkept
        rw [hkept]
        exact exists_encloses_simplifyNot_binary unsigned hlhs hrhs same hop hleft hright hresult
          hdecided hpoint

/-- The complement of a node over simplified operands has a value within its bound, and
this is the right one if and only if the answer to the opposite question is. -/
theorem exists_encloses_simplifyNot (hop : op.isComparison = true ∨ op = .min ∨ op = .max)
    (hleft : facts.Encloses assignment lhs left) (hright : facts.Encloses assignment rhs right)
    (hresult : op.compute? left right = some value) :
    ∃ outcome, facts.Encloses assignment
        (facts.simplifyNot (facts.collapse (facts.simplifyNode op lhs rhs)))
        (BinaryOp.truth outcome) ∧
      (outcome = decide (value = 0) ↔ facts.DeniesRightly op lhs rhs left right) := by
  have hnumber : ∀ {e : Expr} {x : Int}, e.dtype = lhs.dtype → facts.Encloses assignment e x →
      facts.Encloses assignment (facts.simplifyNot (facts.collapse e))
        (BinaryOp.truth (decide (x = 0))) := fun {e x} hdtype hencloses => by
    rw [simplifyNot_of_dtype_ne_bool (by
      rw [dtype_collapse, hdtype]
      exact DType.ne_bool_of_isUnsigned unsigned)]
    exact hencloses.collapse.complement
  have hnonneg := (DType.contains_iff.mp (Expr.eval_contains hleft.eval)).1
  have hnonneg' := (DType.contains_iff.mp (Expr.eval_contains hright.eval)).1
  rw [DType.minValue_of_isUnsigned unsigned] at hnonneg
  rw [← same, DType.minValue_of_isUnsigned unsigned] at hnonneg'
  rcases hop with hop | rfl | rfl
  · obtain ⟨holds, rfl⟩ := BinaryOp.exists_truth hop hresult
    have hnode : facts.simplifyNode op lhs rhs = facts.simplifyComparison op lhs rhs := by
      cases op <;> first | rfl | cases hop
    rw [hnode, BinaryOp.decide_truth_eq_zero]
    exact exists_encloses_simplifyNot_comparison unsigned hlhs hrhs same hop hleft hright hresult
  · obtain rfl := Option.some.inj hresult
    simp only [simplifyNode, simplifyMin_of_isUnsigned unsigned hlhs hrhs same, DeniesRightly]
    split
    · exact ⟨_, hnumber rfl hleft, by rw [decide_eq_decide]; omega⟩
    · exact ⟨_, hnumber same.symm hright, by rw [decide_eq_decide]; omega⟩
  · obtain rfl := Option.some.inj hresult
    simp only [simplifyNode, simplifyMax_of_isUnsigned unsigned hlhs hrhs same, DeniesRightly]
    exact ⟨_, hnumber rfl hleft, by rw [decide_eq_decide]; omega⟩

end Operands

/-- Neither a conjunction, which is proved side by side, nor a complement, which another
complement cancels. -/
structure Direct (e : Expr) : Prop where
  conjunction : conjunction? e = none
  complement : ∀ operand, e ≠ .not operand

theorem direct_literal (dtype : DType) (value : Int) : Direct (.literal dtype value) :=
  ⟨rfl, nofun⟩

theorem direct_of_dtype_ne_bool (h : e.dtype ≠ .bool) : Direct e where
  conjunction := by
    unfold conjunction?
    split
    · exact absurd rfl h
    · rfl
  complement operand heq := absurd (heq ▸ rfl) h

theorem conjunction?_collapse (h : conjunction? e = none) :
    conjunction? (facts.collapse e) = none := by
  rcases facts.collapse_cases e with hkept | ⟨value, hliteral⟩
  · rwa [hkept]
  · rw [hliteral]
    rfl

theorem Direct.collapse (h : Direct e) : Direct (facts.collapse e) := by
  rcases facts.collapse_cases e with hkept | ⟨value, hliteral⟩
  · rwa [hkept]
  · rw [hliteral]
    exact direct_literal _ _

theorem direct_simplifyComparison (hop : op.isComparison = true) (same : lhs.dtype = rhs.dtype) :
    Direct (facts.simplifyComparison op lhs rhs) := by
  have hcombine : Direct (.combine op lhs rhs) := by
    by_cases hliterals : lhs.isConst = true ∧ rhs.isConst = true
    · obtain ⟨dtype, value, hvalue⟩ := Expr.combine_of_isConst (.inl hop) same hliterals
      rw [hvalue]
      exact direct_literal dtype value
    · rw [Expr.combine_eq_binary (.inl hop) same hliterals]
      refine ⟨?_, nofun⟩
      cases op <;> first | rfl | cases hop
  unfold simplifyComparison
  split
  · exact hcombine
  · split
    · exact direct_literal _ _
    · exact hcombine

section Meaning

variable (unsigned : lhs.dtype.isUnsigned = true) (hlhs : lhs.WellTyped) (hrhs : rhs.WellTyped)
  (same : lhs.dtype = rhs.dtype)
include unsigned hlhs hrhs same

theorem direct_simplifyNode_of_isUnsigned
    (hop : op.isComparison = true ∨ op = .min ∨ op = .max) :
    Direct (facts.simplifyNode op lhs rhs) := by
  have hnumber := DType.ne_bool_of_isUnsigned unsigned
  rcases hop with hop | rfl | rfl
  · have hnode : facts.simplifyNode op lhs rhs = facts.simplifyComparison op lhs rhs := by
      cases op <;> first | rfl | cases hop
    rw [hnode]
    exact direct_simplifyComparison hop same
  · exact direct_of_dtype_ne_bool
      ((typedAt_simplifyMin facts hlhs hrhs same).dtype_eq ▸ hnumber)
  · exact direct_of_dtype_ne_bool
      ((typedAt_simplifyMax facts hlhs hrhs same).dtype_eq ▸ hnumber)

end Meaning

/-- A complement of what is neither a conjunction nor a complement is no conjunction. -/
theorem conjunction?_simplifyNot (h : Direct e) (hwell : e.WellTyped) :
    conjunction? (facts.simplifyNot e) = none := by
  unfold simplifyNot
  split
  case h_5 operand => exact absurd rfl (h.complement operand)
  case h_6 =>
    unfold Expr.complement
    split <;> rfl
  all_goals
    obtain ⟨-, -, same, -⟩ := hwell.formed
    first
    | exact (direct_simplifyComparison rfl same).conjunction
    | exact (direct_simplifyComparison rfl same.symm).conjunction

/-- Simplifying an expression keeps its value, and it is not proved where it is zero. -/
structure KeepsMeaning (facts : Facts) (assignment : Assignment) (e : Expr) : Prop where
  value : (facts.simplify e).eval assignment = e.eval assignment
  proved : facts.proves e = true → e.eval assignment ≠ .ok 0

/-- What keeps its value keeps its meaning, if it does not become a conjunction. -/
theorem keepsMeaning_iff (htrue : ∀ constraint ∈ facts.constraints,
      ∃ value, constraint.eval assignment = .ok value ∧ value ≠ 0) {outcome : Int}
    (hvalue : e.eval assignment = .ok value)
    (h : facts.Encloses assignment (facts.simplify e) outcome)
    (hconjunction : conjunction? (facts.simplify e) = none) :
    facts.KeepsMeaning assignment e ↔ outcome = value := by
  refine ⟨fun hkept => Except.ok.inj (h.eval.symm.trans (hkept.value.trans hvalue)), ?_⟩
  rintro rfl
  refine ⟨h.eval.trans hvalue.symm, fun hproves hzero => ?_⟩
  obtain rfl : outcome = 0 := Except.ok.inj (hvalue.symm.trans hzero)
  have hassumed : ∀ {constraint : Expr}, facts.isAssumed constraint = true →
      constraint.eval assignment ≠ .ok 0 := fun hmem heval => by
    obtain ⟨value, hvalue, hne⟩ := htrue _ (of_decide_eq_true hmem)
    exact hne (Except.ok.inj (hvalue.symm.trans heval))
  rw [proves, provesWithin] at hproves
  split at hproves
  · exact hassumed ‹_› hzero
  · simp only at hproves
    split at hproves
    · rename_i dtype literal heq
      have hliteral := h.eq_of_value? (by rw [heq]; rfl)
      exact of_decide_eq_true hproves hliteral
    · rename_i heq
      rw [heq] at hconjunction
      cases hconjunction
    · exact hassumed hproves h.eval

/-- A comparison, a minimum and a maximum of values have a value. -/
theorem exists_eval_of_order (hop : op.isComparison = true ∨ op = .min ∨ op = .max)
    (same : lhs.dtype = rhs.dtype) (hleft : lhs.eval assignment = .ok left)
    (hright : rhs.eval assignment = .ok right) :
    ∃ value, op.compute? left right = some value ∧
      (Expr.binary op lhs rhs).eval assignment = .ok value := by
  have hcontains := Expr.eval_contains hleft
  have hcontains' : lhs.dtype.contains right = true := same ▸ Expr.eval_contains hright
  rcases hop with hop | rfl | rfl
  · obtain ⟨value, hresult⟩ : ∃ value, op.compute? left right = some value := by
      cases op <;> first | exact ⟨_, rfl⟩ | cases hop
    obtain ⟨holds, rfl⟩ := BinaryOp.exists_truth hop hresult
    exact ⟨_, hresult, Expr.eval_comparison hop hleft hright hresult⟩
  · refine ⟨_, rfl, ?_⟩
    rw [Expr.eval_binary_of_eval hleft hright rfl]
    refine congrArg Except.ok (DType.truncate_of_contains ?_)
    rcases min_choice left right with h | h <;> rwa [h]
  · refine ⟨_, rfl, ?_⟩
    rw [Expr.eval_binary_of_eval hleft hright rfl]
    refine congrArg Except.ok (DType.truncate_of_contains ?_)
    rcases max_choice left right with h | h <;> rwa [h]

section Meaning

variable (htrue : ∀ constraint ∈ facts.constraints,
  ∃ value, constraint.eval assignment = .ok value ∧ value ≠ 0)
include htrue

theorem keepsMeaning_literal (dtype : DType) (value : Int) :
    facts.KeepsMeaning assignment (.literal dtype value) := by
  have hcontains := DType.contains_truncate dtype value
  have hencloses : facts.Encloses assignment (.literal dtype (dtype.truncate value)) _ :=
    .literal hcontains
  rw [Expr.literal, DType.truncate_truncate] at hencloses
  exact (keepsMeaning_iff htrue hencloses.eval hencloses rfl).mpr rfl

/-- Over unsigned operands the order keeps its meaning exactly where the bound of the
difference, which is never negative, answers rightly. -/
theorem keepsMeaning_iff_of_isUnsigned (hop : op.isComparison = true ∨ op = .min ∨ op = .max)
    (unsigned : lhs.dtype.isUnsigned = true) (hlhs : lhs.WellTyped) (hrhs : rhs.WellTyped)
    (same : lhs.dtype = rhs.dtype) (hleft : lhs.eval assignment = .ok left)
    (hright : rhs.eval assignment = .ok right)
    (hleft' : facts.Encloses assignment (facts.simplify lhs) left)
    (hright' : facts.Encloses assignment (facts.simplify rhs) right) :
    (facts.KeepsMeaning assignment (.combine op lhs rhs) ↔
        (lhs.isConst = true ∧ rhs.isConst = true) ∨
          op.DecidesRightly (facts.differenceBound (facts.simplify lhs) (facts.simplify rhs))
            left right) ∧
      (facts.KeepsMeaning assignment (Expr.combine op lhs rhs).complement ↔
        (lhs.isConst = true ∧ rhs.isConst = true) ∨
          facts.DeniesRightly op (facts.simplify lhs) (facts.simplify rhs) left right) := by
  by_cases hliterals : lhs.isConst = true ∧ rhs.isConst = true
  · obtain ⟨dtype, value, hvalue⟩ := Expr.combine_of_isConst hop same hliterals
    simp only [hliterals, and_self, true_or, iff_true, hvalue]
    exact ⟨keepsMeaning_literal htrue _ _, keepsMeaning_literal htrue _ _⟩
  · obtain ⟨value, hresult, hvalue⟩ := exists_eval_of_order hop same hleft hright
    have hcomplement : (Expr.not (.binary op lhs rhs)).eval assignment =
        .ok (BinaryOp.truth (decide (value = 0))) := by
      rw [Expr.eval, hvalue]
      rfl
    have hwell : (Expr.binary op lhs rhs).WellTyped :=
      ⟨⟨hlhs.formed, hrhs.formed, same, by simp [BinaryOp.isLogical_of_order hop]⟩,
        hlhs.complements, hrhs.complements⟩
    have htyped := facts.typedAt_simplify hlhs
    have htyped' := facts.typedAt_simplify hrhs
    have same' := htyped.dtype_eq.trans (same.trans htyped'.dtype_eq.symm)
    have unsigned' : (facts.simplify lhs).dtype.isUnsigned = true := htyped.dtype_eq ▸ unsigned
    have hdirect : Direct (facts.simplify (.binary op lhs rhs)) :=
      (direct_simplifyNode_of_isUnsigned unsigned' htyped.wellTyped htyped'.wellTyped same'
        hop).collapse
    obtain ⟨outcome, hencloses, hiff⟩ := exists_encloses_simplifyNode unsigned' htyped.wellTyped
      htyped'.wellTyped same' hop hleft' hright' hresult
    obtain ⟨denied, hencloses', hiff'⟩ := exists_encloses_simplifyNot unsigned' htyped.wellTyped
      htyped'.wellTyped same' hop hleft' hright' hresult
    rw [Expr.combine_eq_binary hop same hliterals, or_iff_right hliterals, or_iff_right hliterals,
      ← hiff, ← hiff']
    refine ⟨keepsMeaning_iff htrue hvalue hencloses.collapse hdirect.conjunction, ?_⟩
    rw [← BinaryOp.truth_inj]
    exact keepsMeaning_iff htrue hcomplement hencloses'.collapse
      (conjunction?_collapse
        (conjunction?_simplifyNot hdirect (facts.typedAt_simplify hwell).wellTyped))

end Meaning

/-- Three is less than five, but below ten nothing is provably less than another byte. -/
theorem not_keepsMeaning_of_bytes :
    let x : Var := ⟨.parameter 0, "x", .uint8⟩
    let y : Var := ⟨.parameter 1, "y", .uint8⟩
    let facts := empty.bind x (.constant .uint8 10)
    let assignment : Assignment := fun v => if v = x then some 3 else some 5
    ¬facts.KeepsMeaning assignment ((Expr.var x).lt (.var y)) ∧
      ¬facts.KeepsMeaning assignment ((Expr.var x).lt (.var y)).complement := by
  intro x y facts assignment
  have hranges : facts.RangesHold assignment := by
    intro v range value hrange hvalue
    obtain ⟨rfl, rfl⟩ : v = x ∧ range = .constant .uint8 10 := by
      simp only [facts, Facts.bind, empty, Option.ite_none_right_eq_some,
        Option.some.injEq] at hrange
      exact ⟨hrange.1, hrange.2.symm⟩
    obtain rfl : 3 = value := Except.ok.inj ((show (Expr.var x).eval assignment = .ok 3 by
      decide).symm.trans hvalue)
    exact ⟨⟨by decide, by decide⟩, ⟨by decide, by decide⟩, 0, 10, by decide, by decide, by decide,
      by decide⟩
  have hrespects : facts.Respects assignment :=
    ⟨hranges, by simp [facts, Facts.bind, empty]⟩
  have hleft : (Expr.var x).eval assignment = .ok 3 := by decide
  have hright : (Expr.var y).eval assignment = .ok 5 := by decide
  have same : (Expr.var x).dtype = (Expr.var y).dtype := rfl
  have hlt : BinaryOp.isComparison .lt = true ∨ BinaryOp.lt = .min ∨ BinaryOp.lt = .max := .inl rfl
  obtain ⟨hkept, hdenied⟩ := keepsMeaning_iff_of_isUnsigned (by simp [facts, Facts.bind, empty])
    hlt rfl (by decide) (by decide) same hleft hright
    (hrespects.encloses_simplify (by decide) (by decide) hleft)
    (hrespects.encloses_simplify (by decide) (by decide) hright)
  have hfree : ¬((Expr.var x).isConst = true ∧ (Expr.var y).isConst = true) := by decide
  have hwrong : ¬BinaryOp.DecidesRightly .lt
      (facts.differenceBound (facts.simplify (.var x)) (facts.simplify (.var y))) 3 5 := by
    simp only [BinaryOp.DecidesRightly]
    decide +kernel
  exact ⟨fun h => (hkept.mp h).elim hfree hwrong, fun h => (hdenied.mp h).elim hfree hwrong⟩

end Facts

end LoopNest
