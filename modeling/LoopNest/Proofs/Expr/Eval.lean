/-
# Evaluation, node by node

The operands of a node are evaluated from left to right, unless the left one decides, and what
the operator computes is wrapped into the type of the node. Here the value of each kind of node
is put together from the values of its operands, and a value that is given is taken apart again.
What is said about values elsewhere is built on these lemmas.

Whatever an expression evaluates to belongs to its type.
-/

import LoopNest.Expr.Eval
import LoopNest.Proofs.Outcome
import LoopNest.Proofs.Scalar.Residue

namespace LoopNest

namespace BinaryOp

/-- Only logical operators are decided by their left operand. -/
theorem isLogical_of_decidedBy? {op : BinaryOp} {left decided : Int}
    (h : op.decidedBy? left = some decided) : op.isLogical = true := by
  cases op <;> simp_all [decidedBy?, isLogical]

/-- Other operators always look at both operands. -/
theorem decidedBy?_of_not_isLogical {op : BinaryOp} (h : op.isLogical = false) (left : Int) :
    op.decidedBy? left = none := by
  cases op <;> simp_all [decidedBy?, isLogical]

/-- A left operand that decides an operator gives it the value that it would have
with any right operand. -/
theorem compute?_of_decidedBy? {op : BinaryOp} {left decided : Int}
    (h : op.decidedBy? left = some decided) (right : Int) :
    op.compute? left right = some decided := by
  cases op <;> simp only [decidedBy?, Option.ite_none_right_eq_some, reduceCtorEq] at h
  case and => simp [compute?, h.1, ← h.2, truth]
  case or => simp [compute?, h.1, ← h.2, truth]

/-- A truth value as an integer is zero or one. -/
theorem truth_eq_zero_or_one (holds : Bool) : truth holds = 0 ∨ truth holds = 1 := by
  cases holds <;> simp [truth]

/-- A truth value as an integer tells whether it holds. -/
@[simp] theorem truth_eq_zero_iff {holds : Bool} : truth holds = 0 ↔ holds = false := by
  cases holds <;> simp [truth]

/-- Predicates compute truth values. -/
theorem compute?_predicate {op : BinaryOp} (h : op.isPredicate = true) {left right result : Int}
    (hresult : op.compute? left right = some result) : result = 0 ∨ result = 1 := by
  cases op <;> simp_all [isPredicate, isComparison, isLogical, compute?] <;>
    exact hresult ▸ truth_eq_zero_or_one _

/-- A logical operator is a predicate. -/
theorem isPredicate_of_isLogical {op : BinaryOp} (h : op.isLogical = true) :
    op.isPredicate = true := by
  simp [isPredicate, h]

theorem not_isLogical {op : BinaryOp} (h : op.isPredicate = false) : ¬op.isLogical = true := by
  intro hlogical
  rw [isPredicate_of_isLogical hlogical] at h
  cases h

end BinaryOp

namespace Expr

variable {assignment : Assignment} {op : BinaryOp} {e operand lhs rhs : Expr} {dtype : DType}
  {v : Var} {value inner left right result decided : Int}

theorem eval_const : (const dtype value).eval assignment = .ok (dtype.truncate value) := rfl

theorem eval_var : (var v).eval assignment =
    match assignment v with
    | some value => .ok (v.dtype.truncate value)
    | none => .error (.unbound v) := rfl

theorem eval_cast : (cast dtype operand).eval assignment =
    operand.eval assignment >>= fun inner => .ok (dtype.truncate inner) := rfl

theorem eval_neg : (neg operand).eval assignment =
    operand.eval assignment >>= fun inner => .ok (operand.dtype.truncate (-inner)) := rfl

theorem eval_not : (not operand).eval assignment =
    operand.eval assignment >>= fun inner => .ok (BinaryOp.truth (decide (inner = 0))) := rfl

theorem eval_binary : (binary op lhs rhs).eval assignment =
    lhs.eval assignment >>= fun left =>
      match op.decidedBy? left with
      | some decided => .ok decided
      | none =>
        rhs.eval assignment >>= fun right =>
          match op.compute? left right with
          | some result => .ok ((binary op lhs rhs).dtype.truncate result)
          | none => .error (.undefinedDivision (binary op lhs rhs)) := rfl

/-- A literal that lies in its type has the value that is written. -/
theorem eval_const_of_contains (h : dtype.contains value = true) :
    (const dtype value).eval assignment = .ok value := by
  rw [eval_const, DType.truncate_of_contains h]

/-- A variable that is assigned a value of its type has that value. -/
theorem eval_var_of_contains (h : assignment v = some value)
    (hcontains : v.dtype.contains value = true) : (var v).eval assignment = .ok value := by
  rw [eval_var, h]
  exact congrArg Except.ok (DType.truncate_of_contains hcontains)

/-- Viewed at another type, an operand has its wrapped value. -/
theorem eval_cast_of_eval (h : operand.eval assignment = .ok inner) :
    (cast dtype operand).eval assignment = .ok (dtype.truncate inner) := by
  rw [eval_cast, h, ok_bind]

theorem eval_neg_of_eval (h : operand.eval assignment = .ok inner) :
    (neg operand).eval assignment = .ok (operand.dtype.truncate (-inner)) := by
  rw [eval_neg, h, ok_bind]

theorem eval_not_of_eval (h : operand.eval assignment = .ok inner) :
    (not operand).eval assignment = .ok (BinaryOp.truth (decide (inner = 0))) := by
  rw [eval_not, h, ok_bind]

/-- A left operand that decides gives the node its value. The right one is not evaluated. -/
theorem eval_binary_of_decidedBy? (hleft : lhs.eval assignment = .ok left)
    (hdecided : op.decidedBy? left = some decided) :
    (binary op lhs rhs).eval assignment = .ok decided := by
  rw [eval_binary, hleft, ok_bind, hdecided]

/-- An operator that is undefined at the values of its operands is blamed. -/
theorem eval_binary_of_compute?_eq_none (hleft : lhs.eval assignment = .ok left)
    (hright : rhs.eval assignment = .ok right) (hnone : op.compute? left right = none) :
    (binary op lhs rhs).eval assignment = .error (.undefinedDivision (binary op lhs rhs)) := by
  cases hdecided : op.decidedBy? left with
  | none => rw [eval_binary, hleft, ok_bind, hdecided, hright, ok_bind, hnone]
  | some decided =>
      rw [BinaryOp.compute?_of_decidedBy? hdecided right] at hnone
      cases hnone

/-- A node whose operands have values has the value that its operator computes. -/
theorem eval_binary_of_eval (hleft : lhs.eval assignment = .ok left)
    (hright : rhs.eval assignment = .ok right) (hresult : op.compute? left right = some result) :
    (binary op lhs rhs).eval assignment = .ok ((binary op lhs rhs).dtype.truncate result) := by
  cases hdecided : op.decidedBy? left with
  | none => rw [eval_binary, hleft, ok_bind, hdecided, hright, ok_bind, hresult]
  | some decided =>
      have heq := BinaryOp.compute?_of_decidedBy? hdecided right
      rw [hresult, Option.some.injEq] at heq
      have hpredicate := BinaryOp.isPredicate_of_isLogical
        (BinaryOp.isLogical_of_decidedBy? hdecided)
      have hbool : (binary op lhs rhs).dtype = .bool := by simp [Expr.dtype, hpredicate]
      have htruth := DType.contains_bool_iff.mpr
        (BinaryOp.compute?_predicate hpredicate hresult)
      rw [hbool, DType.truncate_of_contains htruth, heq]
      exact eval_binary_of_decidedBy? hleft hdecided

/-- A node that has a value got it from its left operand alone or from both. -/
theorem eval_binary_inv (h : (binary op lhs rhs).eval assignment = .ok value) :
    ∃ left, lhs.eval assignment = .ok left ∧
      (op.decidedBy? left = some value ∨
        op.decidedBy? left = none ∧ ∃ right result, rhs.eval assignment = .ok right ∧
          op.compute? left right = some result ∧
          value = (binary op lhs rhs).dtype.truncate result) := by
  rw [eval_binary, bind_eq_ok] at h
  obtain ⟨left, hleft, h⟩ := h
  refine ⟨left, hleft, ?_⟩
  cases hdecided : op.decidedBy? left with
  | some decided =>
      rw [hdecided] at h
      exact .inl (congrArg some (Except.ok.inj h))
  | none =>
      rw [hdecided] at h
      obtain ⟨right, hright, h⟩ := bind_eq_ok.mp h
      cases hresult : op.compute? left right with
      | none =>
          rw [hresult] at h
          cases h
      | some result =>
          rw [hresult] at h
          exact .inr ⟨rfl, right, result, hright, hresult, (Except.ok.inj h).symm⟩

/-- A node that does not join truth values evaluates both operands. -/
theorem eval_binary_inv_of_not_isLogical (hop : op.isLogical = false)
    (h : (binary op lhs rhs).eval assignment = .ok value) :
    ∃ left right result, lhs.eval assignment = .ok left ∧ rhs.eval assignment = .ok right ∧
      op.compute? left right = some result ∧
      value = (binary op lhs rhs).dtype.truncate result := by
  obtain ⟨left, hleft, hdecided | ⟨-, right, result, hright, hresult, hvalue⟩⟩ :=
    eval_binary_inv h
  · simp [BinaryOp.decidedBy?_of_not_isLogical hop] at hdecided
  · exact ⟨left, right, result, hleft, hright, hresult, hvalue⟩

/-- The value of a negation. -/
theorem eval_neg_inv (h : (neg operand).eval assignment = .ok value) :
    ∃ inner, operand.eval assignment = .ok inner ∧ value = operand.dtype.truncate (-inner) := by
  obtain ⟨inner, hinner, hvalue⟩ := bind_eq_ok.mp h
  exact ⟨inner, hinner, (Except.ok.inj hvalue).symm⟩

/-- The value of a complement. -/
theorem eval_not_inv (h : (not operand).eval assignment = .ok value) :
    ∃ inner, operand.eval assignment = .ok inner ∧
      value = BinaryOp.truth (decide (inner = 0)) := by
  obtain ⟨inner, hinner, hvalue⟩ := bind_eq_ok.mp h
  exact ⟨inner, hinner, (Except.ok.inj hvalue).symm⟩

/-- The value of a cast. -/
theorem eval_cast_inv (h : (cast dtype operand).eval assignment = .ok value) :
    ∃ inner, operand.eval assignment = .ok inner ∧ value = dtype.truncate inner := by
  obtain ⟨inner, hinner, hvalue⟩ := bind_eq_ok.mp h
  exact ⟨inner, hinner, (Except.ok.inj hvalue).symm⟩

/-- A variable that has a value has the wrapped one that it is assigned. -/
theorem eval_var_inv (h : (var v).eval assignment = .ok value) :
    ∃ x, assignment v = some x ∧ value = v.dtype.truncate x := by
  rw [eval_var] at h
  cases hv : assignment v with
  | none =>
      rw [hv] at h
      cases h
  | some x =>
      rw [hv] at h
      exact ⟨x, rfl, (Except.ok.inj h).symm⟩

/-- The value of a variable belongs to its type, whatever the assignment says. -/
theorem eval_var_contains (h : (var v).eval assignment = .ok value) :
    v.dtype.contains value = true := by
  obtain ⟨x, -, rfl⟩ := eval_var_inv h
  exact DType.contains_truncate _ _

/-- The value of an expression belongs to its type. -/
theorem eval_contains (h : e.eval assignment = .ok value) :
    e.dtype.contains value = true := by
  cases e with
  | const dtype literal => exact Except.ok.inj h ▸ DType.contains_truncate _ _
  | var v => exact eval_var_contains h
  | cast dtype source =>
      obtain ⟨inner, -, rfl⟩ := eval_cast_inv h
      exact DType.contains_truncate _ _
  | neg operand =>
      obtain ⟨inner, -, rfl⟩ := eval_neg_inv h
      exact DType.contains_truncate _ _
  | not operand =>
      obtain ⟨inner, -, rfl⟩ := eval_not_inv h
      exact DType.contains_bool_iff.mpr (BinaryOp.truth_eq_zero_or_one _)
  | binary op lhs rhs =>
      obtain ⟨left, -, hdecided | ⟨-, right, result, -, -, rfl⟩⟩ := eval_binary_inv h
      · have hlogical := BinaryOp.isLogical_of_decidedBy? hdecided
        have hpredicate := BinaryOp.isPredicate_of_isLogical hlogical
        have hbool : (binary op lhs rhs).dtype = .bool := by simp [Expr.dtype, hpredicate]
        rw [hbool, DType.contains_bool_iff]
        exact BinaryOp.compute?_predicate hpredicate
          (BinaryOp.compute?_of_decidedBy? hdecided 0)
      · exact DType.contains_truncate _ _

end Expr

end LoopNest
