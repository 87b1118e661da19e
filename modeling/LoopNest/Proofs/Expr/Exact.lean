/-
# Exact evaluation

The analysis reasons about integers, while evaluation wraps. The two agree as long
as no node that is evaluated leaves its type, and the bounds can be trusted as long
as every value met on the way is finite. An expression with both properties at an
assignment is exact there. A cast is allowed to narrow, because its bound says so.

Only what is evaluated counts: behind an operand that decides a conjunction or a
disjunction anything may stand.
-/

import LoopNest.Proofs.Bound.Endpoint
import LoopNest.Proofs.Expr.Formed

namespace LoopNest.Expr

open Endpoint (IsFinite)

variable {assignment : Assignment} {op : BinaryOp} {lhs rhs : Expr} {value : Int}

/-- A property holds of the value of an expression, if it has one. -/
def IfValue (assignment : Assignment) (e : Expr) (holds : Int → Prop) : Prop :=
  ∀ value, e.eval assignment = .ok value → holds value

instance (e : Expr) (holds : Int → Prop) [DecidablePred holds] :
    Decidable (e.IfValue assignment holds) :=
  match h : e.eval assignment with
  | .ok value =>
    decidable_of_iff (holds value)
      ⟨fun hvalue _ heq => Except.ok.inj (h.symm.trans heq) ▸ hvalue, fun hall => hall value h⟩
  | .error _ => isTrue fun _ heq => nomatch h.symm.trans heq

/-- What an operator computes from two values keeps within a type, unless it is a
truth value anyway. -/
def ComputesWithin (dtype : DType) (op : BinaryOp) (left right : Int) : Prop :=
  ∀ result ∈ op.compute? left right, op.isPredicate = false →
    dtype.contains result = true ∧ IsFinite result

instance (dtype : DType) (op : BinaryOp) (left right : Int) :
    Decidable (ComputesWithin dtype op left right) :=
  inferInstanceAs (Decidable (∀ result ∈ op.compute? left right, _ → _))

/-- No evaluated node leaves its type, and every evaluated literal, variable and
arithmetic node is finite. -/
def Exact (assignment : Assignment) : Expr → Prop
  | const _ value => IsFinite value
  | var v => (var v).IfValue assignment IsFinite
  | cast _ source => source.Exact assignment
  | neg operand =>
    operand.Exact assignment ∧ operand.IfValue assignment fun value =>
      operand.dtype.contains (-value) = true ∧ IsFinite (-value)
  | not operand => operand.Exact assignment
  | binary op lhs rhs =>
    lhs.Exact assignment ∧ lhs.IfValue assignment fun left =>
      op.decidedBy? left = none →
        rhs.Exact assignment ∧ rhs.IfValue assignment (ComputesWithin lhs.dtype op left)

instance decidableExact : DecidablePred (Exact assignment)
  | const _ value => inferInstanceAs (Decidable (IsFinite value))
  | var v => inferInstanceAs (Decidable ((var v).IfValue assignment IsFinite))
  | cast _ source => decidableExact source
  | neg operand =>
    haveI := decidableExact operand
    inferInstanceAs (Decidable (operand.Exact assignment ∧
      operand.IfValue assignment fun value =>
        operand.dtype.contains (-value) = true ∧ IsFinite (-value)))
  | not operand => decidableExact operand
  | binary op lhs rhs =>
    haveI := decidableExact lhs
    haveI := decidableExact rhs
    inferInstanceAs (Decidable (lhs.Exact assignment ∧ lhs.IfValue assignment fun left =>
      op.decidedBy? left = none →
        rhs.Exact assignment ∧ rhs.IfValue assignment (ComputesWithin lhs.dtype op left)))

/-- An exact negation has the opposite value. -/
theorem Exact.eval_neg {operand : Expr} (h : (neg operand).Exact assignment)
    (hvalue : (neg operand).eval assignment = .ok value) :
    operand.Exact assignment ∧ operand.eval assignment = .ok (-value) ∧
      IsFinite value := by
  obtain ⟨inner, hinner, rfl⟩ := eval_neg_inv hvalue
  obtain ⟨hcontains, hfinite⟩ := h.2 inner hinner
  rw [DType.truncate_of_contains hcontains, neg_neg]
  exact ⟨h.1, hinner, hfinite⟩

/-- An exact node that evaluates both operands has the value that its operator
computes from two exact values. -/
theorem Exact.eval_operands (h : (binary op lhs rhs).Exact assignment) {left right result : Int}
    (hleft : lhs.eval assignment = .ok left) (hopen : op.decidedBy? left = none)
    (hright : rhs.eval assignment = .ok right) (hresult : op.compute? left right = some result)
    (hvalue : value = (binary op lhs rhs).dtype.truncate result) :
    rhs.Exact assignment ∧ value = result ∧ IsFinite value := by
  obtain ⟨hexact, hwithin⟩ := h.2 left hleft hopen
  cases hpredicate : op.isPredicate with
  | true =>
      have htruth := BinaryOp.compute?_predicate hpredicate hresult
      have hbool : (binary op lhs rhs).dtype = .bool := by simp [dtype, hpredicate]
      rw [hbool, DType.truncate_of_contains (DType.contains_bool_iff.mpr htruth)] at hvalue
      refine ⟨hexact, hvalue, ?_⟩
      rcases htruth with rfl | rfl <;> subst hvalue <;> decide
  | false =>
      obtain ⟨hcontains, hfinite⟩ := hwithin right hright result hresult hpredicate
      have hdtype : (binary op lhs rhs).dtype = lhs.dtype := by simp [dtype, hpredicate]
      rw [hdtype, DType.truncate_of_contains hcontains] at hvalue
      exact ⟨hexact, hvalue, hvalue ▸ hfinite⟩

/-- An exact node of an operator that is not logical. -/
theorem Exact.eval_binary (h : (binary op lhs rhs).Exact assignment)
    (hop : op.isLogical = false)
    (hvalue : (binary op lhs rhs).eval assignment = .ok value) :
    ∃ left right, lhs.eval assignment = .ok left ∧ rhs.eval assignment = .ok right ∧
      rhs.Exact assignment ∧ op.compute? left right = some value ∧ IsFinite value := by
  obtain ⟨left, right, result, hleft, hright, hresult, heq⟩ :=
    eval_binary_inv_of_not_isLogical hop hvalue
  obtain ⟨hexact, rfl, hfinite⟩ :=
    h.eval_operands hleft (BinaryOp.decidedBy?_of_not_isLogical hop left) hright hresult heq
  exact ⟨left, right, hleft, hright, hexact, hresult, hfinite⟩

end LoopNest.Expr
