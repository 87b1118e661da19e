/-
# Variables that are mentioned

The value of an expression depends on the variables that it mentions only, and no variable
is put into an expression that is not there: the folding constructors mention nothing but
what their operands mention, and simplifying under any facts mentions nothing but what the
expression did. In particular no constraint or range that is looked at finds its way into
the result.
-/

import LoopNest.Proofs.Facts.Stable

namespace LoopNest

namespace Expr

variable {e lhs rhs : Expr} {op : BinaryOp} {v : Var} {assignment other : Assignment}

@[simp] theorem mentions_literal (dtype : DType) (value : Int) :
    (literal dtype value).mentions v = false := rfl

@[simp] theorem mentions_ofBool (holds : Bool) : (ofBool holds).mentions v = false := rfl

theorem mentions_binary :
    (binary op lhs rhs).mentions v = (lhs.mentions v || rhs.mentions v) := rfl

theorem mentions_var_self (v : Var) : (var v).mentions v = true :=
  decide_eq_true rfl

/-- Assignments that agree on what an expression mentions give it the same value. -/
theorem eval_congr (h : ∀ v, e.mentions v = true → assignment v = other v) :
    e.eval assignment = e.eval other := by
  induction e with
  | const dtype value => rfl
  | var v => rw [eval_var, eval_var, h v (mentions_var_self v)]
  | cast dtype source ih => rw [eval_cast, eval_cast, ih h]
  | neg operand ih => rw [eval_neg, eval_neg, ih h]
  | not operand ih => rw [eval_not, eval_not, ih h]
  | binary op lhs rhs ihl ihr =>
      simp only [mentions_binary, Bool.or_eq_true] at h
      rw [eval_binary, eval_binary, ihl fun v hv => h v (.inl hv), ihr fun v hv => h v (.inr hv)]

theorem mentions_castTo (h : e.mentions v = false) (dtype : DType) :
    (e.castTo dtype).mentions v = false := by
  unfold castTo
  split
  · exact h
  · split
    · rfl
    · exact h

theorem stable_mentions (v : Var) : Stable fun e => e.mentions v = false where
  literal _ _ := rfl
  ofCast h := h
  castTo := mentions_castTo
  neg_iff := Iff.rfl
  not_iff := Iff.rfl
  binary_iff := Bool.or_eq_false_iff

theorem mentions_negate (h : e.mentions v = false) : e.negate.mentions v = false :=
  (stable_mentions v).negate h

theorem mentions_complement (h : e.mentions v = false) : e.complement.mentions v = false :=
  (stable_mentions v).complement h

/-- Joining expressions mentions no new variable. -/
theorem mentions_combine (hlhs : lhs.mentions v = false) (hrhs : rhs.mentions v = false) :
    (combine op lhs rhs).mentions v = false :=
  (stable_mentions v).combine hlhs hrhs

end Expr

namespace Facts

variable {e : Expr} {v : Var} (facts : Facts)

/-- Simplifying mentions no new variable. -/
theorem mentions_simplify (h : e.mentions v = false) : (facts.simplify e).mentions v = false :=
  (Expr.stable_mentions v).simplify facts h

/-- A simplified expression has the same value wherever the variables of the original have
the same values. -/
theorem eval_simplify_congr {assignment other : Assignment}
    (h : ∀ v, e.mentions v = true → assignment v = other v) :
    (facts.simplify e).eval assignment = (facts.simplify e).eval other := by
  refine Expr.eval_congr fun v hv => h v ?_
  by_contra hfree
  rw [facts.mentions_simplify (Bool.eq_false_iff.mpr hfree)] at hv
  cases hv

end Facts

end LoopNest
