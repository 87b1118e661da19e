/-
# Facts that agree on an expression

The analysis learns about an expression from the bounds of the variables that the expression
mentions, and in no other way. Facts that give these variables the same bounds simplify the
expression to the same tree; if they also hold the same constraints, they prove the same
predicates. An expression without variables is treated alike by all facts, even where it is
not folded to a literal because a division by zero or an overflow keeps it from being one.
-/

import LoopNest.Facts.Prove
import LoopNest.Proofs.Facts.Mentions

namespace LoopNest

/-- The bound of an expression depends on the bounds of the variables it mentions. -/
theorem Bound.ofExpr_congr {left right : Var → Bound} {e : Expr}
    (h : ∀ v, e.mentions v = true → left v = right v) : ofExpr left e = ofExpr right e := by
  induction e with
  | const dtype value => rfl
  | var v => rw [ofExpr, ofExpr, h v (Expr.mentions_var_self v)]
  | cast dtype source ih => rw [ofExpr, ofExpr, ih h]
  | neg operand ih => rw [ofExpr, ofExpr, ih h]
  | not operand ih => rw [ofExpr, ofExpr, ih h]
  | binary op lhs rhs ihl ihr =>
      simp only [Expr.mentions_binary, Bool.or_eq_true] at h
      rw [ofExpr, ofExpr, ihl fun v hv => h v (.inl hv), ihr fun v hv => h v (.inr hv)]

namespace Facts

variable {facts other : Facts} {e lhs rhs : Expr} {op : BinaryOp}

/-- Facts agree on an expression if it mentions only variables that have the same bounds under
both. -/
def AgreeOn (facts other : Facts) (e : Expr) : Prop :=
  ∀ v, facts.varBound followDepth v ≠ other.varBound followDepth v → e.mentions v = false

/-- All facts agree on an expression without variables. -/
theorem agreeOn_of_closed (h : ∀ v, e.mentions v = false) : facts.AgreeOn other e :=
  fun v _ => h v

namespace AgreeOn

theorem operands (h : facts.AgreeOn other (.binary op lhs rhs)) :
    facts.AgreeOn other lhs ∧ facts.AgreeOn other rhs :=
  ⟨fun v hv => (Bool.or_eq_false_iff.mp (h v hv)).1,
    fun v hv => (Bool.or_eq_false_iff.mp (h v hv)).2⟩

theorem combine (op : BinaryOp) (hlhs : facts.AgreeOn other lhs)
    (hrhs : facts.AgreeOn other rhs) : facts.AgreeOn other (.combine op lhs rhs) :=
  fun v hv => Expr.mentions_combine (hlhs v hv) (hrhs v hv)

theorem castTo (h : facts.AgreeOn other e) (dtype : DType) :
    facts.AgreeOn other (e.castTo dtype) :=
  fun v hv => Expr.mentions_castTo (h v hv) dtype

theorem normalize (h : facts.AgreeOn other e) : facts.AgreeOn other e.normalize :=
  fun v hv => (Expr.stable_mentions v).normalize (h v hv)

theorem rest (h : facts.AgreeOn other e) (divisor : Int) :
    facts.AgreeOn other ((LinearForm.ofExpr e).remainingPart divisor).toExpr :=
  fun v hv => (Expr.stable_mentions v).rest (h v hv) divisor

theorem simplify (h : facts.AgreeOn other e) (some : Facts) :
    facts.AgreeOn other (some.simplify e) :=
  fun v hv => some.mentions_simplify (h v hv)

theorem bound_eq (h : facts.AgreeOn other e) : facts.bound e = other.bound e :=
  Bound.ofExpr_congr fun v hv => by
    by_contra hdiffer
    rw [h v hdiffer] at hv
    cases hv

theorem collapse_eq (h : facts.AgreeOn other e) : facts.collapse e = other.collapse e := by
  rw [collapse, collapse, h.bound_eq]

theorem withinDivisor_eq (h : facts.AgreeOn other e) (divisor : Int) :
    facts.withinDivisor e divisor = other.withinDivisor e divisor := by
  rw [withinDivisor, withinDivisor, h.bound_eq]

theorem divideLinear_eq (h : facts.AgreeOn other e) (divisor : Int) :
    facts.divideLinear e divisor = other.divideLinear e divisor := by
  rw [divideLinear, divideLinear, quotientOfRest?, quotientOfRest?,
    (h.rest divisor).withinDivisor_eq]

theorem simplifyDiv_eq (h : facts.AgreeOn other e) (divisor : Int) :
    facts.simplifyDiv e divisor = other.simplifyDiv e divisor := by
  fun_induction simplifyDiv facts e divisor with
  | case1 dividend inner divisor product hproduct ih =>
      rw [ih h.operands.1, simplifyDiv, hproduct]
  | case2 dividend inner divisor hnone =>
      rw [h.divideLinear_eq, simplifyDiv, hnone]
  | case3 e divisor hother => rw [h.divideLinear_eq, simplifyDiv.eq_2 _ _ _ hother]

theorem simplifyMod_eq (h : facts.AgreeOn other e) (divisor : Int) :
    facts.simplifyMod e divisor = other.simplifyMod e divisor := by
  rw [simplifyMod, simplifyMod, (h.rest divisor).withinDivisor_eq]

section Operands

variable (hlhs : facts.AgreeOn other lhs) (hrhs : facts.AgreeOn other rhs)
include hlhs hrhs

theorem differenceBound_eq : facts.differenceBound lhs rhs = other.differenceBound lhs rhs :=
  (combine .sub hlhs hrhs).normalize.bound_eq

theorem simplifyComparison_eq (op : BinaryOp) :
    facts.simplifyComparison op lhs rhs = other.simplifyComparison op lhs rhs := by
  rw [simplifyComparison, simplifyComparison, differenceBound_eq hlhs hrhs]

theorem simplifyNode_eq (op : BinaryOp) :
    facts.simplifyNode op lhs rhs = other.simplifyNode op lhs rhs := by
  cases op with
  | add | sub | mul | and | or => rfl
  | floorDiv =>
      simp only [simplifyNode]
      split
      · exact hlhs.simplifyDiv_eq _
      · rfl
  | floorMod =>
      simp only [simplifyNode]
      split
      · exact hlhs.simplifyMod_eq _
      · rfl
  | min => simp only [simplifyNode, simplifyMin, differenceBound_eq hlhs hrhs]
  | max => simp only [simplifyNode, simplifyMax, differenceBound_eq hlhs hrhs]
  | lt | le | eq | ne => exact simplifyComparison_eq hlhs hrhs _

end Operands

theorem simplifyNot_eq (h : facts.AgreeOn other e) :
    facts.simplifyNot e = other.simplifyNot e := by
  unfold simplifyNot
  split
  case h_5 | h_6 => rfl
  all_goals
    obtain ⟨hlhs, hrhs⟩ := h.operands
    first
    | exact simplifyComparison_eq hlhs hrhs _
    | exact simplifyComparison_eq hrhs hlhs _

/-- Facts that agree on an expression simplify it alike. -/
theorem simplify_eq (h : facts.AgreeOn other e) : facts.simplify e = other.simplify e := by
  induction e with
  | const | var => exact h.collapse_eq
  | cast dtype source ih =>
      have hsource : facts.AgreeOn other source := h
      rw [Facts.simplify, Facts.simplify, ih hsource]
      exact ((hsource.simplify other).castTo dtype).collapse_eq
  | neg operand ih =>
      have hoperand : facts.AgreeOn other operand := h
      have hnegated : facts.AgreeOn other (other.simplify operand).negate :=
        fun v hv => Expr.mentions_negate (hoperand.simplify other v hv)
      rw [Facts.simplify, Facts.simplify, ih hoperand]
      exact hnegated.normalize.collapse_eq
  | not operand ih =>
      have hoperand : facts.AgreeOn other operand := h
      have hnegated : facts.AgreeOn other (other.simplifyNot (other.simplify operand)) :=
        fun v hv => (Expr.stable_mentions v).simplifyNot other (hoperand.simplify other v hv)
      rw [Facts.simplify, Facts.simplify, ih hoperand,
        (hoperand.simplify other).simplifyNot_eq]
      exact hnegated.collapse_eq
  | binary op lhs rhs ihl ihr =>
      obtain ⟨hlhs, hrhs⟩ := h.operands
      have hnode : facts.AgreeOn other
          (other.simplifyNode op (other.simplify lhs) (other.simplify rhs)) :=
        fun v hv => (Expr.stable_mentions v).simplifyNode other (hlhs.simplify other v hv)
          (hrhs.simplify other v hv)
      rw [Facts.simplify, Facts.simplify, ihl hlhs, ihr hrhs,
        simplifyNode_eq (hlhs.simplify other) (hrhs.simplify other)]
      exact hnode.collapse_eq

/-- Facts with the same constraints prove the same predicates among those they agree on. The
induction is on the number of conjunctions that the search may open. -/
theorem proves_eq (h : facts.AgreeOn other e)
    (hconstraints : facts.constraints = other.constraints) :
    facts.proves e = other.proves e := by
  have hassumed : ∀ p, facts.isAssumed p = other.isAssumed p := fun p => by
    rw [isAssumed, isAssumed, hconstraints]
  have hwithin : ∀ depth e, facts.AgreeOn other e →
      facts.provesWithin depth e = other.provesWithin depth e := by
    intro depth
    induction depth with
    | zero => exact fun _ _ => rfl
    | succ depth ih =>
        intro e h
        rw [provesWithin, provesWithin, hassumed, h.simplify_eq]
        split
        · rfl
        · have hsimplified := h.simplify other
          simp only
          split
          · rfl
          · rename_i lhs rhs heq
            rw [heq] at hsimplified
            rw [ih lhs hsimplified.operands.1, ih rhs hsimplified.operands.2]
          · exact hassumed _
  exact hwithin _ e h

end AgreeOn

end Facts

end LoopNest
