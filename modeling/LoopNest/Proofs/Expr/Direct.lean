/-
# Folding and direct evaluation

What an operator means says nothing about folding: its operands are brought to one type, the
left one is evaluated and then, unless it decides a conjunction or disjunction, the right one,
and what the operator computes from the two values is wrapped into the type of the result. The
folding constructors build expressions with just that value and type, also where literals
wrap, where an offset changes its sign and where an operand that is not looked at has no
value. Negation, complement and cast likewise wrap the opposite, the denied truth and the
value itself.

The converse is not claimed. A constructor that drops an operand, as in a product with zero,
gives a value even where that operand has none.
-/

import LoopNest.Proofs.Expr.Built

namespace LoopNest

/-- The value that an operator gives directly, from what its two operands of one type evaluate
to. There is none where an operand that is looked at has none or a division is undefined. -/
inductive BinaryOp.Gives (op : BinaryOp) (operand : DType) (left right : Except EvalError Int) :
    Int → Prop
  | decided {x value : Int} (hleft : left = .ok x) (h : op.decidedBy? x = some value) :
      Gives op operand left right value
  | computed {x y result : Int} (hleft : left = .ok x) (undecided : op.decidedBy? x = none)
      (hright : right = .ok y) (h : op.compute? x y = some result) :
      Gives op operand left right ((Expr.resultType op operand).truncate result)

namespace Expr

variable {e lhs rhs : Expr} {op : BinaryOp} {assignment : Assignment} {value : Int}

/-- A bare node has the value that its operator gives. -/
theorem eval_binary_of_gives
    (h : op.Gives lhs.dtype (lhs.eval assignment) (rhs.eval assignment) value) :
    (binary op lhs rhs).eval assignment = .ok value := by
  cases h with
  | decided hleft hdecided => exact eval_binary_of_decidedBy? hleft hdecided
  | computed hleft _ hright hresult => exact eval_binary_of_eval hleft hright hresult

/-- Truth values that are joined logically need no promotion. -/
theorem dtype_promote_of_isLogical (hjoins : JoinsTruth op lhs rhs) (hlogical : op.isLogical = true) :
    (promote lhs rhs).1.dtype = .bool := by
  obtain ⟨hleft, hright⟩ := hjoins hlogical
  rw [promote_of_dtype_eq (hleft.trans hright.symm), hleft]

/-- Joining any operands gives an expression of the type of the result. -/
theorem dtype_combine_of_joinsTruth (hjoins : JoinsTruth op lhs rhs) :
    (combine op lhs rhs).dtype = resultType op (promote lhs rhs).1.dtype := by
  rw [← combine_promote]
  exact dtype_combine (dtype_promote lhs rhs) (dtype_promote_of_isLogical hjoins)

/-- Joining any operands gives the value that the operator gives to the promoted ones. -/
theorem eval_combine_of_gives (hlhs : lhs.LiteralFits) (hrhs : rhs.LiteralFits)
    (hjoins : JoinsTruth op lhs rhs)
    (h : op.Gives (promote lhs rhs).1.dtype ((promote lhs rhs).1.eval assignment)
      ((promote lhs rhs).2.eval assignment) value) :
    (combine op lhs rhs).eval assignment = .ok value := by
  have hoperands := literalFits_promote hlhs hrhs
  rw [← combine_promote]
  exact hoperands.1.eval_combine hoperands.2 (dtype_promote lhs rhs)
    (dtype_promote_of_isLogical hjoins) (eval_binary_of_gives h)

/-- What a unary constructor builds has a given type, and the wrapped result of a computation on
the value of the operand. -/
structure Wraps (e built : Expr) (dtype : DType) (compute : Int → Int) : Prop where
  dtype_eq : built.dtype = dtype
  eval : ∀ (assignment : Assignment) (x : Int), e.eval assignment = .ok x →
    built.eval assignment = .ok (dtype.truncate (compute x))

theorem LiteralFits.wraps_negate (h : e.LiteralFits) : Wraps e e.negate e.dtype fun x => -x :=
  ⟨dtype_negate e, fun _ _ hx => h.eval_negate hx⟩

theorem LiteralFits.wraps_complement (h : e.LiteralFits) :
    Wraps e e.complement .bool fun x => BinaryOp.truth (decide (x = 0)) := by
  refine ⟨dtype_complement e, fun _ x hx => ?_⟩
  have htruth := DType.contains_bool_iff.mpr (BinaryOp.truth_eq_zero_or_one (decide (x = 0)))
  rw [h.eval_complement hx, DType.truncate_of_contains htruth]

theorem LiteralFits.wraps_castTo (h : e.LiteralFits) (dtype : DType) :
    Wraps e (e.castTo dtype) dtype fun x => x :=
  ⟨dtype_castTo e dtype, fun _ _ hx => h.eval_castTo hx dtype⟩

/-- Folding changes neither the type nor the value of what is put together: an operator between
any operands gives what it gives to the promoted operands directly, and negation, complement
and cast give the wrapped opposite, denied truth and value. -/
theorem Built.folding_is_direct (hlhs : lhs.Built JoinsAll) (hrhs : rhs.Built JoinsAll) :
    (∀ op, JoinsTruth op lhs rhs →
      (promote lhs rhs).1.dtype = (promote lhs rhs).2.dtype ∧
      (Expr.combine op lhs rhs).dtype = resultType op (promote lhs rhs).1.dtype ∧
      ∀ assignment value,
        op.Gives (promote lhs rhs).1.dtype ((promote lhs rhs).1.eval assignment)
          ((promote lhs rhs).2.eval assignment) value →
        (Expr.combine op lhs rhs).eval assignment = .ok value) ∧
    Wraps lhs lhs.negate lhs.dtype (fun x => -x) ∧
    Wraps lhs lhs.complement .bool (fun x => BinaryOp.truth (decide (x = 0))) ∧
    ∀ dtype, Wraps lhs (lhs.castTo dtype) dtype fun x => x := by
  have hfits := hlhs.literalFits
  refine ⟨fun op hjoins => ⟨dtype_promote lhs rhs, dtype_combine_of_joinsTruth hjoins, ?_⟩,
    hfits.wraps_negate, hfits.wraps_complement, hfits.wraps_castTo⟩
  intro assignment value hgives
  exact eval_combine_of_gives hfits hrhs.literalFits hjoins hgives

section Offset

/-- The least value of 8 bits as an offset. Its opposite wraps to itself. -/
def leastOffset : Expr :=
  literal .int8 (-128)

/-- The sum with the least offset is stored as a difference, and at -100 it wraps to 28. -/
theorem folding_is_direct_of_leastOffset :
    (var byteVar).add leastOffset = binary .sub (var byteVar) leastOffset ∧
      ((var byteVar).add leastOffset).dtype = .int8 ∧
      ((var byteVar).add leastOffset).eval (fun _ => some (-100)) = .ok 28 ∧
      leastOffset.negate.eval (fun _ => none) = .ok (-128) := by
  have hdirect := Built.folding_is_direct (.var byteVar) (.literal .int8 (-128))
  have hnegate := (Built.folding_is_direct (.literal .int8 (-128)) (.var byteVar)).2.1
  obtain ⟨-, hdtype, heval⟩ := hdirect.1 .add (joinsTruth_of_not_isLogical rfl)
  have hgives : BinaryOp.add.Gives .int8 (.ok (-100)) (.ok (-128))
      (DType.int8.truncate (-100 + -128)) := .computed rfl rfl rfl rfl
  exact ⟨by decide, hdtype, heval (fun _ => some (-100)) 28 hgives, hnegate.eval _ (-128) rfl⟩

end Offset

end Expr

end LoopNest
