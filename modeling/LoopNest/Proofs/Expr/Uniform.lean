/-
# Uniform expressions

Arithmetic is uniform when its literals lie in their type and its operands share theirs. What
arithmetic starts from, a variable, a cast or the answer to a question, may be anything, so an
expression that joins numbers logically somewhere inside is uniform as well. This is what
residues need: an arithmetic node wraps to the same residue as its operands only if they are
of its type.

Whatever the folding constructors build is uniform. A logical operator leaves an operand, a
literal or an answer.
-/

import LoopNest.Proofs.Expr.Fold

namespace LoopNest.Expr

variable {e lhs rhs : Expr} {op : BinaryOp} {dtype : DType}

/-- Literals lie in their types and the operands of arithmetic share theirs, down to what
arithmetic starts from. -/
def Uniform : Expr → Prop
  | const dtype value => dtype.contains value = true
  | var _ | cast _ _ | not _ => True
  | neg operand => operand.Uniform
  | binary op lhs rhs => op.isPredicate = false → lhs.Uniform ∧ rhs.Uniform ∧ lhs.dtype = rhs.dtype

theorem Formed.uniform (h : e.Formed) : e.Uniform := by
  induction e with
  | const => exact h
  | var => trivial
  | cast => trivial
  | neg operand ih => exact ih h
  | not => trivial
  | binary op lhs rhs ihl ihr => exact fun _ => ⟨ihl h.1, ihr h.2.1, h.2.2.1⟩

theorem Uniform.literalFits (h : e.Uniform) : e.LiteralFits := by
  intro value hvalue
  cases e <;> simp only [value?, Option.some.injEq, reduceCtorEq] at hvalue
  case const => exact hvalue ▸ h

theorem uniform_literal (dtype : DType) (value : Int) : (literal dtype value).Uniform :=
  DType.contains_truncate dtype value

theorem Uniform.castTo (h : e.Uniform) (dtype : DType) : (e.castTo dtype).Uniform := by
  unfold Expr.castTo
  split
  · exact h
  · split
    · exact uniform_literal _ _
    · trivial

theorem Uniform.negate (h : e.Uniform) : e.negate.Uniform := by
  unfold Expr.negate
  split
  · exact uniform_literal _ _
  · exact h

theorem uniform_complement (e : Expr) : e.complement.Uniform := by
  unfold complement
  split
  · exact uniform_literal _ _
  · trivial

theorem uniform_foldNode (hlhs : lhs.Uniform) (hrhs : rhs.Uniform) (same : lhs.dtype = rhs.dtype) :
    (foldNode op lhs rhs).Uniform :=
  foldNode_cases uniform_literal hlhs hrhs (fun _ => ⟨hlhs, hrhs, same⟩)
    fun _ _ _ _ => ⟨hlhs, uniform_literal _ _, rfl⟩

/-- Joining any operands keeps them uniform, since promotion views both at one type. -/
theorem Uniform.combine (hlhs : lhs.Uniform) (hrhs : rhs.Uniform) :
    (combine op lhs rhs).Uniform := by
  have hoperands : (promote lhs rhs).1.Uniform ∧ (promote lhs rhs).2.Uniform := by
    rw [promote_eq_castTo]
    exact ⟨hlhs.castTo _, hrhs.castTo _⟩
  exact uniform_foldNode hoperands.1 hoperands.2 (dtype_promote lhs rhs)

/-- Uniform and of a given type. -/
structure UniformAt (dtype : DType) (e : Expr) : Prop where
  uniform : e.Uniform
  dtype_eq : e.dtype = dtype

namespace UniformAt

theorem literal (value : Int) : (Expr.literal dtype value).UniformAt dtype :=
  ⟨uniform_literal dtype value, rfl⟩

theorem negate (h : e.UniformAt dtype) : e.negate.UniformAt dtype :=
  ⟨h.uniform.negate, (dtype_negate e).trans h.dtype_eq⟩

/-- Arithmetic keeps the type of its operands. -/
theorem combine (hop : op.isPredicate = false) (hlhs : lhs.UniformAt dtype)
    (hrhs : rhs.UniformAt dtype) : (Expr.combine op lhs rhs).UniformAt dtype := by
  refine ⟨hlhs.uniform.combine hrhs.uniform, ?_⟩
  rw [dtype_combine (hlhs.dtype_eq.trans hrhs.dtype_eq.symm) fun hlogical =>
    absurd hlogical (BinaryOp.not_isLogical hop), resultType, hop, hlhs.dtype_eq]
  rfl

end UniformAt

end LoopNest.Expr
