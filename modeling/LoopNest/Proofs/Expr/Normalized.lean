/-
# Normalized expressions

Collecting an integer expression into its linear form and rebuilding it changes neither its
type nor its value. Nothing is asked about sizes: coefficients wrap as words while they are
collected, they wrap again as literals of the type, the least word stays itself when its sign
is turned, and the arithmetic of the expression may wrap anywhere. All of this keeps the
residue modulo the number of values of the type, which fixes the value.

The terms may be anything that the constructors build, conjunctions of numbers included.
-/

import LoopNest.Proofs.Expr.Built
import LoopNest.Proofs.Expr.Rebuild

namespace LoopNest.Expr

variable {e : Expr} {joins : BinaryOp → Expr → Expr → Prop}

/-- Whatever the constructors build is uniform. -/
theorem Built.uniform (h : Built joins e) : e.Uniform := by
  induction h with
  | literal dtype value => exact uniform_literal dtype value
  | var v => trivial
  | castTo _ dtype ih => exact ih.castTo dtype
  | negate _ ih => exact ih.negate
  | complement => exact uniform_complement _
  | combine op _ _ _ ihl ihr => exact ihl.combine ihr

/-- Normalizing keeps the type and the value of every integer expression. -/
theorem Built.normalize_keeps_value (he : e.Built JoinsAll) (integer : e.dtype.isInteger = true)
    (assignment : Assignment) :
    e.normalize.dtype = e.dtype ∧
      ∀ value, e.eval assignment = .ok value → e.normalize.eval assignment = .ok value := by
  have hbool : e.dtype ≠ .bool := fun heq => by simp [heq, DType.isInteger, DType.isSigned,
    DType.isUnsigned] at integer
  have huniform : e.UniformAt e.dtype := ⟨he.uniform, rfl⟩
  exact ⟨huniform.normalize.dtype_eq, fun value hvalue =>
    huniform.uniform.eval_normalize hvalue fun heq => absurd heq hbool⟩

section LeastCoefficient

/-- A variable of 64 bits. -/
def longVar : Var := ⟨.parameter 2, "z", .int64⟩

/-- A multiple of a variable by the least word, less an offset. -/
def leastMultiple : Expr :=
  ((var longVar).mul (literal .int64 Word.least)).sub (literal .int64 5)

theorem built_leastMultiple : leastMultiple.Built JoinsAll := by
  have hproduct : ((var longVar).mul (literal .int64 Word.least)).Built JoinsAll :=
    .combine .mul (.var _) (.literal _ _) trivial
  exact .combine .sub hproduct (.literal .int64 5) trivial

/-- The least word is its own opposite, so its multiple is subtracted from nothing. At 3 the
product and the difference both wrap. -/
theorem normalize_keeps_value_of_leastMultiple :
    leastMultiple.normalize = binary .sub (neg (binary .mul (var longVar)
        (literal .int64 Word.least))) (literal .int64 5) ∧
      leastMultiple.normalize.dtype = .int64 ∧
      leastMultiple.normalize.eval (fun _ => some 3) = .ok 9223372036854775803 := by
  have hkeeps := built_leastMultiple.normalize_keeps_value rfl fun _ => some 3
  exact ⟨by decide, hkeeps.1, hkeeps.2 9223372036854775803 rfl⟩

end LeastCoefficient

end LoopNest.Expr
