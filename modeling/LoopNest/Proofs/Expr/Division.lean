/-
# Undefined divisions

A quotient of words is undefined for a zero divisor and where the floored quotient is no word.
A remainder always is a word, so only a zero divisor should leave it undefined. It is found by
multiplying the quotient back, however, and it is lost where the quotient or that product is no
word. Everywhere else both are what they should be.

Evaluation blames a division that is part of the expression, whose operands have values and
which is undefined at them for one of these reasons.
-/

import LoopNest.Proofs.Bound.Operator

namespace LoopNest

namespace Word

variable {dividend divisor remainder : Int}

/-- The remainder of a division: it differs from the dividend by a multiple of the divisor and
lies between zero and the divisor, which it does not reach. -/
structure Remains (dividend divisor remainder : Int) : Prop where
  divides : divisor ∣ dividend - remainder
  between : 0 ≤ remainder ∧ remainder < divisor ∨ divisor < remainder ∧ remainder ≤ 0

/-- A divisor other than zero leaves exactly the floored remainder. -/
theorem remains_iff :
    Remains dividend divisor remainder ↔ divisor ≠ 0 ∧ remainder = dividend.fmod divisor := by
  constructor
  · rintro ⟨⟨quotient, hquotient⟩, ⟨hlow, hhigh⟩ | ⟨hlow, hhigh⟩⟩
    · have hunique := (Int.fdiv_fmod_unique (hlow.trans_lt hhigh)).mpr
        ⟨show remainder + divisor * quotient = dividend by omega, hlow, hhigh⟩
      exact ⟨(hlow.trans_lt hhigh).ne', hunique.2.symm⟩
    · have hunique := (Int.fdiv_fmod_unique' (hlow.trans_le hhigh)).mpr
        ⟨show remainder + divisor * quotient = dividend by omega, hlow, hhigh⟩
      exact ⟨(hlow.trans_le hhigh).ne, hunique.2.symm⟩
  · rintro ⟨hzero, rfl⟩
    refine ⟨Int.dvd_self_sub_fmod, ?_⟩
    rcases lt_or_gt_of_ne hzero with hsign | hsign
    · exact .inr ((Int.fdiv_fmod_unique' hsign).mp ⟨rfl, rfl⟩).2
    · exact .inl ((Int.fdiv_fmod_unique hsign).mp ⟨rfl, rfl⟩).2

/-- The floored remainder of a division by a word is a word. -/
theorem fits_fmod (hdivisor : fits divisor = true) (hzero : divisor ≠ 0) :
    fits (dividend.fmod divisor) = true := by
  have hremains : Remains dividend divisor (dividend.fmod divisor) :=
    remains_iff.mpr ⟨hzero, rfl⟩
  have hbetween := hremains.between
  rw [fits_iff, least, greatest] at hdivisor ⊢
  omega

theorem floorDiv?_eq_none_iff :
    floorDiv? dividend divisor = none ↔
      divisor = 0 ∨ fits (dividend.fdiv divisor) = false := by
  rw [floorDiv?, check]
  split <;> simp_all

/-- A remainder is lost where the quotient is, and also where the product is no word. -/
theorem floorMod?_eq_none_iff (hdivisor : fits divisor = true) :
    floorMod? dividend divisor = none ↔
      divisor = 0 ∨ fits (dividend.fdiv divisor) = false ∨
        fits (dividend.fdiv divisor * divisor) = false := by
  by_cases hzero : divisor = 0
  · simp [floorMod?, floorDiv?, hzero]
  · have hremainder : fits (dividend - dividend.fdiv divisor * divisor) = true := by
      rw [mul_comm, ← Int.fmod_def]
      exact fits_fmod hdivisor hzero
    simp only [floorMod?, floorDiv?, hzero, if_false, mul?, check, Option.bind_eq_bind, false_or]
    cases hquotient : fits (dividend.fdiv divisor) with
    | false => simp
    | true => cases hproduct : fits (dividend.fdiv divisor * divisor) <;> simp [hproduct, hremainder]

/-- The quotient is the floored one and is defined wherever a word can hold it. -/
structure DividesExactly (dividend divisor : Int) : Prop where
  eq_none_iff : floorDiv? dividend divisor = none ↔
    divisor = 0 ∨ fits (dividend.fdiv divisor) = false
  eq_of_eq_some : ∀ quotient, floorDiv? dividend divisor = some quotient →
    quotient = dividend.fdiv divisor

/-- The remainder is what the division leaves and is defined for every divisor but zero. -/
structure LeavesExactly (dividend divisor : Int) : Prop where
  eq_none_iff : floorMod? dividend divisor = none ↔ divisor = 0
  eq_some_iff : ∀ remainder, floorMod? dividend divisor = some remainder ↔
    Remains dividend divisor remainder

theorem dividesExactly (dividend divisor : Int) : DividesExactly dividend divisor where
  eq_none_iff := floorDiv?_eq_none_iff
  eq_of_eq_some _ h := (eq_fdiv_of_floorDiv? h).2

/-- The remainder by a word is exact if and only if the quotient and its product with the divisor
are words. -/
theorem leavesExactly_iff (hdivisor : fits divisor = true) :
    LeavesExactly dividend divisor ↔
      (divisor ≠ 0 → fits (dividend.fdiv divisor) = true ∧
        fits (dividend.fdiv divisor * divisor) = true) := by
  have hnone : floorMod? dividend divisor = none ↔ divisor = 0 ∨
      fits (dividend.fdiv divisor) = false ∨ fits (dividend.fdiv divisor * divisor) = false :=
    floorMod?_eq_none_iff hdivisor
  constructor
  · intro h hzero
    have hdefined := mt h.eq_none_iff.mp hzero
    rw [hnone, not_or, not_or, Bool.not_eq_false, Bool.not_eq_false] at hdefined
    exact hdefined.2
  · intro h
    have hzero : floorMod? dividend divisor = none ↔ divisor = 0 := by
      rw [hnone, or_iff_left_iff_imp]
      rintro (hquotient | hproduct) <;> by_contra hne
      · simp [(h hne).1] at hquotient
      · simp [(h hne).2] at hproduct
    refine ⟨hzero, fun remainder => ?_⟩
    rw [remains_iff]
    refine ⟨eq_fmod_of_floorMod?, fun ⟨hne, heq⟩ => ?_⟩
    obtain ⟨result, hresult⟩ := Option.ne_none_iff_exists'.mp (mt hzero.mp hne)
    rw [hresult, heq, (eq_fmod_of_floorMod? hresult).2]

end Word

namespace Expr

variable {e node lhs rhs : Expr} {assignment : Assignment} {op : BinaryOp} {x y : Int}

/-- A node of an expression: the expression itself or a node of one of its operands. -/
inductive Part (node : Expr) : Expr → Prop
  | self : Part node node
  | operand {child e : Expr} (mem : child ∈ e.children) (rest : Part node child) : Part node e

/-- A division whose operands have values at which it is undefined. -/
inductive Undefined (assignment : Assignment) : Expr → Prop
  | quotient {lhs rhs : Expr} {x y : Int} (hleft : lhs.eval assignment = .ok x)
      (hright : rhs.eval assignment = .ok y) (h : y = 0 ∨ Word.fits (x.fdiv y) = false) :
      Undefined assignment (binary .floorDiv lhs rhs)
  | remainder {lhs rhs : Expr} {x y : Int} (hleft : lhs.eval assignment = .ok x)
      (hright : rhs.eval assignment = .ok y)
      (h : y = 0 ∨ Word.fits (x.fdiv y) = false ∨ Word.fits (x.fdiv y * y) = false) :
      Undefined assignment (binary .floorMod lhs rhs)

/-- A node whose operands have values and which has none is an undefined division. -/
theorem undefined_of_compute? (hleft : lhs.eval assignment = .ok x)
    (hright : rhs.eval assignment = .ok y) (h : op.compute? x y = none) :
    (binary op lhs rhs).Undefined assignment := by
  cases op with
  | floorDiv => exact .quotient hleft hright (Word.floorDiv?_eq_none_iff.mp h)
  | floorMod =>
      have hword := DType.fits_of_contains (eval_contains hright)
      exact .remainder hleft hright ((Word.floorMod?_eq_none_iff hword).mp h)
  | _ => cases h

/-- An undefined division is blamed. -/
theorem Undefined.eval (h : node.Undefined assignment) :
    node.eval assignment = .error (.undefinedDivision node) := by
  cases h with
  | quotient hleft hright h =>
      exact eval_binary_of_compute?_eq_none hleft hright (Word.floorDiv?_eq_none_iff.mpr h)
  | remainder hleft hright h =>
      have hword := DType.fits_of_contains (eval_contains hright)
      exact eval_binary_of_compute?_eq_none hleft hright
        ((Word.floorMod?_eq_none_iff hword).mpr h)

/-- A node without a value misses that of an operand, or its operator is undefined. -/
theorem eval_binary_eq_error {error : EvalError}
    (h : (binary op lhs rhs).eval assignment = .error error) :
    lhs.eval assignment = .error error ∨ rhs.eval assignment = .error error ∨
      ∃ x y, lhs.eval assignment = .ok x ∧ rhs.eval assignment = .ok y ∧
        op.compute? x y = none ∧ error = .undefinedDivision (binary op lhs rhs) := by
  rw [eval_binary, bind_eq_error] at h
  rcases h with hleft | ⟨x, hleft, h⟩
  · exact .inl hleft
  · split at h
    · cases h
    · rw [bind_eq_error] at h
      rcases h with hright | ⟨y, hright, h⟩
      · exact .inr (.inl hright)
      · split at h
        · cases h
        · exact .inr (.inr ⟨x, y, hleft, hright, ‹_›, (Except.error.inj h).symm⟩)

/-- What is blamed for a missing value is a part of the expression that is undefined. -/
theorem part_and_undefined_of_eval (h : e.eval assignment = .error (.undefinedDivision node)) :
    node.Part e ∧ node.Undefined assignment := by
  induction e with
  | const => cases h
  | var v =>
      rw [eval_var] at h
      split at h <;> cases h
  | cast _ operand ih | neg operand ih | not operand ih =>
      rcases bind_eq_error.mp h with hoperand | ⟨_, -, h⟩
      · exact (ih hoperand).imp_left (.operand List.mem_cons_self)
      · cases h
  | binary op lhs rhs ihl ihr =>
      rcases eval_binary_eq_error h with hleft | hright | ⟨x, y, hleft, hright, hnone, hnode⟩
      · exact (ihl hleft).imp_left (.operand List.mem_cons_self)
      · exact (ihr hright).imp_left (.operand (List.mem_cons_of_mem _ List.mem_cons_self))
      · obtain rfl : node = binary op lhs rhs := EvalError.undefinedDivision.inj hnode
        exact ⟨.self, undefined_of_compute? hleft hright hnone⟩

/-- The quotient of words is always exact. The remainder is, except where the quotient or its
product with the divisor is no word. An undefined division is blamed, and what is blamed for a
missing value is a division in the expression that is undefined at the values of its operands. -/
theorem divisions_exact_iff (assignment : Assignment) :
    (∀ dividend divisor, Word.DividesExactly dividend divisor) ∧
    (∀ dividend divisor, Word.fits divisor = true →
      (Word.LeavesExactly dividend divisor ↔
        (divisor ≠ 0 → Word.fits (dividend.fdiv divisor) = true ∧
          Word.fits (dividend.fdiv divisor * divisor) = true))) ∧
    (∀ node : Expr, node.Undefined assignment →
      node.eval assignment = .error (.undefinedDivision node)) ∧
    ∀ e node : Expr, e.eval assignment = .error (.undefinedDivision node) →
      node.Part e ∧ node.Undefined assignment :=
  ⟨Word.dividesExactly, fun _ _ hdivisor => Word.leavesExactly_iff hdivisor, fun _ h => h.eval,
    fun _ _ h => part_and_undefined_of_eval h⟩

section LeastDividend

/-- The remainder of a variable of 64 bits by three. -/
def remainderByThree : Expr :=
  (var ⟨.parameter 0, "x", .int64⟩).floorMod (literal .int64 3)

/-- The least word leaves one when it is divided by three, and its quotient is a word, but three
times that quotient is not. -/
theorem divisions_inexact_of_leastDividend :
    ¬Word.LeavesExactly Word.least 3 ∧ Word.Remains Word.least 3 1 ∧
      Word.fits (Word.least.fdiv 3) = true ∧ Word.floorMod? Word.least 3 = none ∧
      remainderByThree.Undefined fun _ => some Word.least := by
  obtain ⟨-, hremainders, -, hblame⟩ := divisions_exact_iff fun _ => some Word.least
  have hinexact : ¬Word.LeavesExactly Word.least 3 := by
    rw [hremainders Word.least 3 (by decide)]
    decide
  have hblamed := (hblame remainderByThree remainderByThree (by decide)).2
  exact ⟨hinexact, Word.remains_iff.mpr (by decide), by decide, by decide, hblamed⟩

end LeastDividend

end Expr

end LoopNest
