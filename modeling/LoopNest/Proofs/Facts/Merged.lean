/-
# Merged divisors

A quotient of a quotient is taken by the product of the divisors. The product is checked
to be a word, and then written down as a literal of the type of the dividend, where it may
wrap. This file says exactly when that matters.

The value that comes of it is first written down in integers, with everything that wraps.
Where nothing but the product does, it is right as long as no rest is divided: the
multiples of the product are divided exactly. A rest is divided by the wrapped product,
and since a product outside of the type exceeds every value of the type, the right
quotient of a rest is zero or minus one. So the wrapped product is harmless exactly if it
gives that as well. Over unsigned types a rest always lies below such a product and is
dropped.
-/

import LoopNest.Proofs.Facts.Encloses

namespace LoopNest

open LinearForm (quotientForm restForm)

variable {assignment : Assignment} {facts : Facts} {dtype : DType} {e : Expr}
variable {divisor rest value : Int}

/-- Dividing by a positive number moves a number toward zero, and the quotients next to
zero are recognized without dividing. -/
theorem ediv_cases (value : Int) (hdivisor : 0 < divisor) :
    (0 ≤ value / divisor ↔ 0 ≤ value) ∧ (value / divisor < 1 ↔ value < divisor) ∧
      (-1 ≤ value / divisor ↔ -divisor ≤ value) ∧ (0 ≤ value → value / divisor ≤ value) ∧
      (value ≤ 0 → value ≤ value / divisor) := by
  refine ⟨Int.ediv_nonneg_iff_of_pos hdivisor, ?_, ?_, fun h => Int.ediv_le_self _ h, fun h => ?_⟩
  · rw [Int.ediv_lt_iff_lt_mul hdivisor, one_mul]
  · rw [Int.le_ediv_iff_mul_le hdivisor, neg_one_mul]
  · exact (Int.le_ediv_iff_mul_le hdivisor).mpr (mul_le_of_one_le_right h hdivisor)

/-- No floored quotient exceeds the dividend in absolute value. -/
theorem natAbs_fdiv_le (value : Int) (hdivisor : divisor ≠ 0) :
    (value.fdiv divisor).natAbs ≤ value.natAbs := by
  rcases lt_or_gt_of_ne hdivisor with hsign | hsign
  · have hquotient := ediv_cases (-value) (by omega : 0 < -divisor)
    rw [← Int.neg_fdiv_neg, Int.fdiv_eq_ediv_of_nonneg _ (by omega : 0 ≤ -divisor)]
    omega
  · have hquotient := ediv_cases value hsign
    rw [Int.fdiv_eq_ediv_of_nonneg _ hsign.le]
    omega

/-- A wrapped divisor does what the divisor does: either it was not wrapped, or both give
the quotient zero or both give minus one. -/
def DividesAlike (dtype : DType) (divisor rest : Int) : Prop :=
  dtype.contains divisor = true ∨
    dtype.truncate divisor ≠ 0 ∧
      (rest = 0 ∨ -dtype.truncate divisor ≤ rest ∧ rest < dtype.truncate divisor)

instance (dtype : DType) (divisor rest : Int) : Decidable (DividesAlike dtype divisor rest) :=
  inferInstanceAs (Decidable (_ ∨ _))

/-- A divisor that wraps to zero divides nothing. -/
theorem not_dividesAlike_of_zero (hpos : 0 < divisor) (hzero : dtype.truncate divisor = 0) :
    ¬DividesAlike dtype divisor rest := by
  rintro (hcontains | ⟨hne, -⟩)
  · rw [DType.truncate_of_contains hcontains] at hzero
    exact hpos.ne' hzero
  · exact hne hzero

section WrappedDivisor

variable (integer : dtype ≠ .bool) (hpos : 0 < divisor) (hword : Word.fits divisor = true)
  (hrest : dtype.contains rest = true)
include integer hpos hword hrest

/-- The quotient by a divisor outside of the type, against the quotient by what it wraps to. -/
theorem DType.fdiv_truncate_modEq_iff (hout : dtype.contains divisor = false)
    (hne : dtype.truncate divisor ≠ 0) :
    rest.fdiv (dtype.truncate divisor) ≡ rest / divisor [ZMOD dtype.modulus] ↔
      rest = 0 ∨ -dtype.truncate divisor ≤ rest ∧ rest < dtype.truncate divisor := by
  have hexact := ediv_cases rest hpos
  have hwrapped := contains_truncate dtype divisor
  rw [Word.fits_iff] at hword
  rw [← Bool.not_eq_true, contains_iff] at hout
  rw [contains_iff] at hrest hwrapped
  generalize dtype.truncate divisor = wrapped at hne hwrapped ⊢
  rw [Int.modEq_iff_dvd]
  -- Neither quotient exceeds the rest, so equal residues are equal quotients.
  rcases lt_or_gt_of_ne hne with hsign | hsign
  · have hquotient := ediv_cases (-rest) (by omega : 0 < -wrapped)
    rw [← Int.neg_fdiv_neg, Int.fdiv_eq_ediv_of_nonneg _ (by omega : 0 ≤ -wrapped)]
    cases dtype <;>
      simp only [minValue, maxValue, modulus, Word.least, Word.greatest] at * <;>
      first | exact absurd rfl integer | omega
  · have hquotient := ediv_cases rest hsign
    rw [Int.fdiv_eq_ediv_of_nonneg _ hsign.le]
    cases dtype <;>
      simp only [minValue, maxValue, modulus, Word.least, Word.greatest] at * <;>
      first | exact absurd rfl integer | omega

/-- The quotients agree as residues of the type exactly where the divisors divide alike. -/
theorem modEq_iff_dividesAlike (hne : dtype.truncate divisor ≠ 0) :
    rest.fdiv (dtype.truncate divisor) ≡ rest / divisor [ZMOD dtype.modulus] ↔
      DividesAlike dtype divisor rest := by
  cases hcontains : dtype.contains divisor with
  | true =>
      rw [DType.truncate_of_contains hcontains, Int.fdiv_eq_ediv_of_nonneg _ hpos.le]
      exact ⟨fun _ => .inl hcontains, fun _ => rfl⟩
  | false =>
      rw [DType.fdiv_truncate_modEq_iff integer hpos hword hrest hcontains hne]
      simp [DividesAlike, hcontains, hne]

/-- So the right quotient is found under a wrapped divisor exactly if the divisors divide alike. -/
theorem truncate_add_eq_iff_dividesAlike (hne : dtype.truncate divisor ≠ 0) {quotient : Int}
    (hquotient : dtype.contains (quotient + rest / divisor) = true) :
    dtype.truncate (quotient + rest.fdiv (dtype.truncate divisor)) = quotient + rest / divisor ↔
      DividesAlike dtype divisor rest := by
  rw [← modEq_iff_dividesAlike integer hpos hword hrest hne]
  constructor
  · intro heq
    have hresidue := DType.truncate_modEq integer (quotient + rest.fdiv (dtype.truncate divisor))
    rw [heq] at hresidue
    exact hresidue.symm.add_left_cancel' _
  · intro halike
    rw [DType.truncate_congr (halike.add_left quotient), DType.truncate_of_contains hquotient]

/-- Whatever the divisor wraps to, dividing by it is defined unless that is zero. -/
theorem Word.floorDiv?_truncate (hne : dtype.truncate divisor ≠ 0) :
    floorDiv? rest (dtype.truncate divisor) = some (rest.fdiv (dtype.truncate divisor)) := by
  have hfits : fits (rest.fdiv (dtype.truncate divisor)) = true := by
    cases hcontains : dtype.contains divisor with
    | true =>
        rw [DType.truncate_of_contains hcontains, Int.fdiv_eq_ediv_of_nonneg _ hpos.le]
        exact DType.fits_of_contains (DType.contains_ediv hrest hpos)
    | false =>
        -- Only narrow types lack a positive word, and their values are far from the ends.
        have hle := natAbs_fdiv_le rest hne
        rw [fits_iff] at hword ⊢
        rw [← Bool.not_eq_true, DType.contains_iff] at hcontains
        rw [DType.contains_iff] at hrest
        cases dtype <;>
          simp only [DType.minValue, DType.maxValue, least, greatest] at * <;>
          first | exact absurd rfl integer | omega
  rw [floorDiv?, if_neg hne, check, if_pos hfits]

end WrappedDivisor

section Rest

variable (hrest : e.TypedAt dtype) (hvalue : e.eval assignment = .ok rest)
include hrest hvalue

/-- The quotient of a rest by a literal that may wrap. -/
theorem eval_floorDiv_wrapped (integer : dtype ≠ .bool) (hpos : 0 < divisor)
    (hword : Word.fits divisor = true) (hne : dtype.truncate divisor ≠ 0) :
    (e.floorDiv (.literal dtype divisor)).eval assignment =
      .ok (dtype.truncate (rest.fdiv (dtype.truncate divisor))) := by
  have hcontains : dtype.contains rest = true := hrest.dtype_eq ▸ Expr.eval_contains hvalue
  have hdivisor : (Expr.literal dtype divisor).eval assignment = .ok (dtype.truncate divisor) :=
    Expr.eval_literal_wrapped dtype divisor
  apply Expr.eval_combine hrest.wellTyped.formed (Expr.formed_literal _ _) hrest.dtype_eq
    (by simp [BinaryOp.isLogical])
  have hresult : BinaryOp.compute? .floorDiv rest (dtype.truncate divisor) =
      some (rest.fdiv (dtype.truncate divisor)) :=
    Word.floorDiv?_truncate integer hpos hword hcontains hne
  rw [Expr.eval_binary_of_eval hvalue hdivisor hresult,
    show (Expr.binary .floorDiv e (.literal dtype divisor)).dtype = dtype from hrest.dtype_eq]

end Rest

/-- Where the divisor wraps to zero, the quotient is kept as it is and has no value. -/
theorem floorDiv_wrapped_zero (hrest : e.TypedAt dtype) (hzero : dtype.truncate divisor = 0) :
    e.floorDiv (.literal dtype divisor) = .binary .floorDiv e (.const dtype 0) := by
  have hliterals : Expr.foldLiterals? .floorDiv e (.const dtype 0) = none := by
    cases e <;> simp [Expr.foldLiterals?, Expr.value?, BinaryOp.compute?, Word.floorDiv?]
  rw [Expr.literal, hzero, Expr.floorDiv, Expr.combine_of_dtype_eq _ hrest.dtype_eq, Expr.foldNode,
    hliterals]
  simp [Expr.foldNeutral?, Expr.isOne, Expr.value?, Expr.keepOffsetPositive]

theorem eval_floorDiv_zero (e : Expr) (dtype : DType) (value : Int) :
    (Expr.binary .floorDiv e (.const dtype 0)).eval assignment ≠ .ok value := by
  intro h
  obtain ⟨left, right, result, -, hright, hresult, -⟩ :=
    Expr.eval_binary_inv_of_not_isLogical rfl h
  rw [Expr.eval_const, DType.truncate_zero, Except.ok.injEq] at hright
  simp [← hright, BinaryOp.compute?, Word.floorDiv?] at hresult

/-- A sum whose second operand is no literal is kept, unless the first one is zero. -/
theorem add_eq_binary {first second : Expr} (same : first.dtype = second.dtype)
    (hzero : first.isZero = false) (hliteral : second.value? = none) :
    first.add second = .binary .add first second := by
  have hliterals : Expr.foldLiterals? .add first second = none := by
    cases hvalue : first.value? <;> simp [Expr.foldLiterals?, hvalue, hliteral]
  rw [Expr.isZero, decide_eq_false_iff_not] at hzero
  rw [Expr.add, Expr.combine_of_dtype_eq _ same, Expr.foldNode, hliterals]
  simp [Expr.foldNeutral?, hzero, Expr.isZero, hliteral, Expr.keepOffsetPositive,
    Expr.oppositeOffset?]

/-- A rest that is dropped has the quotient zero. -/
theorem Facts.Encloses.ediv_eq_zero (h : facts.Encloses assignment e rest)
    (hnone : facts.quotientOfRest? e divisor = none) : rest / divisor = 0 := by
  simp only [Facts.quotientOfRest?, ite_eq_left_iff, reduceCtorEq, imp_false, not_not,
    Bool.or_eq_true, Facts.withinDivisor, Bool.and_eq_true, decide_eq_true_eq] at hnone
  rcases hnone with hzero | ⟨hlow, hhigh⟩
  · rw [Except.ok.inj (h.eval.symm.trans (Expr.eval_of_isZero hzero)), Int.zero_ediv]
  · exact Int.ediv_eq_zero_of_lt (hlow.trans h.lower) (h.upper.trans_lt hhigh)

section Parts

variable {first second : Expr}

/-- The quotients of the two parts of a dividend are added, unless the first one is zero. -/
def joinQuotients (first second : Expr) : Expr :=
  if first.isZero then second else first.add second

theorem typedAt_joinQuotients (hfirst : first.TypedAt dtype) (hsecond : second.TypedAt dtype) :
    (joinQuotients first second).TypedAt dtype := by
  unfold joinQuotients
  split
  · exact hsecond
  · exact hfirst.combine rfl hsecond

theorem denotes_joinQuotients {x y : Int} (integer : dtype ≠ .bool)
    (hfirst : first.Denotes assignment dtype x) (hsecond : second.Denotes assignment dtype y) :
    (joinQuotients first second).Denotes assignment dtype (x + y) := by
  unfold joinQuotients
  split
  · rename_i hzero
    obtain ⟨quotient, heval, hresidue⟩ := hfirst.eval
    rw [Except.ok.inj (heval.symm.trans (Expr.eval_of_isZero hzero))] at hresidue
    have hsum := hresidue.add_right y
    rw [zero_add] at hsum
    exact hsecond.congr hsum
  · exact hfirst.combine rfl (fun _ _ => rfl) Int.ModEq.add hsecond
      fun hbool => absurd hbool integer

/-- If the quotient of the rest has no value, neither has the sum. -/
theorem eval_joinQuotients_ne (same : first.dtype = second.dtype) (hliteral : second.value? = none)
    (hnone : ∀ result, second.eval assignment ≠ .ok result) (result : Int) :
    (joinQuotients first second).eval assignment ≠ .ok result := by
  unfold joinQuotients
  split
  · exact hnone result
  · rename_i hzero
    rw [add_eq_binary same (Bool.eq_false_iff.mpr hzero) hliteral]
    intro heval
    obtain ⟨-, right, -, -, hright, -, -⟩ := Expr.eval_binary_inv_of_not_isLogical rfl heval
    exact hnone right hright

end Parts

/-- The quotient of a dividend whose rest is dropped. -/
theorem divideLinear_of_dropped (hwell : e.WellTyped)
    (hnone : facts.quotientOfRest? (restForm e divisor).toExpr divisor = none) :
    facts.divideLinear e divisor = (quotientForm e divisor).toExpr := by
  rw [restForm] at hnone
  rw [Facts.divideLinear, hnone]
  exact Expr.castTo_of_dtype_eq (LinearForm.typedAt_quotient ⟨hwell, rfl⟩ divisor).dtype_eq

/-- The quotient of a dividend whose rest is divided. -/
theorem divideLinear_of_divided (hwell : e.WellTyped)
    (hsome : facts.quotientOfRest? (restForm e divisor).toExpr divisor ≠ none) :
    facts.divideLinear e divisor = joinQuotients (quotientForm e divisor).toExpr
      ((restForm e divisor).toExpr.floorDiv (.literal e.dtype divisor)) := by
  have hrest : (restForm e divisor).toExpr.TypedAt e.dtype :=
    LinearForm.typedAt_rest ⟨hwell, rfl⟩ divisor
  have hquotient : facts.quotientOfRest? (restForm e divisor).toExpr divisor =
      some ((restForm e divisor).toExpr.floorDiv (.literal e.dtype divisor)) := by
    rw [Facts.quotientOfRest?, hrest.dtype_eq] at hsome ⊢
    split at hsome
    · exact absurd rfl hsome
    · exact if_neg ‹_›
  rw [restForm] at hquotient
  rw [Facts.divideLinear, hquotient]
  exact Expr.castTo_of_dtype_eq (typedAt_joinQuotients
    (LinearForm.typedAt_quotient ⟨hwell, rfl⟩ divisor)
    (hrest.combine rfl (.literal divisor))).dtype_eq

/-- The quotient of a linear form by a literal as integers: what the form and its rest
differ by is divided exactly, and the rest by what the literal wraps to, unless it is
dropped. There is none if the literal wraps to zero. -/
def wrappedQuotient? (facts : Facts) (assignment : Assignment) (e : Expr) (divisor : Int) :
    Option Int :=
  let rest := (restForm e divisor).valueAt assignment
  let quotient := ((LinearForm.ofExpr e).valueAt assignment - rest) / divisor
  let wrapped := e.dtype.truncate divisor
  if facts.quotientOfRest? (restForm e divisor).toExpr divisor = none then
    some (e.dtype.truncate quotient)
  else if wrapped = 0 then none
  else some (e.dtype.truncate (quotient + (e.dtype.truncate rest).fdiv wrapped))

section Integers

variable (hwell : e.WellTyped) (integer : e.dtype ≠ .bool) (hvalue : e.eval assignment = .ok value)
  (hdivisor : 0 < divisor) (hword : Word.fits divisor = true)
  (hsplits : (LinearForm.ofExpr e).SplitsInWords divisor)
include hwell integer hvalue hdivisor hword hsplits

/-- Dividing the linear form has exactly the value that the wrapped integers say. -/
theorem eval_divideLinear_eq_ok_iff (result : Int) :
    (facts.divideLinear e divisor).eval assignment = .ok result ↔
      wrappedQuotient? facts assignment e divisor = some result := by
  -- Over integers both parts denote their values, whatever wraps on the way.
  have hquotient : (quotientForm e divisor).toExpr.Denotes assignment e.dtype
      ((quotientForm e divisor).valueAt assignment) :=
    denotes_quotient hwell hvalue fun hbool => absurd hbool integer
  have hrest : (restForm e divisor).toExpr.Denotes assignment e.dtype
      ((restForm e divisor).valueAt assignment) :=
    denotes_rest hwell hvalue fun hbool => absurd hbool integer
  have htyped : ((restForm e divisor).toExpr.floorDiv (.literal e.dtype divisor)).TypedAt e.dtype :=
    hrest.toTypedAt.combine rfl (.literal divisor)
  have hsplit : (quotientForm e divisor).valueAt assignment =
      ((LinearForm.ofExpr e).valueAt assignment - (restForm e divisor).valueAt assignment) /
        divisor :=
    LinearForm.valueAt_divideBy_eq hdivisor hword hsplits
  rw [wrappedQuotient?, ← hsplit]
  by_cases hnone : facts.quotientOfRest? (restForm e divisor).toExpr divisor = none
  · rw [if_pos hnone, divideLinear_of_dropped hwell hnone, hquotient.eval_eq_truncate]
    simp
  rw [if_neg hnone, divideLinear_of_divided hwell hnone]
  by_cases hzero : e.dtype.truncate divisor = 0
  · rw [if_pos hzero]
    refine iff_of_false (fun heval => ?_) (by simp)
    have same := hquotient.dtype_eq.trans htyped.dtype_eq.symm
    rw [floorDiv_wrapped_zero hrest.toTypedAt hzero] at heval same
    exact eval_joinQuotients_ne same rfl (eval_floorDiv_zero _ _) _ heval
  · have hresult := denotes_joinQuotients integer hquotient
      ⟨htyped, _, eval_floorDiv_wrapped hrest.toTypedAt hrest.eval_eq_truncate integer hdivisor
        hword hzero, DType.truncate_modEq integer _⟩
    rw [if_neg hzero, hresult.eval_eq_truncate]
    simp

/-- The wrapped integers give the floored quotient exactly if the rest is dropped or the
divisor, written as a literal of the type, divides the rest alike. -/
theorem wrappedQuotient?_eq_ediv_iff
    (hform : e.dtype.contains ((LinearForm.ofExpr e).valueAt assignment) = true)
    (hrest : facts.Encloses assignment (restForm e divisor).toExpr
      ((restForm e divisor).valueAt assignment)) :
    wrappedQuotient? facts assignment e divisor = some (value / divisor) ↔
      facts.quotientOfRest? (restForm e divisor).toExpr divisor = none ∨
        DividesAlike e.dtype divisor ((restForm e divisor).valueAt assignment) := by
  have hdtype : (restForm e divisor).toExpr.dtype = e.dtype :=
    (LinearForm.typedAt_rest ⟨hwell, rfl⟩ divisor).dtype_eq
  have hwithin : e.dtype.contains ((restForm e divisor).valueAt assignment) = true :=
    hdtype ▸ Expr.eval_contains hrest.eval
  have hcontains := DType.contains_ediv (Expr.eval_contains hvalue) hdivisor
  have hsplit : value / divisor =
      ((LinearForm.ofExpr e).valueAt assignment - (restForm e divisor).valueAt assignment) /
        divisor + (restForm e divisor).valueAt assignment / divisor := by
    rw [← DType.eq_of_modEq hform (Expr.eval_contains hvalue)
        (LinearForm.valueAt_ofExpr hwell.formed.uniform hvalue fun hbool => absurd hbool integer),
      LinearForm.valueAt_ediv hdivisor hword hsplits,
      LinearForm.valueAt_divideBy_eq hdivisor hword hsplits, restForm]
  rw [hsplit] at hcontains ⊢
  rw [wrappedQuotient?]
  generalize ((LinearForm.ofExpr e).valueAt assignment - (restForm e divisor).valueAt assignment) /
    divisor = quotient at hcontains ⊢
  by_cases hnone : facts.quotientOfRest? (restForm e divisor).toExpr divisor = none
  · rw [hrest.ediv_eq_zero hnone, add_zero] at hcontains ⊢
    rw [if_pos hnone, DType.truncate_of_contains hcontains]
    simp [hnone]
  rw [if_neg hnone, or_iff_right hnone, DType.truncate_of_contains hwithin]
  by_cases hzero : e.dtype.truncate divisor = 0
  · rw [if_pos hzero]
    exact iff_of_false (by simp) (not_dividesAlike_of_zero hdivisor hzero)
  · rw [if_neg hzero, Option.some.injEq]
    exact truncate_add_eq_iff_dividesAlike integer hdivisor hword hwithin hzero hcontains

end Integers

namespace Expr

variable {op : BinaryOp} {lhs rhs : Expr}

/-- Every literal that an expression divides by is positive. -/
def DividesPositively : Expr → Prop
  | const _ _ | var _ => True
  | cast _ source => source.DividesPositively
  | neg operand | not operand => operand.DividesPositively
  | binary op lhs rhs =>
    lhs.DividesPositively ∧ rhs.DividesPositively ∧
      (op = .floorDiv ∨ op = .floorMod → ∀ divisor ∈ rhs.value?, 0 < divisor)

section Operands

variable (hlhs : lhs.DividesPositively) (hrhs : rhs.DividesPositively)
  (hdivisor : op = .floorDiv ∨ op = .floorMod → ∀ divisor ∈ rhs.value?, 0 < divisor)
include hlhs hrhs

theorem dividesPositively_foldNeutral? (hop : op.isPredicate = false) {folded : Expr}
    (h : foldNeutral? op lhs rhs = some folded) : folded.DividesPositively := by
  cases op <;> simp only [BinaryOp.isPredicate, BinaryOp.isComparison, BinaryOp.isLogical,
    Bool.or_self, Bool.or_true, Bool.true_or, reduceCtorEq] at hop
  all_goals
    simp only [foldNeutral?] at h
    repeat' split at h
    all_goals cases h
    all_goals first | exact hlhs | exact hrhs | trivial

include hdivisor

/-- Arithmetic divides by its own divisor only. -/
theorem dividesPositively_combine (hop : op.isPredicate = false) (same : lhs.dtype = rhs.dtype) :
    (combine op lhs rhs).DividesPositively := by
  rw [combine_of_dtype_eq op same]
  unfold foldNode
  split
  · rename_i hliterals
    simp only [foldLiterals?, Option.bind_eq_bind, Option.pure_def, Option.bind_eq_some_iff,
      Option.some.injEq] at hliterals
    obtain ⟨-, -, -, -, -, -, rfl⟩ := hliterals
    trivial
  · split
    · exact dividesPositively_foldNeutral? hlhs hrhs hop ‹_›
    · unfold keepOffsetPositive
      split
      · exact ⟨hlhs, trivial, by simp⟩
      · exact ⟨hlhs, trivial, by simp⟩
      · exact ⟨hlhs, hrhs, hdivisor⟩

end Operands

/-- Well typed, and dividing by positive literals only. -/
structure DividesAt (dtype : DType) (e : Expr) : Prop extends e.TypedAt dtype where
  divides : e.DividesPositively

namespace DividesAt

theorem combine (hop : op.isPredicate = false) (hlhs : lhs.DividesAt dtype)
    (hrhs : rhs.DividesAt dtype)
    (hdivisor : op = .floorDiv ∨ op = .floorMod → ∀ divisor ∈ rhs.value?, 0 < divisor) :
    (Expr.combine op lhs rhs).DividesAt dtype :=
  ⟨hlhs.toTypedAt.combine hop hrhs.toTypedAt, dividesPositively_combine hlhs.divides hrhs.divides
    hdivisor hop (hlhs.dtype_eq.trans hrhs.dtype_eq.symm)⟩

theorem literal (dtype : DType) (value : Int) : (Expr.literal dtype value).DividesAt dtype :=
  ⟨.literal value, trivial⟩

theorem negate (h : e.DividesAt dtype) : e.negate.DividesAt dtype := by
  refine ⟨h.toTypedAt.negate, ?_⟩
  unfold Expr.negate
  split
  · trivial
  · exact h.divides

end DividesAt

end Expr

namespace LinearForm

theorem inherited_dividesAt (dtype : DType) : Inherited (Expr.DividesAt dtype) where
  neg h := ⟨(inherited_typedAt dtype).neg h.toTypedAt, h.divides⟩
  binary hop h := by
    obtain ⟨hlhs, hrhs⟩ := (inherited_typedAt dtype).binary hop h.toTypedAt
    exact ⟨⟨hlhs, h.divides.1⟩, ⟨hrhs, h.divides.2.1⟩⟩

theorem rebuildInvariant_dividesAt (dtype : DType) :
    RebuildInvariant dtype (fun _ => True) fun e _ => e.DividesAt dtype where
  literal _ := .literal _ _
  add h h' _ := h.combine rfl h' (by simp)
  sub h h' _ := h.combine rfl h' (by simp)
  mul h h' _ := h.combine rfl h' (by simp)
  negate h _ := h.negate

/-- A rebuilt expression divides by what its terms divide by. -/
theorem dividesAt_toExpr {form : LinearForm}
    (h : ∀ entry ∈ form.terms, entry.1.DividesAt form.dtype) : form.toExpr.DividesAt form.dtype :=
  toExpr_of_invariant (rebuildInvariant_dividesAt form.dtype) h
    (rebuildsWithin_of_forall (fun _ => trivial) (fun _ => none) form)

variable (h : e.DividesAt dtype) (divisor : Int)
include h

theorem dividesAt_quotient : (quotientForm e divisor).toExpr.DividesAt dtype := by
  have hdtype : (quotientForm e divisor).dtype = dtype := (dtype_ofExpr e).trans h.dtype_eq
  exact hdtype ▸ dividesAt_toExpr (hdtype.symm ▸
    forall_terms_divideBy (forall_terms_ofExpr (inherited_dividesAt dtype) h) divisor)

theorem dividesAt_rest : (restForm e divisor).toExpr.DividesAt dtype := by
  have hdtype : (restForm e divisor).dtype = dtype := (dtype_ofExpr e).trans h.dtype_eq
  exact hdtype ▸ dividesAt_toExpr (hdtype.symm ▸
    forall_terms_remainingPart (forall_terms_ofExpr (inherited_dividesAt dtype) h) divisor)

end LinearForm

/-- Dividing a linear form divides by a positive literal, if by any: either the rest is
dropped, or the divisor is positive as a literal of the type. -/
theorem dividesAt_divideLinear (h : e.DividesAt e.dtype)
    (hpositive : facts.quotientOfRest? (restForm e divisor).toExpr divisor = none ∨
      0 < e.dtype.truncate divisor) : (facts.divideLinear e divisor).DividesAt e.dtype := by
  have hquotient := LinearForm.dividesAt_quotient h divisor
  by_cases hnone : facts.quotientOfRest? (restForm e divisor).toExpr divisor = none
  · rw [divideLinear_of_dropped h.wellTyped hnone]
    exact hquotient
  · have hrest := LinearForm.dividesAt_rest h divisor
    have hofRest : ((restForm e divisor).toExpr.floorDiv (.literal e.dtype divisor)).DividesAt
        e.dtype :=
      hrest.combine rfl (.literal _ _) fun _ value hvalue => by
        rw [← Option.some.inj hvalue]
        exact hpositive.resolve_left hnone
    rw [divideLinear_of_divided h.wellTyped hnone, joinQuotients]
    split
    · exact hofRest
    · exact hquotient.combine rfl hofRest (by simp)

/-- A bound that leaves one value replaces the expression, and no other does. -/
theorem Facts.eval_collapse_eq_ok_iff (facts : Facts) (e : Expr) (value : Int) :
    (facts.collapse e).eval assignment = .ok value ↔
      if (facts.bound e).isPoint then e.dtype.truncate (facts.bound e).min = value
      else e.eval assignment = .ok value := by
  unfold collapse
  split
  · rename_i hconst
    obtain ⟨literal, hliteral⟩ := Option.isSome_iff_exists.mp hconst
    rw [Expr.eq_const_of_value? hliteral]
    simp [Facts.bound, Bound.ofExpr, Bound.point, Bound.isPoint, Expr.dtype, Expr.eval_const]
  · simp only
    split
    · rw [Expr.eval_literal_wrapped, Except.ok.injEq]
    · rfl

/-- A bound that leaves the right value does not change it. -/
theorem Facts.eval_collapse_of_isPoint (h : (facts.bound e).isPoint = true →
      e.eval assignment = .ok (facts.bound e).min) :
    (facts.collapse e).eval assignment = e.eval assignment := by
  unfold collapse
  split
  · rfl
  · simp only
    split
    · rename_i hpoint
      rw [h hpoint]
      exact Expr.eval_literal (Expr.eval_contains (h hpoint))
    · rfl

section Merging

/-- Merging divisions keeps the type of the quotient, and the product of the divisors is a
positive word. -/
theorem mergedDivision_spec (hwell : e.WellTyped) (hdivisor : 0 < divisor)
    (hword : Word.fits divisor = true) :
    (mergedDivision e divisor).1.TypedAt e.dtype ∧ 0 < (mergedDivision e divisor).2 ∧
      Word.fits (mergedDivision e divisor).2 = true ∧
      (e.DividesPositively → (mergedDivision e divisor).1.DividesPositively) := by
  fun_induction mergedDivision e divisor with
  | case1 dividend inner divisor product hproduct ih =>
      simp only [Facts.mergedDivisor?, Option.bind_eq_bind, Option.bind_eq_some_iff,
        Option.ite_none_right_eq_some, Word.mul?, Word.check_eq_some_iff] at hproduct
      obtain ⟨literal, -, hpositive, hfits, rfl⟩ := hproduct
      obtain ⟨htyped, hpositive, hword, hdivides⟩ :=
        ih ⟨hwell.formed.1, hwell.complements.1⟩ (mul_pos hpositive hdivisor) hfits
      exact ⟨htyped, hpositive, hword, fun h => hdivides h.1⟩
  | case2 dividend inner divisor hnone => exact ⟨⟨hwell, rfl⟩, hdivisor, hword, id⟩
  | case3 e divisor hother => exact ⟨⟨hwell, rfl⟩, hdivisor, hword, id⟩

/-- What is left to divide when divisions are merged. -/
def mergedRest (e : Expr) (divisor : Int) : LinearForm :=
  restForm (mergedDivision e divisor).1 (mergedDivision e divisor).2

/-- The quotient by a literal as an integer, once divisions are merged. A bound that leaves
one value takes its place. -/
def mergedQuotient? (facts : Facts) (assignment : Assignment) (e : Expr) (divisor : Int) :
    Option Int :=
  let bound := facts.bound (facts.simplifyDiv e divisor)
  if bound.isPoint then some (e.dtype.truncate bound.min)
  else wrappedQuotient? facts assignment (mergedDivision e divisor).1 (mergedDivision e divisor).2

/-- Apart from the product of the divisors nothing wraps: the linear form of the merged
dividend has its value, the rest is an exact integer within its bound, and a bound that
leaves the quotient one value leaves the right one. -/
structure MergesExactly (facts : Facts) (assignment : Assignment) (e : Expr) (divisor : Int) :
    Prop where
  form : e.dtype.contains
    ((LinearForm.ofExpr (mergedDivision e divisor).1).valueAt assignment) = true
  rest : facts.Encloses assignment (mergedRest e divisor).toExpr
    ((mergedRest e divisor).valueAt assignment)
  point : (facts.bound (facts.simplifyDiv e divisor)).isPoint = true →
    (facts.simplifyDiv e divisor).eval assignment =
      .ok (facts.bound (facts.simplifyDiv e divisor)).min

/-- The product of the divisors may be written down in the type of the dividend: the rest
is dropped, or it is divided alike. -/
def MergesRightly (facts : Facts) (assignment : Assignment) (e : Expr) (divisor : Int) : Prop :=
  facts.quotientOfRest? (mergedRest e divisor).toExpr (mergedDivision e divisor).2 = none ∨
    DividesAlike e.dtype (mergedDivision e divisor).2 ((mergedRest e divisor).valueAt assignment)

instance (facts : Facts) (assignment : Assignment) (e : Expr) (divisor : Int) :
    Decidable (MergesRightly facts assignment e divisor) :=
  inferInstanceAs (Decidable (_ ∨ _))

variable (hwell : e.WellTyped) (hdivisor : 0 < divisor) (hword : Word.fits divisor = true)
include hwell hdivisor hword

section Quotient

variable (integer : e.dtype ≠ .bool) (hwords : MergesInWords e divisor)
include integer hwords

/-- The quotient by a positive literal has exactly the value that the wrapped integers say. -/
theorem eval_simplifyDiv_eq_ok_iff {dividend : Int}
    (hdividend : (mergedDivision e divisor).1.eval assignment = .ok dividend) (facts : Facts)
    (result : Int) :
    (facts.simplifyDiv e divisor).eval assignment = .ok result ↔
      wrappedQuotient? facts assignment (mergedDivision e divisor).1
        (mergedDivision e divisor).2 = some result := by
  obtain ⟨htyped, hpositive, hfits, -⟩ := mergedDivision_spec hwell hdivisor hword
  rw [Facts.simplifyDiv_eq]
  exact eval_divideLinear_eq_ok_iff htyped.wellTyped (htyped.dtype_eq ▸ integer) hdividend
    hpositive hfits hwords result

/-- The same after a bound may have replaced it. -/
theorem eval_collapse_simplifyDiv_eq_ok_iff {dividend : Int}
    (hdividend : (mergedDivision e divisor).1.eval assignment = .ok dividend) (facts : Facts)
    (result : Int) :
    (facts.collapse (facts.simplifyDiv e divisor)).eval assignment = .ok result ↔
      mergedQuotient? facts assignment e divisor = some result := by
  have hdtype : (facts.simplifyDiv e divisor).dtype = e.dtype :=
    (Facts.typedAt_simplifyDiv facts ⟨hwell, rfl⟩ divisor).dtype_eq
  rw [facts.eval_collapse_eq_ok_iff, mergedQuotient?, hdtype,
    eval_simplifyDiv_eq_ok_iff hwell hdivisor hword integer hwords hdividend]
  split
  · rw [Option.some.injEq]
  · rfl

/-- Where nothing else wraps, that is the floored quotient exactly if the divisions are merged
rightly. -/
theorem mergedQuotient?_eq_ediv_iff (hvalue : e.eval assignment = .ok value)
    (h : MergesExactly facts assignment e divisor) :
    mergedQuotient? facts assignment e divisor = some (value / divisor) ↔
      MergesRightly facts assignment e divisor := by
  obtain ⟨htyped, hpositive, hfits, -⟩ := mergedDivision_spec hwell hdivisor hword
  obtain ⟨-, -, merged, hmerged, heq⟩ := eval_mergedDivision hwell hdivisor hvalue
  rw [← eval_collapse_simplifyDiv_eq_ok_iff hwell hdivisor hword integer hwords hmerged,
    Facts.eval_collapse_of_isPoint h.point,
    eval_simplifyDiv_eq_ok_iff hwell hdivisor hword integer hwords hmerged, MergesRightly, ← heq,
    ← htyped.dtype_eq]
  exact wrappedQuotient?_eq_ediv_iff htyped.wellTyped (htyped.dtype_eq ▸ integer) hmerged hpositive
    hfits hwords (htyped.dtype_eq.symm ▸ h.form) h.rest

end Quotient

/-- Merged divisions divide by a positive literal, if their product is one. -/
theorem dividesPositively_simplifyDiv (hdivides : e.DividesPositively)
    (hpositive : facts.quotientOfRest? (mergedRest e divisor).toExpr
        (mergedDivision e divisor).2 = none ∨
      0 < e.dtype.truncate (mergedDivision e divisor).2) :
    (facts.simplifyDiv e divisor).DividesPositively := by
  obtain ⟨htyped, -, -, hmerged⟩ := mergedDivision_spec hwell hdivisor hword
  have hdtype := htyped.dtype_eq
  rw [Facts.simplifyDiv_eq]
  rw [← hdtype] at htyped hpositive
  exact (dividesAt_divideLinear ⟨htyped, hmerged hdivides⟩ hpositive).divides

/-- Over unsigned types divisions are always merged rightly: a rest cannot be bounded
beyond its type, so it is seen to lie below a product that is no value of the type. -/
theorem mergesRightly_of_isUnsigned (unsigned : e.dtype.isUnsigned = true) :
    MergesRightly facts assignment e divisor := by
  obtain ⟨htyped, hpositive, -, -⟩ := mergedDivision_spec hwell hdivisor hword
  have hrest : (mergedRest e divisor).toExpr.TypedAt e.dtype := LinearForm.typedAt_rest htyped _
  obtain ⟨hlow, hhigh⟩ := Bound.ofExpr_within (facts.varBound Facts.followDepth)
    hrest.wellTyped.formed
  have hzero := DType.minValue_of_isUnsigned unsigned
  rw [hrest.dtype_eq] at hlow hhigh
  rw [hzero] at hlow
  cases hcontains : e.dtype.contains (mergedDivision e divisor).2 with
  | true => exact .inr (.inl hcontains)
  | false =>
      rw [← Bool.not_eq_true, DType.contains_iff, hzero] at hcontains
      have hwithin : facts.withinDivisor (mergedRest e divisor).toExpr
          (mergedDivision e divisor).2 = true := by
        simp only [Facts.withinDivisor, Bool.and_eq_true, decide_eq_true_eq]
        exact ⟨hlow, hhigh.trans_lt (by omega)⟩
      left
      rw [Facts.quotientOfRest?, if_pos (by simp [hwithin])]

end Merging

theorem Facts.dividesPositively_collapse (h : e.DividesPositively) :
    (facts.collapse e).DividesPositively := by
  rcases facts.collapse_cases e with hkept | ⟨value, hliteral⟩
  · rwa [hkept]
  · rw [hliteral]
    trivial

/-- A quotient by a positive literal is computed, or the dividend itself, or a division. -/
theorem floorDiv_literal_cases (htyped : e.TypedAt dtype) (hdivisor : 0 < divisor)
    (hcontains : dtype.contains divisor = true) :
    (e.isConst = true ∧ (e.floorDiv (.literal dtype divisor)).isConst = true) ∨
      (divisor = 1 ∧ e.floorDiv (.literal dtype divisor) = e) ∨
      (¬(e.isConst = true ∨ divisor = 1) ∧
        e.floorDiv (.literal dtype divisor) = .binary .floorDiv e (.const dtype divisor)) := by
  rw [Expr.literal, DType.truncate_of_contains hcontains]
  cases hvalue : e.value? with
  | some value =>
      left
      have hformed := htyped.wellTyped.formed
      rw [Expr.eq_const_of_value? hvalue, htyped.dtype_eq] at hformed ⊢
      have hresult : BinaryOp.compute? .floorDiv value divisor = some (value / divisor) :=
        Word.floorDiv?_of_pos (DType.fits_of_contains hformed) hdivisor
      rw [Expr.floorDiv, Expr.combine_const hresult]
      exact ⟨rfl, rfl⟩
  | none =>
      right
      have hconst : e.isConst = false := by simp [Expr.isConst, hvalue]
      have hliterals : Expr.foldLiterals? .floorDiv e (.const dtype divisor) = none := by
        simp [Expr.foldLiterals?, hvalue]
      rw [Expr.floorDiv, Expr.combine_of_dtype_eq _ htyped.dtype_eq, Expr.foldNode, hliterals]
      by_cases hone : divisor = 1
      · simp [hone, Expr.foldNeutral?, Expr.isOne, Expr.value?]
      · simp [hone, hconst, Expr.foldNeutral?, Expr.isOne, Expr.value?, Expr.keepOffsetPositive]

/-- A literal is simplified already, and it divides by nothing. -/
theorem Facts.simplify_of_isConst (facts : Facts) (h : e.isConst = true) :
    facts.simplify e = e ∧ e.DividesPositively := by
  obtain ⟨literal, hliteral⟩ := Option.isSome_iff_exists.mp h
  rw [Expr.eq_const_of_value? hliteral]
  exact ⟨Facts.simplify_const _ _ _, trivial⟩

/-- A quotient by a positive literal is simplified by merging its divisions. -/
theorem Facts.simplify_floorDiv_const (facts : Facts) (hdivisor : 0 < divisor) :
    facts.simplify (.binary .floorDiv e (.const dtype divisor)) =
      facts.collapse (facts.simplifyDiv (facts.simplify e) divisor) := by
  have hliteral : positiveLiteral? (.const dtype divisor) = some divisor := if_pos hdivisor
  have hself : facts.simplify (.const dtype divisor) = .const dtype divisor := rfl
  rw [simplify, hself, simplifyNode, hliteral]

section Nested

variable {x : Expr} {first second dividend : Int}

/-- Under division by two literals of the type, whether the quotient of a quotient keeps its
value is read off the inner quotient once that is simplified. As long as no split overflows
and what is left of its dividend has a value, it is kept exactly if the merged quotient comes
to it. Where moreover the simplified inner quotient has the right value and nothing but the
product of the divisors wraps, it is kept exactly if the divisions are merged rightly. All its
divisors are positive if those of the inner quotient are and no rest is divided by anything
but a positive literal. -/
theorem nested_floorDiv_kept_iff (hwell : x.WellTyped) (integer : x.dtype ≠ .bool)
    (hfirst : 0 < first) (hfirst' : x.dtype.contains first = true) (hsecond : 0 < second)
    (hsecond' : x.dtype.contains second = true) (hvalue : x.eval assignment = .ok value)
    (hwords : facts.SimplifiesInWords
      ((x.floorDiv (.literal x.dtype first)).floorDiv (.literal x.dtype second)))
    (hdividend : (mergedDivision (facts.simplify (x.floorDiv (.literal x.dtype first)))
      second).1.eval assignment = .ok dividend) :
    let quotient := x.floorDiv (.literal x.dtype first)
    let nested := quotient.floorDiv (.literal x.dtype second)
    let kept := facts.simplify quotient
    nested.eval assignment = .ok (value / first / second) ∧
      ((facts.simplify nested).eval assignment = nested.eval assignment ↔
        quotient.isConst = true ∨
          if second = 1 then kept.eval assignment = .ok (value / first)
          else mergedQuotient? facts assignment kept second = some (value / first / second)) ∧
      (kept.eval assignment = .ok (value / first) → MergesExactly facts assignment kept second →
        ((facts.simplify nested).eval assignment = nested.eval assignment ↔
          (quotient.isConst = true ∨ second = 1) ∨ MergesRightly facts assignment kept second)) ∧
      (kept.DividesPositively →
        (quotient.isConst = true ∨ second = 1) ∨
          facts.quotientOfRest? (mergedRest kept second).toExpr (mergedDivision kept second).2 =
            none ∨
          0 < x.dtype.truncate (mergedDivision kept second).2 →
        (facts.simplify nested).DividesPositively) := by
  intro quotient nested kept
  have htyped : quotient.TypedAt x.dtype := .combine rfl ⟨hwell, rfl⟩ (.literal first)
  have hquotient : quotient.eval assignment = .ok (value / first) :=
    eval_floorDiv_literal hwell hvalue hfirst hfirst'
  have hnested : nested.eval assignment = .ok (value / first / second) := by
    have heval := eval_floorDiv_literal htyped.wellTyped hquotient hsecond
      (htyped.dtype_eq.symm ▸ hsecond')
    rwa [htyped.dtype_eq] at heval
  refine ⟨hnested, ?_⟩
  rcases floorDiv_literal_cases htyped hsecond hsecond' with
    ⟨hliteral, hconst⟩ | ⟨rfl, hsame⟩ | ⟨hfree, hnode⟩
  · obtain ⟨hself, hdivides⟩ := facts.simplify_of_isConst hconst
    rw [show facts.simplify nested = nested from hself]
    exact ⟨iff_of_true rfl (.inl hliteral), fun _ _ => iff_of_true rfl (.inl (.inl hliteral)),
      fun _ _ => hdivides⟩
  · rw [show nested = quotient from hsame, if_pos rfl, hquotient]
    refine ⟨⟨.inr, ?_⟩, fun hinner _ => iff_of_true hinner (.inl (.inr rfl)),
      fun hdivides _ => hdivides⟩
    rintro (hliteral | hkept)
    · rw [(facts.simplify_of_isConst hliteral).1, hquotient]
    · exact hkept
  · have htyped' : kept.TypedAt x.dtype := htyped.dtype_eq ▸ facts.typedAt_simplify htyped.wellTyped
    have integer' : kept.dtype ≠ .bool := fun hbool => integer (htyped'.dtype_eq.symm.trans hbool)
    have hword := DType.fits_of_contains hsecond'
    have hmerges : MergesInWords kept second := by
      rw [hnode] at hwords
      exact hwords.2.2 second (if_pos hsecond)
    obtain ⟨hliteral, hone⟩ := not_or.mp hfree
    rw [show nested = _ from hnode, facts.simplify_floorDiv_const hsecond, ← hnode,
      or_iff_right hliteral, if_neg hone, or_iff_right hfree, or_iff_right hfree, hnested,
      eval_collapse_simplifyDiv_eq_ok_iff htyped'.wellTyped hsecond hword integer' hmerges
        hdividend]
    refine ⟨Iff.rfl, fun hinner h => ?_, fun hdivides hpositive => ?_⟩
    · exact mergedQuotient?_eq_ediv_iff htyped'.wellTyped hsecond hword integer' hmerges hinner h
    · exact Facts.dividesPositively_collapse (dividesPositively_simplifyDiv htyped'.wellTyped
        hsecond hword hdivides (htyped'.dtype_eq.symm ▸ hpositive))

end Nested

/-- A sixteenth of a sixteenth of a byte: the product wraps to zero, and minus one loses
its quotient. -/
theorem nested_floorDiv_lost_of_byte :
    let x : Var := ⟨.parameter 0, "x", .int8⟩
    let assignment : Assignment := fun _ => some (-1)
    let sixteenth := fun e : Expr => e.floorDiv (.literal .int8 16)
    let nested := sixteenth (sixteenth (.var x))
    nested.eval assignment = .ok (-1) ∧
      (Facts.empty.simplify nested).eval assignment ≠ nested.eval assignment := by
  intro x assignment sixteenth nested
  have hvalue : (Expr.var x).eval assignment = .ok (-1) := by decide
  have hwords : Facts.empty.SimplifiesInWords nested := by decide +kernel
  have hdividend : (mergedDivision (Facts.empty.simplify (sixteenth (.var x))) 16).1.eval
      assignment = .ok (-1) := by decide +kernel
  obtain ⟨hnested, hkept, -⟩ := nested_floorDiv_kept_iff (by decide) (by decide) (by decide)
    (by decide) (by decide) (by decide) hvalue hwords hdividend
  exact ⟨hnested, fun h => absurd (hkept.mp h) (by decide +kernel)⟩

/-- The merged quotient also says what comes of a coefficient that wraps before the product
does: the sixth of 104 becomes minus 26. -/
example :
    let x := Expr.var ⟨.parameter 0, "x", .int8⟩
    let y := Expr.var ⟨.parameter 1, "y", .int8⟩
    let assignment : Assignment := fun v => if v.name = "x" then some (-2) else some 2
    let fifty := fun e : Expr => e.mul (.literal .int8 50)
    let sum := ((fifty y).add (x.mul (.literal .int8 48))).add (fifty y)
    sum.eval assignment = .ok 104 ∧
      mergedQuotient? Facts.empty assignment
        (Facts.empty.simplify (sum.floorDiv (.literal .int8 3))) 2 = some (-26) := by
  decide +kernel

end LoopNest
