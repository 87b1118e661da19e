/-
# Expressions that are built

Users put expressions together by the folding constructors, so what is stated about all the
expressions that they can have is stated about what these constructors build. Built
expressions keep the rule about literals, and if their conjunctions and disjunctions join
truth values they are formed.

For such an expression substitution commutes with evaluation: putting replacements in and
evaluating leads to the value that the expression has where every replaced variable has the
value of its replacement. The replacements may be of other types than the variables, may
mention variables that are replaced themselves, and may join numbers logically. The converse
is not claimed, since folding may drop an operand that has no value.
-/

import LoopNest.Proofs.Expr.Substitute

namespace LoopNest

/-- The assignment under which the variables that are replaced have the values of their
replacements. A variable whose replacement has no value has none. -/
def Substitution.evaluated (replacements : Substitution) (assignment : Assignment) : Assignment :=
  fun v =>
    match replacements v with
    | some replacement => (replacement.eval assignment).toOption
    | none => assignment v

namespace Expr

variable {e lhs rhs : Expr} {op : BinaryOp} {replacements : Substitution}
  {assignment : Assignment} {joins : BinaryOp → Expr → Expr → Prop}

/-- Put together by the folding constructors, with operators between operands that they may
join. -/
inductive Built (joins : BinaryOp → Expr → Expr → Prop) : Expr → Prop
  | literal (dtype : DType) (value : Int) : Built joins (literal dtype value)
  | var (v : Var) : Built joins (var v)
  | castTo {e : Expr} (h : Built joins e) (dtype : DType) : Built joins (e.castTo dtype)
  | negate {e : Expr} (h : Built joins e) : Built joins e.negate
  | complement {e : Expr} (h : Built joins e) : Built joins e.complement
  | combine {lhs rhs : Expr} (op : BinaryOp) (hlhs : Built joins lhs) (hrhs : Built joins rhs)
      (h : joins op lhs rhs) : Built joins (combine op lhs rhs)

/-- Any operator may join any operands. -/
def JoinsAll (_ : BinaryOp) (_ _ : Expr) : Prop :=
  True

/-- Conjunction and disjunction join truth values; other operators may join any operands. -/
def JoinsTruth (op : BinaryOp) (lhs rhs : Expr) : Prop :=
  op.isLogical = true → lhs.dtype = .bool ∧ rhs.dtype = .bool

theorem joinsTruth_of_not_isLogical (h : op.isLogical = false) : JoinsTruth op lhs rhs :=
  fun hlogical => absurd hlogical (by simp [h])

/-- Folding leaves no literal outside its type, also where numbers are joined logically. -/
theorem literalFits_foldNode (hlhs : lhs.LiteralFits) (hrhs : rhs.LiteralFits) :
    (foldNode op lhs rhs).LiteralFits :=
  foldNode_cases literalFits_literal hlhs hrhs (fun _ hvalue => nomatch hvalue)
    fun _ _ _ _ hvalue => nomatch hvalue

theorem literalFits_promote (hlhs : lhs.LiteralFits) (hrhs : rhs.LiteralFits) :
    (promote lhs rhs).1.LiteralFits ∧ (promote lhs rhs).2.LiteralFits := by
  rw [promote_eq_castTo]
  exact ⟨hlhs.castTo _, hrhs.castTo _⟩

namespace Built

theorem literalFits (h : Built joins e) : e.LiteralFits := by
  induction h with
  | literal dtype value => exact literalFits_literal dtype value
  | var v => exact fun _ hvalue => nomatch hvalue
  | castTo _ dtype ih => exact ih.castTo dtype
  | negate => exact literalFits_negate _
  | complement => exact literalFits_complement _
  | combine op _ _ _ ihl ihr =>
      have hoperands := literalFits_promote ihl ihr
      exact literalFits_foldNode hoperands.1 hoperands.2

theorem formed (h : Built JoinsTruth e) : e.Formed := by
  induction h with
  | literal dtype value => exact formed_literal dtype value
  | var v => trivial
  | castTo _ dtype ih => exact formed_castTo ih dtype
  | negate _ ih => exact formed_negate ih
  | complement _ ih => exact formed_complement ih
  | combine op _ _ hjoins ihl ihr => exact formed_combine ihl ihr hjoins

end Built

/-- Replacements carry the values that they have over to the variables that they replace. -/
theorem carries_evaluated
    (hfits : ∀ v replacement, replacements v = some replacement → replacement.LiteralFits)
    (assignment : Assignment) :
    replacements.Carries (replacements.evaluated assignment) assignment where
  fits := hfits
  kept v hv := by simp [Substitution.evaluated, hv]
  replaced v replacement hreplacement x hx := by
    simp only [eval_var, Substitution.evaluated, hreplacement] at hx
    cases hy : replacement.eval assignment with
    | error _ => simp [hy, Except.toOption] at hx
    | ok y =>
        simp only [hy, Except.toOption, Except.ok.injEq] at hx
        exact ⟨y, rfl, hx⟩

/-- Substitution commutes with evaluation and keeps the type. -/
theorem Built.eval_substitute (he : e.Built JoinsTruth)
    (hreplacements : ∀ v replacement, replacements v = some replacement →
      replacement.Built JoinsAll) (assignment : Assignment) :
    (e.substitute replacements).dtype = e.dtype ∧
      ∀ x, e.eval (replacements.evaluated assignment) = .ok x →
        (e.substitute replacements).eval assignment = .ok x := by
  have hfits : ∀ v replacement, replacements v = some replacement → replacement.LiteralFits :=
    fun v replacement hreplacement => (hreplacements v replacement hreplacement).literalFits
  have hcarried := carried_substitute (carries_evaluated hfits assignment) he.formed
  exact ⟨hcarried.dtype_eq, hcarried.eval⟩

section Exchange

/-- A variable of 8 bits. -/
def byteVar : Var := ⟨.parameter 0, "x", .int8⟩

/-- A variable of 32 bits. -/
def wordVar : Var := ⟨.parameter 1, "y", .int32⟩

/-- The quotient of both variables is negative and the divisor is not zero. -/
def negativeQuotient : Expr :=
  (((var byteVar).floorDiv (var wordVar)).lt (literal .int32 0)).and
    ((var wordVar).ne (literal .int32 0))

/-- Both variables are replaced at once, and each replacement mentions the other one. Twice
the value of `wordVar` need not be a value of `byteVar`. -/
def exchange : Substitution := fun v =>
  if v = byteVar then some ((var wordVar).mul (literal .int32 2))
  else if v = wordVar then some (var byteVar)
  else none

/-- The replacement of `byteVar` is 200 here, which is -56 as a number of 8 bits. -/
def exchangedAt : Assignment := fun v =>
  if v = byteVar then some 3 else if v = wordVar then some 100 else none

theorem built_negativeQuotient : negativeQuotient.Built JoinsTruth := by
  have hquotient : ((var byteVar).floorDiv (var wordVar)).Built JoinsTruth :=
    .combine .floorDiv (.var _) (.var _) (joinsTruth_of_not_isLogical rfl)
  have hnegative : (((var byteVar).floorDiv (var wordVar)).lt (literal .int32 0)).Built
      JoinsTruth :=
    .combine .lt hquotient (.literal _ _) (joinsTruth_of_not_isLogical rfl)
  have hnonzero : ((var wordVar).ne (literal .int32 0)).Built JoinsTruth :=
    .combine .ne (.var _) (.literal _ _) (joinsTruth_of_not_isLogical rfl)
  exact .combine .and hnegative hnonzero fun _ => ⟨rfl, rfl⟩

theorem eval_substitute_of_exchange :
    (negativeQuotient.substitute exchange).dtype = .bool ∧
      (negativeQuotient.substitute exchange).eval exchangedAt = .ok 1 := by
  have hbuilt : ∀ v replacement, exchange v = some replacement → replacement.Built JoinsAll := by
    intro v replacement h
    unfold exchange at h
    split at h
    · cases h
      exact .combine .mul (.var _) (.literal _ _) trivial
    · split at h
      · cases h
        exact .var _
      · cases h
  have hcommutes := built_negativeQuotient.eval_substitute hbuilt exchangedAt
  exact ⟨hcommutes.1, hcommutes.2 1 rfl⟩

end Exchange

end Expr

end LoopNest
