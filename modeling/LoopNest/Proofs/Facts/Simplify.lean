/-
# Simplification keeps the value

Under facts that an assignment respects, an expression and its simplified form have
the same value. Simplification trusts bounds, and bounds are about exact integers, so
everything that is built on the way and looked at by the bound analysis has to be
exact at the assignment. `SimplifiesExactly` lists what that is, following the
recursion of the simplifier.

The right operand of a conjunction or disjunction is only followed when it is
evaluated. Otherwise nothing is known about its value, and nothing needs to be: it is
still well typed, and folding it away or keeping it leaves the decided value. It is
simplified all the same, so overflow is excluded there as well.
-/

import LoopNest.Proofs.Facts.Division

namespace LoopNest

namespace Expr

variable {assignment : Assignment} {op : BinaryOp} {lhs rhs : Expr} {value : Int}

/-- Operands may be replaced by operands of the same type and value; the right one
counts only where it is evaluated. -/
theorem eval_binary_congr {lhs' rhs' : Expr} (hdtype : lhs'.dtype = lhs.dtype)
    (hleft : ∀ left, lhs.eval assignment = .ok left → lhs'.eval assignment = .ok left)
    (hright : ∀ left right, lhs.eval assignment = .ok left → op.decidedBy? left = none →
      rhs.eval assignment = .ok right → rhs'.eval assignment = .ok right)
    (hvalue : (binary op lhs rhs).eval assignment = .ok value) :
    (binary op lhs' rhs').eval assignment = .ok value := by
  obtain ⟨left, hl, hdecided | ⟨hopen, right, result, hr, hresult, rfl⟩⟩ := eval_binary_inv hvalue
  · exact eval_binary_of_decidedBy? (hleft left hl) hdecided
  · rw [eval_binary_of_eval (hleft left hl) (hright left right hl hopen hr) hresult]
    simp [dtype, hdtype]

end Expr

namespace Expr

variable {assignment : Assignment} {op : BinaryOp} {lhs rhs : Expr} {value : Int}

/-- A comparison has the truth value that is computed from its operands. -/
theorem eval_comparison_inv (hop : op.isComparison = true)
    (hvalue : (binary op lhs rhs).eval assignment = .ok value) :
    ∃ left right, lhs.eval assignment = .ok left ∧ rhs.eval assignment = .ok right ∧
      op.compute? left right = some value := by
  have hlogical : op.isLogical = false := by
    cases op <;> simp_all [BinaryOp.isComparison, BinaryOp.isLogical]
  have hpredicate : op.isPredicate = true := by simp [BinaryOp.isPredicate, hop]
  obtain ⟨left, right, result, hleft, hright, hresult, rfl⟩ :=
    eval_binary_inv_of_not_isLogical hlogical hvalue
  have hcontains := DType.contains_bool_iff.mpr (BinaryOp.compute?_predicate hpredicate hresult)
  refine ⟨left, right, hleft, hright, ?_⟩
  rw [hresult]
  simp [dtype, hpredicate, DType.truncate_of_contains hcontains]

theorem eval_comparison (hop : op.isComparison = true) {left right : Int} {holds : Bool}
    (hleft : lhs.eval assignment = .ok left) (hright : rhs.eval assignment = .ok right)
    (h : op.compute? left right = some (BinaryOp.truth holds)) :
    (binary op lhs rhs).eval assignment = .ok (BinaryOp.truth holds) := by
  have hpredicate : op.isPredicate = true := by simp [BinaryOp.isPredicate, hop]
  have hcontains := DType.contains_bool_iff.mpr (BinaryOp.truth_eq_zero_or_one holds)
  rw [eval_binary_of_eval hleft hright h]
  simp [dtype, hpredicate, DType.truncate_of_contains hcontains]

end Expr

/-- Taking a difference is exact: it does not wrap, and its normal form is exact. -/
structure DifferenceExact (assignment : Assignment) (lhs rhs : Expr) : Prop where
  fits : lhs.IfValue assignment fun left => rhs.IfValue assignment fun right =>
    lhs.dtype.contains (left - right) = true
  truth : lhs.dtype = .bool → LinearForm.TruthExact assignment (lhs.sub rhs)
  normal : (lhs.sub rhs).normalize.Exact assignment

instance (assignment : Assignment) (lhs rhs : Expr) :
    Decidable (DifferenceExact assignment lhs rhs) :=
  decidable_of_iff
    ((lhs.IfValue assignment fun left => rhs.IfValue assignment fun right =>
        lhs.dtype.contains (left - right) = true) ∧
      (lhs.dtype = .bool → LinearForm.TruthExact assignment (lhs.sub rhs)) ∧
      (lhs.sub rhs).normalize.Exact assignment)
    ⟨fun h => ⟨h.1, h.2.1, h.2.2⟩, fun h => ⟨h.fits, h.truth, h.normal⟩⟩

/-- A comparison of numbers looks at a difference, a comparison of truth values does not. -/
def ComparesExactly (assignment : Assignment) (lhs rhs : Expr) : Prop :=
  (lhs.dtype.isBool || rhs.dtype.isBool) = false → DifferenceExact assignment lhs rhs

instance (assignment : Assignment) (lhs rhs : Expr) :
    Decidable (ComparesExactly assignment lhs rhs) :=
  inferInstanceAs (Decidable (_ → _))

section Operators

variable {assignment : Assignment} {facts : Facts} {lhs rhs e : Expr} {left right value : Int}
variable (hrespects : facts.Respects assignment)
include hrespects

/-- The bound of a difference admits the difference of the values. -/
theorem Facts.Respects.differenceBound_admits (hlhs : lhs.WellTyped) (hrhs : rhs.WellTyped)
    (same : lhs.dtype = rhs.dtype) (h : DifferenceExact assignment lhs rhs)
    (hleft : lhs.eval assignment = .ok left) (hright : rhs.eval assignment = .ok right) :
    (facts.differenceBound lhs rhs).Admits (left - right) := by
  have htyped : (lhs.sub rhs).TypedAt lhs.dtype := .combine rfl ⟨hlhs, rfl⟩ ⟨hrhs, same.symm⟩
  have hvalue : (lhs.sub rhs).eval assignment = .ok (left - right) := by
    apply Expr.eval_combine hlhs.formed hrhs.formed same (by simp [BinaryOp.isLogical])
    rw [Expr.eval_binary_of_eval hleft hright rfl]
    exact congrArg Except.ok (DType.truncate_of_contains (h.fits left hleft right hright))
  have hnormal := Expr.eval_normalize htyped.wellTyped hvalue
    fun hbool => h.truth (htyped.dtype_eq ▸ hbool)
  exact hrespects.bound_admits htyped.normalize.wellTyped.formed h.normal hnormal

theorem Facts.Respects.eval_simplifyMin (hlhs : lhs.WellTyped) (hrhs : rhs.WellTyped)
    (same : lhs.dtype = rhs.dtype) (h : lhs ≠ rhs → DifferenceExact assignment lhs rhs)
    (hvalue : (Expr.binary .min lhs rhs).eval assignment = .ok value) :
    (facts.simplifyMin lhs rhs).eval assignment = .ok value := by
  obtain ⟨left, right, result, hleft, hright, hresult, rfl⟩ :=
    Expr.eval_binary_inv_of_not_isLogical rfl hvalue
  obtain rfl : Min.min left right = result := Option.some.inj hresult
  have hleast : ∀ {e : Expr} {least : Int}, e.dtype = lhs.dtype → e.eval assignment = .ok least →
      Min.min left right = least →
      e.eval assignment = .ok ((Expr.binary .min lhs rhs).dtype.truncate (Min.min left right)) :=
    fun hdtype heval heq => by
      rw [heq, heval]
      exact congrArg Except.ok (DType.truncate_of_contains (hdtype ▸ Expr.eval_contains heval)).symm
  unfold Facts.simplifyMin
  split
  · rename_i heq
    subst heq
    obtain rfl : left = right := Except.ok.inj (hleft.symm.trans hright)
    exact hleast rfl hleft (min_self left)
  · rename_i hne
    have hadmits := hrespects.differenceBound_admits hlhs hrhs same (h hne) hleft hright
    simp only
    split
    · rename_i hmax
      have hle : left ≤ right := sub_nonpos.mp (hadmits.upper.trans hmax)
      exact hleast rfl hleft (min_eq_left hle)
    · split
      · rename_i hmin
        have hle : right ≤ left := sub_nonneg.mp (hmin.trans hadmits.lower)
        exact hleast same.symm hright (min_eq_right hle)
      · exact Expr.eval_combine hlhs.formed hrhs.formed same (by simp [BinaryOp.isLogical]) hvalue

theorem Facts.Respects.eval_simplifyMax (hlhs : lhs.WellTyped) (hrhs : rhs.WellTyped)
    (same : lhs.dtype = rhs.dtype) (h : lhs ≠ rhs → DifferenceExact assignment lhs rhs)
    (hvalue : (Expr.binary .max lhs rhs).eval assignment = .ok value) :
    (facts.simplifyMax lhs rhs).eval assignment = .ok value := by
  obtain ⟨left, right, result, hleft, hright, hresult, rfl⟩ :=
    Expr.eval_binary_inv_of_not_isLogical rfl hvalue
  obtain rfl : Max.max left right = result := Option.some.inj hresult
  have hgreatest : ∀ {e : Expr} {greatest : Int}, e.dtype = lhs.dtype →
      e.eval assignment = .ok greatest → Max.max left right = greatest →
      e.eval assignment = .ok ((Expr.binary .max lhs rhs).dtype.truncate (Max.max left right)) :=
    fun hdtype heval heq => by
      rw [heq, heval]
      exact congrArg Except.ok (DType.truncate_of_contains (hdtype ▸ Expr.eval_contains heval)).symm
  unfold Facts.simplifyMax
  split
  · rename_i heq
    subst heq
    obtain rfl : left = right := Except.ok.inj (hleft.symm.trans hright)
    exact hgreatest rfl hleft (max_self left)
  · rename_i hne
    have hadmits := hrespects.differenceBound_admits hlhs hrhs same (h hne) hleft hright
    simp only
    split
    · rename_i hmin
      have hle : right ≤ left := sub_nonneg.mp (hmin.trans hadmits.lower)
      exact hgreatest rfl hleft (max_eq_left hle)
    · split
      · rename_i hmax
        have hle : left ≤ right := sub_nonpos.mp (hadmits.upper.trans hmax)
        exact hgreatest same.symm hright (max_eq_right hle)
      · exact Expr.eval_combine hlhs.formed hrhs.formed same (by simp [BinaryOp.isLogical]) hvalue

end Operators

/-- What is settled holds always or never. -/
theorem Facts.settle_eq_some {always never holds : Bool}
    (h : Facts.settle always never = some holds) :
    always = true ∧ holds = true ∨ never = true ∧ holds = false := by
  cases always <;> cases never <;> simp_all [Facts.settle]

/-- A comparison that is decided by the bound of the difference has the decided value. -/
theorem Facts.compute?_of_decideComparison {op : BinaryOp} {difference : Bound} {left right : Int}
    {holds : Bool} (hadmits : difference.Admits (left - right))
    (h : Facts.decideComparison op difference = some holds) :
    op.compute? left right = some (BinaryOp.truth holds) := by
  have hlower := hadmits.lower
  have hupper := hadmits.upper
  have hpoint := hadmits.eq_of_isPoint
  cases op <;> simp only [Facts.decideComparison, reduceCtorEq] at h
  all_goals
    simp only [BinaryOp.compute?]
    refine congrArg (fun holds => some (BinaryOp.truth holds)) ?_
    rcases Facts.settle_eq_some h with ⟨hknown, rfl⟩ | ⟨hknown, rfl⟩ <;>
      simp only [Bool.and_eq_true, Bool.or_eq_true, decide_eq_true_eq, decide_eq_false_iff_not]
        at hknown ⊢ <;>
      grind

section Nodes

variable {assignment : Assignment} {facts : Facts} {op : BinaryOp} {lhs rhs e : Expr}
variable {value : Int}

/-- A comparison keeps its value, decided or not. -/
theorem Facts.Respects.eval_simplifyComparison (hrespects : facts.Respects assignment)
    (hop : op.isComparison = true) (hlhs : lhs.WellTyped) (hrhs : rhs.WellTyped)
    (same : lhs.dtype = rhs.dtype) (h : ComparesExactly assignment lhs rhs)
    (hvalue : (Expr.binary op lhs rhs).eval assignment = .ok value) :
    (facts.simplifyComparison op lhs rhs).eval assignment = .ok value := by
  have hlogical : op.isLogical = false := by
    cases op <;> simp_all [BinaryOp.isComparison, BinaryOp.isLogical]
  have hcombine := Expr.eval_combine hlhs.formed hrhs.formed same (by simp [hlogical]) hvalue
  unfold Facts.simplifyComparison
  split
  · exact hcombine
  · rename_i hnumbers
    split
    · rename_i holds hdecided
      obtain ⟨left, right, hleft, hright, hresult⟩ := Expr.eval_comparison_inv hop hvalue
      have hadmits := hrespects.differenceBound_admits hlhs hrhs same
        (h (Bool.eq_false_iff.mpr hnumbers)) hleft hright
      have htruth := Facts.compute?_of_decideComparison hadmits hdecided
      rw [hresult, Option.some.injEq] at htruth
      rw [htruth, Expr.eval_ofBool]
    · exact hcombine

/-- The complement of a comparison compares the other way round. -/
def ComplementsExactly (assignment : Assignment) : Expr → Prop
  | .binary .lt lhs rhs | .binary .le lhs rhs => ComparesExactly assignment rhs lhs
  | .binary .eq lhs rhs | .binary .ne lhs rhs => ComparesExactly assignment lhs rhs
  | _ => True

instance decidableComplementsExactly : (e : Expr) → Decidable (ComplementsExactly assignment e)
  | .binary .lt lhs rhs | .binary .le lhs rhs =>
    inferInstanceAs (Decidable (ComparesExactly assignment rhs lhs))
  | .binary .eq lhs rhs | .binary .ne lhs rhs =>
    inferInstanceAs (Decidable (ComparesExactly assignment lhs rhs))
  | .binary .add _ _ | .binary .sub _ _ | .binary .mul _ _ | .binary .floorDiv _ _
  | .binary .floorMod _ _ | .binary .min _ _ | .binary .max _ _ | .binary .and _ _
  | .binary .or _ _ | .const _ _ | .var _ | .cast _ _ | .neg _ | .not _ => isTrue trivial

/-- A complement keeps its value, turned around or not. -/
theorem Facts.Respects.eval_simplifyNot (hrespects : facts.Respects assignment)
    (htyped : e.TypedAt .bool) (h : ComplementsExactly assignment e)
    (hvalue : e.eval assignment = .ok value) :
    (facts.simplifyNot e).eval assignment = .ok (BinaryOp.truth (decide (value = 0))) := by
  obtain ⟨⟨hformed, hcomplements⟩, hbool⟩ := htyped
  unfold Facts.simplifyNot
  split
  · rename_i lhs rhs
    obtain ⟨hlhs, hrhs, same, -⟩ := hformed
    obtain ⟨left, right, hleft, hright, hresult⟩ := Expr.eval_comparison_inv rfl hvalue
    refine hrespects.eval_simplifyComparison rfl ⟨hrhs, hcomplements.2⟩ ⟨hlhs, hcomplements.1⟩
      same.symm h (Expr.eval_comparison rfl hright hleft ?_)
    rw [← Option.some.inj hresult]
    simp [BinaryOp.compute?]
  · rename_i lhs rhs
    obtain ⟨hlhs, hrhs, same, -⟩ := hformed
    obtain ⟨left, right, hleft, hright, hresult⟩ := Expr.eval_comparison_inv rfl hvalue
    refine hrespects.eval_simplifyComparison rfl ⟨hrhs, hcomplements.2⟩ ⟨hlhs, hcomplements.1⟩
      same.symm h (Expr.eval_comparison rfl hright hleft ?_)
    rw [← Option.some.inj hresult]
    simp [BinaryOp.compute?]
  · rename_i lhs rhs
    obtain ⟨hlhs, hrhs, same, -⟩ := hformed
    obtain ⟨left, right, hleft, hright, hresult⟩ := Expr.eval_comparison_inv rfl hvalue
    refine hrespects.eval_simplifyComparison rfl ⟨hlhs, hcomplements.1⟩ ⟨hrhs, hcomplements.2⟩
      same h (Expr.eval_comparison rfl hleft hright ?_)
    rw [← Option.some.inj hresult]
    simp [BinaryOp.compute?]
  · rename_i lhs rhs
    obtain ⟨hlhs, hrhs, same, -⟩ := hformed
    obtain ⟨left, right, hleft, hright, hresult⟩ := Expr.eval_comparison_inv rfl hvalue
    refine hrespects.eval_simplifyComparison rfl ⟨hlhs, hcomplements.1⟩ ⟨hrhs, hcomplements.2⟩
      same h (Expr.eval_comparison rfl hleft hright ?_)
    rw [← Option.some.inj hresult]
    simp [BinaryOp.compute?]
  · rename_i operand
    obtain ⟨inner, hinner, rfl⟩ := Expr.eval_not_inv hvalue
    have hcontains := Expr.eval_contains hinner
    rw [hcomplements.2, DType.contains_bool_iff] at hcontains
    rcases hcontains with rfl | rfl <;> exact hinner
  · exact Expr.eval_complement hformed hvalue

/-- What simplifying a node over simplified operands takes for granted. -/
def NodeExact (assignment : Assignment) (op : BinaryOp) (lhs rhs : Expr) : Prop :=
  match op with
  | .add | .sub | .mul =>
    lhs.dtype = .bool → LinearForm.TruthExact assignment (.combine op lhs rhs)
  | .floorDiv => ∀ divisor ∈ Facts.positiveLiteral? rhs, DividesExactly assignment lhs divisor
  | .floorMod => ∀ divisor ∈ Facts.positiveLiteral? rhs, LeavesExactly assignment lhs divisor
  | .min | .max => lhs ≠ rhs → DifferenceExact assignment lhs rhs
  | .lt | .le | .eq | .ne => ComparesExactly assignment lhs rhs
  | .and | .or => True

instance decidableNodeExact : (op : BinaryOp) → Decidable (NodeExact assignment op lhs rhs)
  | .add | .sub | .mul =>
    inferInstanceAs (Decidable (lhs.dtype = .bool → LinearForm.TruthExact assignment _))
  | .floorDiv =>
    inferInstanceAs (Decidable (∀ divisor ∈ Facts.positiveLiteral? rhs,
      DividesExactly assignment lhs divisor))
  | .floorMod =>
    inferInstanceAs (Decidable (∀ divisor ∈ Facts.positiveLiteral? rhs,
      LeavesExactly assignment lhs divisor))
  | .min | .max => inferInstanceAs (Decidable (lhs ≠ rhs → DifferenceExact assignment lhs rhs))
  | .lt | .le | .eq | .ne => inferInstanceAs (Decidable (ComparesExactly assignment lhs rhs))
  | .and | .or => isTrue trivial

/-- A sum, difference or product keeps its value when it is normalized. -/
theorem eval_normalize_combine (hop : op.isPredicate = false) (hlhs : lhs.WellTyped)
    (hrhs : rhs.WellTyped) (same : lhs.dtype = rhs.dtype)
    (h : lhs.dtype = .bool → LinearForm.TruthExact assignment (.combine op lhs rhs))
    (hvalue : (Expr.binary op lhs rhs).eval assignment = .ok value) :
    (Expr.combine op lhs rhs).normalize.eval assignment = .ok value := by
  have htyped : (Expr.combine op lhs rhs).TypedAt lhs.dtype :=
    .combine hop ⟨hlhs, rfl⟩ ⟨hrhs, same.symm⟩
  have hlogical : op.isLogical = true → lhs.dtype = .bool := fun hlogical =>
    absurd hlogical (BinaryOp.not_isLogical hop)
  exact Expr.eval_normalize htyped.wellTyped
    (Expr.eval_combine hlhs.formed hrhs.formed same hlogical hvalue)
    fun hbool => h (htyped.dtype_eq ▸ hbool)

/-- A positive literal is the divisor that a division evaluates. -/
theorem Facts.eval_of_positiveLiteral? {divisor : Int} (hformed : rhs.Formed)
    (h : Facts.positiveLiteral? rhs = some divisor) :
    0 < divisor ∧ rhs.eval assignment = .ok divisor := by
  simp only [Facts.positiveLiteral?, Option.bind_eq_bind, Option.bind_eq_some_iff,
    Option.ite_none_right_eq_some, Option.some.injEq] at h
  obtain ⟨literal, hliteral, hpositive, rfl⟩ := h
  exact ⟨hpositive, Expr.eval_of_value? hformed hliteral⟩

/-- A node over simplified operands keeps its value. -/
theorem Facts.Respects.eval_simplifyNode (hrespects : facts.Respects assignment)
    (hlhs : lhs.WellTyped) (hrhs : rhs.WellTyped) (same : lhs.dtype = rhs.dtype)
    (hbool : op.isLogical = true → lhs.dtype = .bool) (h : NodeExact assignment op lhs rhs)
    (hvalue : (Expr.binary op lhs rhs).eval assignment = .ok value) :
    (facts.simplifyNode op lhs rhs).eval assignment = .ok value := by
  have hcombine := Expr.eval_combine hlhs.formed hrhs.formed same hbool hvalue
  cases op with
  | add | sub | mul => exact eval_normalize_combine rfl hlhs hrhs same h hvalue
  | floorDiv =>
      simp only [Facts.simplifyNode]
      split
      · rename_i divisor hdivisor
        obtain ⟨hpositive, hright⟩ := Facts.eval_of_positiveLiteral? hrhs.formed hdivisor
        obtain ⟨left, right, result, hleft, hright', hresult, rfl⟩ :=
          Expr.eval_binary_inv_of_not_isLogical rfl hvalue
        obtain rfl : divisor = right := Except.ok.inj (hright.symm.trans hright')
        have hcontains := Expr.eval_contains hleft
        have hquotient : BinaryOp.compute? .floorDiv left divisor = some (left / divisor) :=
          Word.floorDiv?_of_pos (DType.fits_of_contains hcontains) hpositive
        obtain rfl : left / divisor = result := Option.some.inj (hquotient.symm.trans hresult)
        rw [show (Expr.binary .floorDiv lhs rhs).dtype = lhs.dtype from rfl,
          DType.truncate_of_contains (DType.contains_ediv hcontains hpositive)]
        exact hrespects.eval_simplifyDiv hlhs hpositive (h divisor hdivisor) hleft
      · exact hcombine
  | floorMod =>
      simp only [Facts.simplifyNode]
      split
      · rename_i divisor hdivisor
        obtain ⟨hpositive, hright⟩ := Facts.eval_of_positiveLiteral? hrhs.formed hdivisor
        obtain ⟨left, right, result, hleft, hright', hresult, rfl⟩ :=
          Expr.eval_binary_inv_of_not_isLogical rfl hvalue
        obtain rfl : divisor = right := Except.ok.inj (hright.symm.trans hright')
        obtain ⟨-, rfl⟩ := Word.eq_fmod_of_floorMod? hresult
        have hcontains : lhs.dtype.contains divisor = true := same ▸ Expr.eval_contains hright
        rw [Int.fmod_eq_emod_of_nonneg _ hpositive.le,
          show (Expr.binary .floorMod lhs rhs).dtype = lhs.dtype from rfl,
          DType.truncate_of_contains (DType.contains_emod hcontains hpositive left)]
        exact hrespects.eval_simplifyMod hlhs hpositive (h divisor hdivisor) hleft
      · exact hcombine
  | min => exact hrespects.eval_simplifyMin hlhs hrhs same h hvalue
  | max => exact hrespects.eval_simplifyMax hlhs hrhs same h hvalue
  | lt | le | eq | ne => exact hrespects.eval_simplifyComparison rfl hlhs hrhs same h hvalue
  | and | or => exact hcombine

/-- A literal that is put in place of an expression has its value. -/
theorem Facts.Respects.eval_collapse (hrespects : facts.Respects assignment)
    (hformed : e.Formed) (h : e.Exact assignment) (hvalue : e.eval assignment = .ok value) :
    (facts.collapse e).eval assignment = .ok value := by
  unfold Facts.collapse
  split
  · exact hvalue
  · simp only
    split
    · rename_i hpoint
      have heq := (hrespects.bound_admits hformed h hvalue).eq_of_isPoint hpoint
      rw [← heq]
      exact Expr.eval_literal (Expr.eval_contains hvalue)
    · exact hvalue

end Nodes

namespace Facts

variable {assignment : Assignment} {facts : Facts} {e : Expr} {value : Int}

/-- No split overflows where a node over simplified operands is simplified. -/
def NodeInWords (op : BinaryOp) (lhs rhs : Expr) : Prop :=
  match op with
  | .floorDiv => ∀ divisor ∈ positiveLiteral? rhs, MergesInWords lhs divisor
  | .floorMod => ∀ divisor ∈ positiveLiteral? rhs, (LinearForm.ofExpr lhs).SplitsInWords divisor
  | _ => True

instance decidableNodeInWords (lhs rhs : Expr) : (op : BinaryOp) → Decidable (NodeInWords op lhs rhs)
  | .floorDiv =>
    inferInstanceAs (Decidable (∀ divisor ∈ positiveLiteral? rhs, MergesInWords lhs divisor))
  | .floorMod =>
    inferInstanceAs (Decidable (∀ divisor ∈ positiveLiteral? rhs,
      (LinearForm.ofExpr lhs).SplitsInWords divisor))
  | .add | .sub | .mul | .min | .max | .lt | .le | .eq | .ne | .and | .or => isTrue trivial

/-- No split overflows where an expression is simplified, the operands included that its
value does not depend on. -/
def SimplifiesInWords (facts : Facts) : Expr → Prop
  | .const _ _ | .var _ => True
  | .cast _ source => SimplifiesInWords facts source
  | .neg operand | .not operand => SimplifiesInWords facts operand
  | .binary op lhs rhs =>
    SimplifiesInWords facts lhs ∧ SimplifiesInWords facts rhs ∧
      NodeInWords op (facts.simplify lhs) (facts.simplify rhs)

instance decidableSimplifiesInWords (facts : Facts) : DecidablePred facts.SimplifiesInWords
  | .const _ _ | .var _ => isTrue trivial
  | .cast _ source => decidableSimplifiesInWords facts source
  | .neg operand | .not operand => decidableSimplifiesInWords facts operand
  | .binary op lhs rhs =>
    haveI := decidableSimplifiesInWords facts lhs
    haveI := decidableSimplifiesInWords facts rhs
    inferInstanceAs (Decidable (facts.SimplifiesInWords lhs ∧ facts.SimplifiesInWords rhs ∧
      NodeInWords op (facts.simplify lhs) (facts.simplify rhs)))

/-- Everything that simplifying an expression builds and trusts is exact. A right operand
that is not evaluated is simplified all the same, so no split may overflow there. -/
def SimplifiesExactly (facts : Facts) (assignment : Assignment) : Expr → Prop
  | .const dtype value => (Expr.const dtype value).Exact assignment
  | .var v => (Expr.var v).Exact assignment
  | .cast dtype source =>
    SimplifiesExactly facts assignment source ∧
      ((facts.simplify source).castTo dtype).Exact assignment
  | .neg operand =>
    SimplifiesExactly facts assignment operand ∧
      (operand.dtype = .bool →
        LinearForm.TruthExact assignment (facts.simplify operand).negate) ∧
      (facts.simplify operand).negate.normalize.Exact assignment
  | .not operand =>
    SimplifiesExactly facts assignment operand ∧
      ComplementsExactly assignment (facts.simplify operand) ∧
      (facts.simplifyNot (facts.simplify operand)).Exact assignment
  | .binary op lhs rhs =>
    SimplifiesExactly facts assignment lhs ∧ facts.SimplifiesInWords rhs ∧
      (lhs.IfValue assignment fun left =>
        op.decidedBy? left = none → SimplifiesExactly facts assignment rhs) ∧
      NodeExact assignment op (facts.simplify lhs) (facts.simplify rhs) ∧
      (facts.simplifyNode op (facts.simplify lhs) (facts.simplify rhs)).Exact assignment

instance decidableSimplifiesExactly (facts : Facts) (assignment : Assignment) :
    DecidablePred (facts.SimplifiesExactly assignment)
  | .const dtype value => inferInstanceAs (Decidable ((Expr.const dtype value).Exact assignment))
  | .var v => inferInstanceAs (Decidable ((Expr.var v).Exact assignment))
  | .cast dtype source =>
    haveI := decidableSimplifiesExactly facts assignment source
    inferInstanceAs (Decidable (facts.SimplifiesExactly assignment source ∧
      ((facts.simplify source).castTo dtype).Exact assignment))
  | .neg operand =>
    haveI := decidableSimplifiesExactly facts assignment operand
    inferInstanceAs (Decidable (facts.SimplifiesExactly assignment operand ∧
      (operand.dtype = .bool →
        LinearForm.TruthExact assignment (facts.simplify operand).negate) ∧
      (facts.simplify operand).negate.normalize.Exact assignment))
  | .not operand =>
    haveI := decidableSimplifiesExactly facts assignment operand
    inferInstanceAs (Decidable (facts.SimplifiesExactly assignment operand ∧
      ComplementsExactly assignment (facts.simplify operand) ∧
      (facts.simplifyNot (facts.simplify operand)).Exact assignment))
  | .binary op lhs rhs =>
    haveI := decidableSimplifiesExactly facts assignment lhs
    haveI := decidableSimplifiesExactly facts assignment rhs
    inferInstanceAs (Decidable (facts.SimplifiesExactly assignment lhs ∧
      facts.SimplifiesInWords rhs ∧
      (lhs.IfValue assignment fun left =>
        op.decidedBy? left = none → facts.SimplifiesExactly assignment rhs) ∧
      NodeExact assignment op (facts.simplify lhs) (facts.simplify rhs) ∧
      (facts.simplifyNode op (facts.simplify lhs) (facts.simplify rhs)).Exact assignment))

/-- Simplifying keeps the value of an expression. -/
theorem Respects.eval_simplify (hrespects : facts.Respects assignment) (hwell : e.WellTyped)
    (h : facts.SimplifiesExactly assignment e) (hvalue : e.eval assignment = .ok value) :
    (facts.simplify e).eval assignment = .ok value := by
  induction e generalizing value with
  | const dtype literal => exact hrespects.eval_collapse hwell.formed h hvalue
  | var v => exact hrespects.eval_collapse hwell.formed h hvalue
  | cast dtype source ih =>
      obtain ⟨inner, hinner, rfl⟩ := Expr.eval_cast_inv hvalue
      have hsource : source.WellTyped := ⟨hwell.formed, hwell.complements⟩
      have htyped := facts.typedAt_simplify hsource
      exact hrespects.eval_collapse (Expr.formed_castTo htyped.wellTyped.formed dtype) h.2
        (Expr.eval_castTo htyped.wellTyped.formed (ih hsource h.1 hinner) dtype)
  | neg operand ih =>
      obtain ⟨inner, hinner, rfl⟩ := Expr.eval_neg_inv hvalue
      have hoperand : operand.WellTyped := ⟨hwell.formed, hwell.complements⟩
      have htyped := facts.typedAt_simplify hoperand
      have hnegate := Expr.eval_negate htyped.wellTyped.formed (ih hoperand h.1 hinner)
      rw [htyped.dtype_eq] at hnegate
      exact hrespects.eval_collapse htyped.negate.normalize.wellTyped.formed h.2.2
        (Expr.eval_normalize htyped.negate.wellTyped hnegate
          fun hbool => h.2.1 (htyped.negate.dtype_eq ▸ hbool))
  | not operand ih =>
      obtain ⟨inner, hinner, rfl⟩ := Expr.eval_not_inv hvalue
      have hoperand : operand.WellTyped := ⟨hwell.formed, hwell.complements.1⟩
      have htyped := facts.typedAt_simplify hoperand
      rw [hwell.complements.2] at htyped
      exact hrespects.eval_collapse (typedAt_simplifyNot facts htyped).wellTyped.formed h.2.2
        (hrespects.eval_simplifyNot htyped h.2.1 (ih hoperand h.1 hinner))
  | binary op lhs rhs ihl ihr =>
      obtain ⟨hlhs, hrhs, same, hbool⟩ := hwell.formed
      obtain ⟨hl, -, hr, hnode, hresult⟩ := h
      have hlhs : lhs.WellTyped := ⟨hlhs, hwell.complements.1⟩
      have hrhs : rhs.WellTyped := ⟨hrhs, hwell.complements.2⟩
      have hleft := facts.typedAt_simplify hlhs
      have hright := facts.typedAt_simplify hrhs
      have hsame := hleft.dtype_eq.trans (same.trans hright.dtype_eq.symm)
      have hbool' := fun hlogical => hleft.dtype_eq.trans (hbool hlogical)
      have hsimplified : (Expr.binary op (facts.simplify lhs) (facts.simplify rhs)).eval assignment =
          .ok value :=
        Expr.eval_binary_congr hleft.dtype_eq (fun _ => ihl hlhs hl)
          (fun left _ heval hopen => ihr hrhs (hr left heval hopen)) hvalue
      exact hrespects.eval_collapse
        (typedAt_simplifyNode facts hleft.wellTyped hright.wellTyped hsame hbool').wellTyped.formed
        hresult
        (hrespects.eval_simplifyNode hleft.wellTyped hright.wellTyped hsame hbool' hnode hsimplified)

end Facts

end LoopNest
