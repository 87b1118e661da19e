/-
# Folding keeps the meaning

A folding constructor returns a literal, one of its operands, the node itself, or
the node with its offset turned around. `Folded` lists these outcomes, and what is
built inherits from them that it is formed and which type it has.

The value of the folded expression is the value of the bare node. For an offset
that is turned around this is a fact about residues: the opposite of the least
value of a type wraps, and adding it or subtracting it makes no difference.
-/

import LoopNest.Proofs.Expr.Formed

namespace LoopNest.Expr

variable {assignment : Assignment} {op : BinaryOp} {lhs rhs : Expr}

/-- What becomes of a node whose operands share their type. -/
inductive Folded (op : BinaryOp) (lhs rhs : Expr) : Expr → Prop
  | literal (value : Int) : Folded op lhs rhs (.literal (resultType op lhs.dtype) value)
  | left (same : resultType op lhs.dtype = lhs.dtype) : Folded op lhs rhs lhs
  | right (same : resultType op lhs.dtype = lhs.dtype) : Folded op lhs rhs rhs
  | node : Folded op lhs rhs (binary op lhs rhs)
  | offset (turned : BinaryOp) (value : Int) (before : op.isPredicate = false)
      (after : turned.isPredicate = false) :
      Folded op lhs rhs (binary turned lhs (.literal lhs.dtype value))

theorem folded_of_foldLiterals? {folded : Expr} (h : foldLiterals? op lhs rhs = some folded) :
    Folded op lhs rhs folded := by
  simp only [foldLiterals?, Option.bind_eq_bind, Option.pure_def, Option.bind_eq_some_iff,
    Option.some.injEq] at h
  obtain ⟨left, -, right, -, result, -, rfl⟩ := h
  exact .literal result

theorem folded_foldAnd (hbool : lhs.dtype = .bool) (known : Int) :
    Folded .and lhs rhs (foldAnd known lhs) ∧ Folded .and lhs rhs (foldAnd known rhs) := by
  have same : resultType .and lhs.dtype = lhs.dtype := hbool.symm
  unfold foldAnd
  split
  · exact ⟨.literal _, .literal _⟩
  · exact ⟨.left same, .right same⟩

theorem folded_foldOr (hbool : lhs.dtype = .bool) (known : Int) :
    Folded .or lhs rhs (foldOr known lhs) ∧ Folded .or lhs rhs (foldOr known rhs) := by
  have same : resultType .or lhs.dtype = lhs.dtype := hbool.symm
  unfold foldOr
  split
  · exact ⟨.left same, .right same⟩
  · exact ⟨.literal _, .literal _⟩

theorem folded_of_foldNeutral? (hbool : op.isLogical = true → lhs.dtype = .bool)
    {folded : Expr} (h : foldNeutral? op lhs rhs = some folded) :
    Folded op lhs rhs folded := by
  cases op with
  | add =>
      simp only [foldNeutral?] at h
      split at h
      · exact Option.some.inj h ▸ .left rfl
      · split at h
        · exact Option.some.inj h ▸ .right rfl
        · cases h
  | sub =>
      simp only [foldNeutral?, Option.ite_none_right_eq_some, Option.some.injEq] at h
      exact h.2 ▸ .left rfl
  | mul =>
      simp only [foldNeutral?] at h
      split at h
      · exact Option.some.inj h ▸ .left rfl
      · split at h
        · exact Option.some.inj h ▸ .right rfl
        · split at h
          · exact Option.some.inj h ▸ .literal 0
          · cases h
  | floorDiv =>
      simp only [foldNeutral?, Option.ite_none_right_eq_some, Option.some.injEq] at h
      exact h.2 ▸ .left rfl
  | floorMod =>
      simp only [foldNeutral?, Option.ite_none_right_eq_some, Option.some.injEq] at h
      exact h.2 ▸ .literal 0
  | and =>
      simp only [foldNeutral?] at h
      split at h
      · exact Option.some.inj h ▸ (folded_foldAnd (hbool rfl) _).2
      · exact Option.some.inj h ▸ (folded_foldAnd (hbool rfl) _).1
      · cases h
  | or =>
      simp only [foldNeutral?] at h
      split at h
      · exact Option.some.inj h ▸ (folded_foldOr (hbool rfl) _).2
      · exact Option.some.inj h ▸ (folded_foldOr (hbool rfl) _).1
      · cases h
  | _ => simp [foldNeutral?] at h

theorem folded_keepOffsetPositive (op : BinaryOp) (lhs rhs : Expr) :
    Folded op lhs rhs (keepOffsetPositive op lhs rhs) := by
  unfold keepOffsetPositive
  split
  · exact .offset .sub _ rfl rfl
  · exact .offset .add _ rfl rfl
  · exact .node

/-- Folding a node leads to one of the listed outcomes. -/
theorem folded_foldNode (hbool : op.isLogical = true → lhs.dtype = .bool) :
    Folded op lhs rhs (foldNode op lhs rhs) := by
  unfold foldNode
  split
  · exact folded_of_foldLiterals? ‹_›
  · split
    · exact folded_of_foldNeutral? hbool ‹_›
    · exact folded_keepOffsetPositive op lhs rhs

/-- A property of literals, of both operands, of the node and of the node with its offset turned
around holds of what folding leads to, also where numbers are joined logically. -/
theorem foldNode_cases {holds : Expr → Prop} (literal : ∀ dtype value, holds (literal dtype value))
    (left : holds lhs) (right : holds rhs) (node : holds (binary op lhs rhs))
    (offset : ∀ turned value, turned.isPredicate = false →
      holds (binary turned lhs (.literal lhs.dtype value))) : holds (foldNode op lhs rhs) := by
  cases hlogical : op.isLogical with
  | false =>
      have hfolded : Folded op lhs rhs (foldNode op lhs rhs) :=
        folded_foldNode fun h => absurd h (by simp [hlogical])
      generalize foldNode op lhs rhs = folded at hfolded
      cases hfolded with
      | literal value => exact literal _ value
      | left => exact left
      | right => exact right
      | node => exact node
      | offset turned value before after => exact offset turned value after
  | true =>
      have hknown : ∀ known : Int, ∀ other : Expr, holds other →
          holds (foldAnd known other) ∧ holds (foldOr known other) := by
        intro known other hother
        unfold foldAnd foldOr
        split
        · exact ⟨literal _ _, hother⟩
        · exact ⟨hother, literal _ _⟩
      unfold foldNode
      split
      · rename_i folded hfolded
        simp only [foldLiterals?, Option.bind_eq_bind, Option.pure_def, Option.bind_eq_some_iff,
          Option.some.injEq] at hfolded
        obtain ⟨_, -, _, -, _, -, rfl⟩ := hfolded
        exact literal _ _
      · split
        · rename_i folded hfolded
          cases op <;> simp only [BinaryOp.isLogical, Bool.false_eq_true] at hlogical <;>
            simp only [foldNeutral?] at hfolded <;> split at hfolded <;> cases hfolded
          · exact (hknown _ _ right).1
          · exact (hknown _ _ left).1
          · exact (hknown _ _ right).2
          · exact (hknown _ _ left).2
        · cases op <;> simp only [BinaryOp.isLogical, Bool.false_eq_true] at hlogical <;>
            exact node

/-- A literal is formed, because it is wrapped. -/
theorem formed_literal (dtype : DType) (value : Int) : (literal dtype value).Formed :=
  DType.contains_truncate dtype value

@[simp] theorem dtype_literal (dtype : DType) (value : Int) : (literal dtype value).dtype = dtype :=
  rfl

theorem wellTyped_literal (dtype : DType) (value : Int) : (literal dtype value).WellTyped :=
  ⟨formed_literal dtype value, trivial⟩

namespace Folded

variable {folded : Expr}

theorem dtype_eq (h : Folded op lhs rhs folded) (same : lhs.dtype = rhs.dtype) :
    folded.dtype = resultType op lhs.dtype := by
  cases h with
  | literal value => rfl
  | left hresult => exact hresult.symm
  | right hresult => rw [hresult, same]
  | node => rfl
  | offset turned value before after => simp [Expr.dtype, resultType, before, after]

theorem formed (h : Folded op lhs rhs folded) (hlhs : lhs.Formed) (hrhs : rhs.Formed)
    (same : lhs.dtype = rhs.dtype) (hbool : op.isLogical = true → lhs.dtype = .bool) :
    folded.Formed := by
  cases h with
  | literal value => exact formed_literal _ _
  | left => exact hlhs
  | right => exact hrhs
  | node => exact ⟨hlhs, hrhs, same, hbool⟩
  | offset turned value before after =>
      exact ⟨hlhs, formed_literal _ _, rfl, fun hlogical =>
        absurd hlogical (BinaryOp.not_isLogical after)⟩

theorem literalFits (h : Folded op lhs rhs folded) (hlhs : lhs.LiteralFits)
    (hrhs : rhs.LiteralFits) : folded.LiteralFits := by
  cases h with
  | literal value => exact (formed_literal _ value).literalFits
  | left => exact hlhs
  | right => exact hrhs
  | node | offset => exact fun _ hvalue => nomatch hvalue

theorem complements (h : Folded op lhs rhs folded) (hlhs : lhs.ComplementsTruth)
    (hrhs : rhs.ComplementsTruth) : folded.ComplementsTruth := by
  cases h with
  | literal value => trivial
  | left => exact hlhs
  | right => exact hrhs
  | node => exact ⟨hlhs, hrhs⟩
  | offset turned value before after => exact ⟨hlhs, trivial⟩

end Folded

theorem formed_castTo {e : Expr} (h : e.Formed) (dtype : DType) : (e.castTo dtype).Formed := by
  unfold castTo
  split
  · exact h
  · split
    · exact formed_literal _ _
    · exact h

theorem complements_castTo {e : Expr} (h : e.ComplementsTruth) (dtype : DType) :
    (e.castTo dtype).ComplementsTruth := by
  unfold castTo
  split
  · exact h
  · split
    · trivial
    · exact h

/-- A literal has the value that is written, wrapped into its type. -/
theorem eval_literal_wrapped (dtype : DType) (value : Int) :
    (literal dtype value).eval assignment = .ok (dtype.truncate value) := by
  rw [literal, eval_const, DType.truncate_truncate]

/-- The value of a literal in its type is what is written. -/
theorem LiteralFits.eval {e : Expr} (hfits : e.LiteralFits) {value : Int}
    (h : e.value? = some value) : e.eval assignment = .ok value := by
  rw [eq_const_of_value? h, eval_const_of_contains (hfits value h)]

/-- The value of a formed literal is what is written. -/
theorem eval_of_value? {e : Expr} (hformed : e.Formed) {value : Int} (h : e.value? = some value) :
    e.eval assignment = .ok value :=
  hformed.literalFits.eval h

theorem literalFits_literal (dtype : DType) (value : Int) : (literal dtype value).LiteralFits :=
  (formed_literal dtype value).literalFits

/-- Viewing an expression at another type wraps its value into that type. -/
theorem LiteralFits.eval_castTo {e : Expr} (hfits : e.LiteralFits) {value : Int}
    (h : e.eval assignment = .ok value) (dtype : DType) :
    (e.castTo dtype).eval assignment = .ok (dtype.truncate value) := by
  unfold castTo
  split
  · rename_i hdtype
    rw [h, DType.truncate_of_contains (hdtype ▸ eval_contains h)]
  · split
    · rename_i literal hliteral
      rw [hfits.eval hliteral, Except.ok.injEq] at h
      rw [eval_literal_wrapped, h]
    · exact eval_cast_of_eval h

theorem LiteralFits.castTo {e : Expr} (hfits : e.LiteralFits) (dtype : DType) :
    (e.castTo dtype).LiteralFits := by
  unfold Expr.castTo
  split
  · exact hfits
  · split
    · exact literalFits_literal _ _
    · exact fun _ hvalue => nomatch hvalue

theorem eval_castTo {e : Expr} (hformed : e.Formed) {value : Int}
    (h : e.eval assignment = .ok value) (dtype : DType) :
    (e.castTo dtype).eval assignment = .ok (dtype.truncate value) :=
  hformed.literalFits.eval_castTo h dtype

/-- A literal of its type has the value that is written. -/
theorem eval_literal {dtype : DType} {value : Int} (h : dtype.contains value = true) :
    (literal dtype value).eval assignment = .ok value := by
  rw [eval_literal_wrapped, DType.truncate_of_contains h]

@[simp] theorem dtype_negate (e : Expr) : e.negate.dtype = e.dtype := by
  unfold negate
  split <;> rfl

theorem formed_negate {e : Expr} (h : e.Formed) : e.negate.Formed := by
  unfold negate
  split
  · exact formed_literal _ _
  · exact h

theorem complements_negate {e : Expr} (h : e.ComplementsTruth) : e.negate.ComplementsTruth := by
  unfold negate
  split
  · trivial
  · exact h

/-- The opposite of an expression has the wrapped opposite value. -/
theorem LiteralFits.eval_negate {e : Expr} (hfits : e.LiteralFits) {value : Int}
    (h : e.eval assignment = .ok value) :
    e.negate.eval assignment = .ok (e.dtype.truncate (-value)) := by
  unfold negate
  split
  · rename_i opposite hopposite
    obtain ⟨literal, hliteral, hnegate⟩ := Option.bind_eq_some_iff.mp hopposite
    rw [Word.negate?, Word.check_eq_some_iff] at hnegate
    rw [hfits.eval hliteral, Except.ok.injEq] at h
    rw [eval_literal_wrapped, ← hnegate.2, h]
  · exact eval_neg_of_eval h

theorem literalFits_negate (e : Expr) : e.negate.LiteralFits := by
  unfold negate
  split
  · exact literalFits_literal _ _
  · exact fun _ hvalue => nomatch hvalue

theorem eval_negate {e : Expr} (hformed : e.Formed) {value : Int}
    (h : e.eval assignment = .ok value) :
    e.negate.eval assignment = .ok (e.dtype.truncate (-value)) :=
  hformed.literalFits.eval_negate h

@[simp] theorem dtype_complement (e : Expr) : e.complement.dtype = .bool := by
  unfold complement
  split <;> rfl

theorem formed_complement {e : Expr} (h : e.Formed) : e.complement.Formed := by
  unfold complement
  split
  · exact formed_literal _ _
  · exact h

theorem complements_complement {e : Expr} (h : e.ComplementsTruth) (hbool : e.dtype = .bool) :
    e.complement.ComplementsTruth := by
  unfold complement
  split
  · trivial
  · exact ⟨h, hbool⟩

/-- A literal truth value. -/
@[simp] theorem eval_ofBool (holds : Bool) :
    (ofBool holds).eval assignment = .ok (BinaryOp.truth holds) := by
  cases holds <;> rfl

/-- The complement of an expression tells whether its value is zero. -/
theorem LiteralFits.eval_complement {e : Expr} (hfits : e.LiteralFits) {value : Int}
    (h : e.eval assignment = .ok value) :
    e.complement.eval assignment = .ok (BinaryOp.truth (decide (value = 0))) := by
  unfold complement
  split
  · rename_i literal hliteral
    rw [hfits.eval hliteral, Except.ok.injEq] at h
    rw [eval_ofBool, h]
  · exact eval_not_of_eval h

theorem literalFits_complement (e : Expr) : e.complement.LiteralFits := by
  unfold complement
  split
  · exact literalFits_literal _ _
  · exact fun _ hvalue => nomatch hvalue

theorem eval_complement {e : Expr} (hformed : e.Formed) {value : Int}
    (h : e.eval assignment = .ok value) :
    e.complement.eval assignment = .ok (BinaryOp.truth (decide (value = 0))) :=
  hformed.literalFits.eval_complement h

/-- Operands of one type need no promotion. -/
theorem promote_of_dtype_eq (same : lhs.dtype = rhs.dtype) : promote lhs rhs = (lhs, rhs) := by
  simp [promote, same]

/-- Operands share their type once they are promoted. -/
theorem dtype_promote (lhs rhs : Expr) : (promote lhs rhs).1.dtype = (promote lhs rhs).2.dtype := by
  unfold promote
  split
  · assumption
  · split <;> simp

/-- An expression of the required type is not cast. -/
theorem castTo_of_dtype_eq {e : Expr} {dtype : DType} (h : e.dtype = dtype) : e.castTo dtype = e := by
  rw [castTo, if_pos h]

/-- Operands are brought to a common type by viewing both of them at it. -/
theorem promote_eq_castTo (lhs rhs : Expr) :
    promote lhs rhs =
      (lhs.castTo (promote lhs rhs).1.dtype, rhs.castTo (promote lhs rhs).1.dtype) := by
  have hself : ∀ e : Expr, e.castTo e.dtype = e := fun e => castTo_of_dtype_eq rfl
  unfold promote
  split
  · rename_i same
    exact Prod.ext (hself lhs).symm (castTo_of_dtype_eq same.symm).symm
  · split <;> simp [hself]

theorem formed_promote (hlhs : lhs.Formed) (hrhs : rhs.Formed) :
    (promote lhs rhs).1.Formed ∧ (promote lhs rhs).2.Formed := by
  rw [promote_eq_castTo]
  exact ⟨formed_castTo hlhs _, formed_castTo hrhs _⟩

theorem combine_of_dtype_eq (op : BinaryOp) (same : lhs.dtype = rhs.dtype) :
    combine op lhs rhs = foldNode op lhs rhs := by
  rw [combine, promote_of_dtype_eq same]

/-- Joining formed operands gives a formed expression. -/
theorem formed_combine (hlhs : lhs.Formed) (hrhs : rhs.Formed)
    (hbool : op.isLogical = true → lhs.dtype = .bool ∧ rhs.dtype = .bool) :
    (combine op lhs rhs).Formed := by
  have hoperands := formed_promote hlhs hrhs
  have hpromoted : op.isLogical = true → (promote lhs rhs).1.dtype = .bool := fun hlogical => by
    obtain ⟨hleft, hright⟩ := hbool hlogical
    rw [promote_of_dtype_eq (hleft.trans hright.symm), hleft]
  exact (folded_foldNode hpromoted).formed hoperands.1 hoperands.2 (dtype_promote lhs rhs) hpromoted

section SharedType

variable (same : lhs.dtype = rhs.dtype) (hbool : op.isLogical = true → lhs.dtype = .bool)
include same hbool

theorem folded_combine : Folded op lhs rhs (combine op lhs rhs) := by
  rw [combine_of_dtype_eq op same]
  exact folded_foldNode hbool

theorem dtype_combine : (combine op lhs rhs).dtype = resultType op lhs.dtype :=
  (folded_combine same hbool).dtype_eq same

theorem wellTyped_combine (hlhs : lhs.WellTyped) (hrhs : rhs.WellTyped) :
    (combine op lhs rhs).WellTyped :=
  ⟨(folded_combine same hbool).formed hlhs.formed hrhs.formed same hbool,
    (folded_combine same hbool).complements hlhs.complements hrhs.complements⟩

end SharedType

theorem eval_of_isZero {e : Expr} (h : e.isZero = true) : e.eval assignment = .ok 0 := by
  rw [isZero, decide_eq_true_iff] at h
  rw [eq_const_of_value? h, eval_const, DType.truncate_zero]

theorem eval_of_isOne {e : Expr} (h : e.isOne = true) : e.eval assignment = .ok 1 := by
  rw [isOne, decide_eq_true_iff] at h
  rw [eq_const_of_value? h, eval_const, DType.truncate_one]

@[simp] theorem eval_zero (dtype : DType) : (zero dtype).eval assignment = .ok 0 := by
  rw [zero, eval_literal_wrapped, DType.truncate_zero]

@[simp] theorem eval_one (dtype : DType) : (one dtype).eval assignment = .ok 1 := by
  rw [one, eval_literal_wrapped, DType.truncate_one]

section Evaluation

variable {value : Int}

theorem eval_foldLiterals? (hlhs : lhs.LiteralFits) (hrhs : rhs.LiteralFits) {folded : Expr}
    (h : foldLiterals? op lhs rhs = some folded)
    (hvalue : (binary op lhs rhs).eval assignment = .ok value) :
    folded.eval assignment = .ok value := by
  simp only [foldLiterals?, Option.bind_eq_bind, Option.pure_def, Option.bind_eq_some_iff,
    Option.some.injEq] at h
  obtain ⟨left, hleft, right, hright, result, hresult, rfl⟩ := h
  rw [← hvalue, eval_binary_of_eval (hlhs.eval hleft) (hrhs.eval hright)
    hresult, eval_literal_wrapped]
  rfl

/-- A conjunction of truth values is false with its left operand and otherwise the
right operand. -/
theorem eval_and_inv (hbool : lhs.dtype = .bool) (same : lhs.dtype = rhs.dtype)
    (hvalue : (binary .and lhs rhs).eval assignment = .ok value) :
    lhs.eval assignment = .ok 0 ∧ value = 0 ∨
      lhs.eval assignment = .ok 1 ∧ rhs.eval assignment = .ok value := by
  obtain ⟨left, hleft, hdecided | ⟨hopen, right, result, hright, hresult, rfl⟩⟩ :=
    eval_binary_inv hvalue
  · simp only [BinaryOp.decidedBy?, Option.ite_none_right_eq_some, Option.some.injEq] at hdecided
    exact .inl ⟨hdecided.1 ▸ hleft, hdecided.2.symm⟩
  · simp only [BinaryOp.decidedBy?, ite_eq_right_iff, reduceCtorEq, imp_false] at hopen
    have htruth := eval_contains hleft
    have hother := eval_contains hright
    rw [hbool, DType.contains_bool_iff] at htruth
    rw [← same, hbool, DType.contains_bool_iff] at hother
    obtain rfl : left = 1 := htruth.resolve_left hopen
    simp only [BinaryOp.compute?, Option.some.injEq] at hresult
    refine .inr ⟨hleft, hright.trans (congrArg Except.ok ?_)⟩
    rcases hother with rfl | rfl <;> subst hresult <;> rfl

/-- A disjunction of truth values is true with its left operand and otherwise the
right operand. -/
theorem eval_or_inv (hbool : lhs.dtype = .bool) (same : lhs.dtype = rhs.dtype)
    (hvalue : (binary .or lhs rhs).eval assignment = .ok value) :
    lhs.eval assignment = .ok 1 ∧ value = 1 ∨
      lhs.eval assignment = .ok 0 ∧ rhs.eval assignment = .ok value := by
  obtain ⟨left, hleft, hdecided | ⟨hopen, right, result, hright, hresult, rfl⟩⟩ :=
    eval_binary_inv hvalue
  · simp only [BinaryOp.decidedBy?, Option.ite_none_right_eq_some, Option.some.injEq] at hdecided
    have htruth := eval_contains hleft
    rw [hbool, DType.contains_bool_iff] at htruth
    exact .inl ⟨htruth.resolve_left hdecided.1 ▸ hleft, hdecided.2.symm⟩
  · simp only [BinaryOp.decidedBy?, ite_eq_right_iff, reduceCtorEq, imp_false, not_not] at hopen
    have hother := eval_contains hright
    rw [← same, hbool, DType.contains_bool_iff] at hother
    simp only [BinaryOp.compute?, Option.some.injEq] at hresult
    refine .inr ⟨hopen ▸ hleft, hright.trans (congrArg Except.ok ?_)⟩
    subst hopen
    rcases hother with rfl | rfl <;> subst hresult <;> rfl

/-- A conjunction one of whose operands is a literal. -/
theorem eval_foldAnd (hlhs : lhs.LiteralFits) (hrhs : rhs.LiteralFits) (hbool : lhs.dtype = .bool)
    (same : lhs.dtype = rhs.dtype) (hvalue : (binary .and lhs rhs).eval assignment = .ok value)
    (known : Int) :
    (lhs.value? = some known → (foldAnd known rhs).eval assignment = .ok value) ∧
      (rhs.value? = some known → (foldAnd known lhs).eval assignment = .ok value) := by
  rcases eval_and_inv hbool same hvalue with ⟨hleft, rfl⟩ | ⟨hleft, hright⟩
  · refine ⟨fun hknown => ?_, fun _ => ?_⟩
    · obtain rfl : known = 0 := Except.ok.inj ((hlhs.eval hknown).symm.trans hleft)
      simp [foldAnd, BinaryOp.truth]
    · unfold foldAnd
      split <;> simp [hleft, BinaryOp.truth]
  · refine ⟨fun hknown => ?_, fun hknown => ?_⟩
    · obtain rfl : known = 1 := Except.ok.inj ((hlhs.eval hknown).symm.trans hleft)
      simpa [foldAnd] using hright
    · obtain rfl : known = value := Except.ok.inj ((hrhs.eval hknown).symm.trans hright)
      have htruth := eval_contains hright
      rw [← same, hbool, DType.contains_bool_iff] at htruth
      rcases htruth with rfl | rfl <;> simp [foldAnd, hleft, BinaryOp.truth]

/-- A disjunction one of whose operands is a literal. -/
theorem eval_foldOr (hlhs : lhs.LiteralFits) (hrhs : rhs.LiteralFits) (hbool : lhs.dtype = .bool)
    (same : lhs.dtype = rhs.dtype) (hvalue : (binary .or lhs rhs).eval assignment = .ok value)
    (known : Int) :
    (lhs.value? = some known → (foldOr known rhs).eval assignment = .ok value) ∧
      (rhs.value? = some known → (foldOr known lhs).eval assignment = .ok value) := by
  rcases eval_or_inv hbool same hvalue with ⟨hleft, rfl⟩ | ⟨hleft, hright⟩
  · refine ⟨fun hknown => ?_, fun _ => ?_⟩
    · obtain rfl : known = 1 := Except.ok.inj ((hlhs.eval hknown).symm.trans hleft)
      simp [foldOr, BinaryOp.truth]
    · unfold foldOr
      split <;> simp [hleft, BinaryOp.truth]
  · refine ⟨fun hknown => ?_, fun hknown => ?_⟩
    · obtain rfl : known = 0 := Except.ok.inj ((hlhs.eval hknown).symm.trans hleft)
      simpa [foldOr] using hright
    · obtain rfl : known = value := Except.ok.inj ((hrhs.eval hknown).symm.trans hright)
      have htruth := eval_contains hright
      rw [← same, hbool, DType.contains_bool_iff] at htruth
      rcases htruth with rfl | rfl <;> simp [foldOr, hleft, BinaryOp.truth]

/-- A node whose result is the value of an operand does not wrap it. -/
theorem truncate_left {left : Int} (hop : op.isPredicate = false)
    (hleft : lhs.eval assignment = .ok left) : (binary op lhs rhs).dtype.truncate left = left := by
  have hdtype : (binary op lhs rhs).dtype = lhs.dtype := by simp [dtype, hop]
  rw [hdtype, DType.truncate_of_contains (eval_contains hleft)]

theorem truncate_right {right : Int} (hop : op.isPredicate = false) (same : lhs.dtype = rhs.dtype)
    (hright : rhs.eval assignment = .ok right) :
    (binary op lhs rhs).dtype.truncate right = right := by
  have hdtype : (binary op lhs rhs).dtype = rhs.dtype := by simp [dtype, hop, same]
  rw [hdtype, DType.truncate_of_contains (eval_contains hright)]

/-- A neutral or absorbing operand gives the node its value. -/
theorem eval_foldNeutral? (hlhs : lhs.LiteralFits) (hrhs : rhs.LiteralFits) (same : lhs.dtype = rhs.dtype)
    (hbool : op.isLogical = true → lhs.dtype = .bool) {folded : Expr}
    (h : foldNeutral? op lhs rhs = some folded)
    (hvalue : (binary op lhs rhs).eval assignment = .ok value) :
    folded.eval assignment = .ok value := by
  cases op with
  | add =>
      obtain ⟨left, right, result, hleft, hright, hresult, rfl⟩ :=
        eval_binary_inv_of_not_isLogical rfl hvalue
      simp only [BinaryOp.compute?, Option.some.injEq] at hresult
      simp only [foldNeutral?] at h
      split at h
      · rename_i hzero
        obtain rfl : right = 0 := Except.ok.inj (hright.symm.trans (eval_of_isZero hzero))
        rw [add_zero] at hresult
        rw [← hresult, truncate_left rfl hleft]
        exact Option.some.inj h ▸ hleft
      · split at h
        · rename_i hzero
          obtain rfl : left = 0 := Except.ok.inj (hleft.symm.trans (eval_of_isZero hzero))
          rw [zero_add] at hresult
          rw [← hresult, truncate_right rfl same hright]
          exact Option.some.inj h ▸ hright
        · cases h
  | sub =>
      obtain ⟨left, right, result, hleft, hright, hresult, rfl⟩ :=
        eval_binary_inv_of_not_isLogical rfl hvalue
      simp only [BinaryOp.compute?, Option.some.injEq] at hresult
      simp only [foldNeutral?, Option.ite_none_right_eq_some, Option.some.injEq] at h
      obtain ⟨hzero, rfl⟩ := h
      obtain rfl : right = 0 := Except.ok.inj (hright.symm.trans (eval_of_isZero hzero))
      rw [sub_zero] at hresult
      rw [← hresult, truncate_left rfl hleft]
      exact hleft
  | mul =>
      obtain ⟨left, right, result, hleft, hright, hresult, rfl⟩ :=
        eval_binary_inv_of_not_isLogical rfl hvalue
      simp only [BinaryOp.compute?, Option.some.injEq] at hresult
      simp only [foldNeutral?] at h
      split at h
      · rename_i hone
        obtain rfl : right = 1 := Except.ok.inj (hright.symm.trans (eval_of_isOne hone))
        rw [mul_one] at hresult
        rw [← hresult, truncate_left rfl hleft]
        exact Option.some.inj h ▸ hleft
      · split at h
        · rename_i hone
          obtain rfl : left = 1 := Except.ok.inj (hleft.symm.trans (eval_of_isOne hone))
          rw [one_mul] at hresult
          rw [← hresult, truncate_right rfl same hright]
          exact Option.some.inj h ▸ hright
        · split at h
          · rename_i hzero
            have hproduct : left * right = 0 := by
              rw [Bool.or_eq_true] at hzero
              rcases hzero with hzero | hzero
              · rw [Except.ok.inj (hleft.symm.trans (eval_of_isZero hzero)), zero_mul]
              · rw [Except.ok.inj (hright.symm.trans (eval_of_isZero hzero)), mul_zero]
            rw [hproduct] at hresult
            subst hresult
            rw [← Option.some.inj h, eval_zero, DType.truncate_zero]
          · cases h
  | floorDiv =>
      obtain ⟨left, right, result, hleft, hright, hresult, rfl⟩ :=
        eval_binary_inv_of_not_isLogical rfl hvalue
      simp only [foldNeutral?, Option.ite_none_right_eq_some, Option.some.injEq] at h
      obtain ⟨hone, rfl⟩ := h
      obtain rfl : right = 1 := Except.ok.inj (hright.symm.trans (eval_of_isOne hone))
      simp only [BinaryOp.compute?, Word.floorDiv?, one_ne_zero, if_false, Int.fdiv_one,
        Word.check_eq_some_iff] at hresult
      rw [← hresult.2, truncate_left rfl hleft]
      exact hleft
  | floorMod =>
      obtain ⟨left, right, result, hleft, hright, hresult, rfl⟩ :=
        eval_binary_inv_of_not_isLogical rfl hvalue
      simp only [foldNeutral?, Option.ite_none_right_eq_some, Option.some.injEq] at h
      obtain ⟨hone, rfl⟩ := h
      obtain rfl : right = 1 := Except.ok.inj (hright.symm.trans (eval_of_isOne hone))
      have hfits := DType.fits_of_contains (eval_contains hleft)
      simp only [BinaryOp.compute?, Word.floorMod?, Word.floorDiv?, Word.mul?, Word.check,
        one_ne_zero, if_false, Int.fdiv_one, hfits, if_true, Option.bind_eq_bind,
        Option.bind_some, mul_one, sub_self, Option.ite_none_right_eq_some,
        Option.some.injEq] at hresult
      rw [eval_zero, ← hresult.2, DType.truncate_zero]
  | and =>
      have hfold := eval_foldAnd hlhs hrhs (hbool rfl) same hvalue
      simp only [foldNeutral?] at h
      split at h
      · exact Option.some.inj h ▸ (hfold _).1 ‹_›
      · exact Option.some.inj h ▸ (hfold _).2 ‹_›
      · cases h
  | or =>
      have hfold := eval_foldOr hlhs hrhs (hbool rfl) same hvalue
      simp only [foldNeutral?] at h
      split at h
      · exact Option.some.inj h ▸ (hfold _).1 ‹_›
      · exact Option.some.inj h ▸ (hfold _).2 ‹_›
      · cases h
  | _ => simp [foldNeutral?] at h

/-- The opposite of an offset is the opposite value. -/
theorem eq_neg_of_oppositeOffset? {e : Expr} {offset : Int}
    (h : oppositeOffset? e = some offset) : e.value? = some (-offset) ∧ -offset < 0 := by
  simp only [oppositeOffset?, Option.bind_eq_bind, Option.bind_eq_some_iff,
    Option.ite_none_right_eq_some, Word.negate?, Word.check_eq_some_iff] at h
  obtain ⟨literal, hliteral, hnegative, -, rfl⟩ := h
  rw [neg_neg]
  exact ⟨hliteral, hnegative⟩

/-- Truth values have no negative literals, so an offset that is turned around is a number. -/
theorem ne_bool_of_oppositeOffset? {e : Expr} (hfits : e.LiteralFits) {offset : Int}
    (h : oppositeOffset? e = some offset) : e.dtype ≠ .bool := by
  obtain ⟨hliteral, hnegative⟩ := eq_neg_of_oppositeOffset? h
  intro hbool
  have hvalue : e.eval (fun _ => none) = .ok (-offset) := hfits.eval hliteral
  have hcontains := eval_contains hvalue
  rw [hbool, DType.contains_bool_iff] at hcontains
  omega

theorem eval_keepOffsetPositive (hrhs : rhs.LiteralFits) (same : lhs.dtype = rhs.dtype)
    (hvalue : (binary op lhs rhs).eval assignment = .ok value) :
    (keepOffsetPositive op lhs rhs).eval assignment = .ok value := by
  unfold keepOffsetPositive
  split
  · rename_i offset hoffset
    obtain ⟨left, right, result, hleft, hright, hresult, rfl⟩ :=
      eval_binary_inv_of_not_isLogical rfl hvalue
    have hopposite : rhs.eval assignment = .ok (-offset) :=
      hrhs.eval (eq_neg_of_oppositeOffset? hoffset).1
    obtain rfl : right = -offset := Except.ok.inj (hright.symm.trans hopposite)
    simp only [BinaryOp.compute?, Option.some.injEq] at hresult
    rw [eval_binary_of_eval hleft rfl rfl, ← hresult, DType.truncate_truncate]
    have hbool : lhs.dtype ≠ .bool := same ▸ ne_bool_of_oppositeOffset? hrhs hoffset
    exact congrArg Except.ok
      (DType.truncate_congr ((DType.truncate_modEq hbool offset).sub_left left))
  · rename_i offset hoffset
    obtain ⟨left, right, result, hleft, hright, hresult, rfl⟩ :=
      eval_binary_inv_of_not_isLogical rfl hvalue
    have hopposite : rhs.eval assignment = .ok (-offset) :=
      hrhs.eval (eq_neg_of_oppositeOffset? hoffset).1
    obtain rfl : right = -offset := Except.ok.inj (hright.symm.trans hopposite)
    simp only [BinaryOp.compute?, Option.some.injEq, sub_neg_eq_add] at hresult
    rw [eval_binary_of_eval hleft rfl rfl, ← hresult, DType.truncate_truncate]
    have hbool : lhs.dtype ≠ .bool := same ▸ ne_bool_of_oppositeOffset? hrhs hoffset
    exact congrArg Except.ok
      (DType.truncate_congr ((DType.truncate_modEq hbool offset).add_left left))
  · exact hvalue

/-- Folding does not change the value of a node. -/
theorem LiteralFits.eval_combine (hlhs : lhs.LiteralFits) (hrhs : rhs.LiteralFits)
    (same : lhs.dtype = rhs.dtype) (hbool : op.isLogical = true → lhs.dtype = .bool)
    (hvalue : (binary op lhs rhs).eval assignment = .ok value) :
    (combine op lhs rhs).eval assignment = .ok value := by
  rw [combine_of_dtype_eq op same, foldNode]
  split
  · exact eval_foldLiterals? hlhs hrhs ‹_› hvalue
  · split
    · exact eval_foldNeutral? hlhs hrhs same hbool ‹_› hvalue
    · exact eval_keepOffsetPositive hrhs same hvalue

theorem eval_combine (hlhs : lhs.Formed) (hrhs : rhs.Formed) (same : lhs.dtype = rhs.dtype)
    (hbool : op.isLogical = true → lhs.dtype = .bool)
    (hvalue : (binary op lhs rhs).eval assignment = .ok value) :
    (combine op lhs rhs).eval assignment = .ok value :=
  hlhs.literalFits.eval_combine hrhs.literalFits same hbool hvalue

end Evaluation

end LoopNest.Expr
